import DexOs.ExfatWriteOutcome
import DexOs.ExfatContents

/-! While every buffer is granted a file grows by the lowest free clusters, as far as they go. -/

namespace DexOs.Exfat

open DexOs.Lib

variable {σ H : Type} {D : Disk σ} {v v' v'' : Vol} {f n k : ℕ} {l : List ℕ}

/-- The file at `f` has taken `n` free clusters, or all where there are fewer. -/
structure Extended (D : Disk σ) (v v' : Vol) (f : ℕ) (l : List ℕ) (n : ℕ) : Prop where
  grown : Grown D v v' f l (l ++ (D.free v).take n)
  free : D.free v' = (D.free v).drop n

theorem Extended.refl (hc : IsChain D v.fat f l) : Extended D v v f l 0 where
  grown := by
    rw [List.take_zero, List.append_nil]
    exact Grown.refl hc
  free := rfl

theorem Extended.full (hc : IsChain D v.fat f l) (hnone : D.free v = []) (n : ℕ) : Extended D v v f l n := by
  have hrefl := Extended.refl hc
  constructor
  · have hg := hrefl.grown
    rwa [hnone, List.take_nil] at hg ⊢
  · rw [hnone, List.drop_nil]

theorem Extended.trans (h : Extended D v v' f l n) (h' : Extended D v' v'' f (l ++ (D.free v).take n) k) :
    Extended D v v'' f l (n + k) where
  grown := by
    have hg := h.grown.trans h'.grown
    rwa [List.append_assoc, h.free, ← List.take_add] at hg
  free := by rw [h'.free, h.free, List.drop_drop]

theorem Extended.saturated (h : Extended D v v' f l n) (hn : (D.free v).length ≤ n) (hk : (D.free v).length ≤ k) :
    Extended D v v' f l k := by
  have hg := h.grown
  have hf := h.free
  rw [List.take_of_length_le hn] at hg
  rw [List.drop_of_length_le hn] at hf
  constructor
  · rwa [List.take_of_length_le hk]
  · rwa [List.drop_of_length_le hk]

theorem length_append_free (D : Disk σ) (v : Vol) (l : List ℕ) (n : ℕ) :
    (l ++ (D.free v).take n).length = l.length + min n (D.free v).length := by
  rw [List.length_append, List.length_take]

variable [KernelAlloc H] {w : World σ H} (ha : AllocOk H) (hcsz : 0 < D.fs.clusterSize)

include ha hcsz

theorem appendCluster_extended {cur : ℕ} (hc : IsChain D (D.vol w).fat f l) (hcur : l[l.length - 1]? = some cur)
    (hroot : (D.vol w).fat D.fs.rootDirCluster ≠ 0) :
    Wp (appendCluster D.fs cur) w fun r w' => Extended D (D.vol w) (D.vol w') f l 1 ∧
      (r = 0 ↔ D.free (D.vol w) = []) ∧ (r ≠ 0 → (l ++ (D.free (D.vol w)).take 1)[l.length]? = some r) := by
  obtain ⟨m, rfl⟩ := split_last hcur
  have hmem : cur ∈ m ++ [cur] := by simp
  apply ((appendCluster_spec hc hroot).and (appendCluster_exact (hc.valid cur hmem) (hc.fat_ne_zero hmem))).mono
  rintro r w' ⟨hspec, hnil, hcons⟩
  cases hfree : D.free (D.vol w) with
  | nil =>
    obtain ⟨rfl, hv⟩ := hnil hfree
    rw [hv]
    exact ⟨Extended.full hc hfree 1, by simp, fun h => absurd rfl h⟩
  | cons cl rest =>
    obtain ⟨-, houtcome⟩ := hcons cl rest hfree
    rw [if_neg (ha w.heap _ hcsz)] at houtcome
    obtain ⟨rfl, hrest, -⟩ := houtcome
    have hr := (Disk.mem_free.mp (hfree ▸ List.mem_cons_self : r ∈ D.free (D.vol w))).1.1
    obtain ⟨-, hg⟩ := hspec.resolve_left fun h => by omega
    refine ⟨⟨?_, ?_⟩, ?_, fun _ => ?_⟩
    · rw [hfree]
      exact hg
    · rw [hfree]
      exact hrest
    · simp only [List.cons_ne_nil, iff_false]
      omega
    · simp

theorem extendChain_extended {cur : ℕ} (hc : IsChain D (D.vol w).fat f l) (hcur : l[l.length - 1]? = some cur)
    (hroot : (D.vol w).fat D.fs.rootDirCluster ≠ 0) :
    Wp (extendChain D.fs n cur) w fun r w' => Extended D (D.vol w) (D.vol w') f l n ∧
      (r ≠ 0 ↔ n ≤ (D.free (D.vol w)).length) := by
  induction n generalizing l cur w with
  | zero =>
    have hpos := (hc.valid cur (List.mem_of_getElem? hcur)).1
    refine wp_pure ⟨Extended.refl hc, ?_⟩
    simp only [Nat.zero_le, iff_true]
    omega
  | succ n ih =>
    rw [extendChain]
    apply wp_bind (appendCluster_extended ha hcsz hc hcur hroot)
    rintro r w1 ⟨hext, hzero, hlast⟩
    by_cases hr : r = 0
    · rw [if_pos hr]
      have hnone := hzero.mp hr
      have hone := hext.trans (Extended.full hext.grown.chain (by rw [hext.free, hnone, List.drop_nil]) n)
      rw [Nat.add_comm] at hone
      refine wp_pure ⟨hone, ?_⟩
      rw [hnone]
      simp
    · rw [if_neg hr]
      have hsome : 0 < (D.free (D.vol w)).length := List.length_pos_iff.mpr fun h => hr (hzero.mpr h)
      have hlen := length_append_free D (D.vol w) l 1
      have hidx : (l ++ (D.free (D.vol w)).take 1)[(l ++ (D.free (D.vol w)).take 1).length - 1]? = some r := by
        rw [hlen, Nat.min_eq_left hsome, Nat.add_sub_cancel]
        exact hlast hr
      apply (ih hext.grown.chain hidx (hext.grown.fat_ne_zero hroot)).mono
      rintro r' w2 ⟨hext2, hr'⟩
      have hall := hext.trans hext2
      rw [Nat.add_comm] at hall
      refine ⟨hall, ?_⟩
      rw [hr', hext.free, List.length_drop]
      omega

theorem ensureChainLength_extended {fuel needed : ℕ} (hc : IsChain D (D.vol w).fat f l)
    (hroot : (D.vol w).fat D.fs.rootDirCluster ≠ 0) (hfuel : D.fs.entries ≤ fuel) :
    Wp (ensureChainLength fuel D.fs f needed) w fun r w' => r.2 = f ∧
      Extended D (D.vol w) (D.vol w') f l (needed - l.length) ∧
      (r.1 ≠ 0 ↔ needed - l.length ≤ (D.free (D.vol w)).length) := by
  have hlen := hc.length_lt
  have hf := (hc.valid f hc.first_mem).1
  unfold ensureChainLength
  rw [if_neg (by omega)]
  apply wp_bind (wp_pure (Q := fun a w' => a = f ∧ w' = w) ⟨rfl, rfl⟩)
  rintro _ _ ⟨rfl, rfl⟩
  rw [if_neg (by omega)]
  apply wp_bind (chainEnd_spec hc hc.head (by omega))
  rintro ⟨last, count⟩ _ ⟨rfl, hlast, hcount⟩
  dsimp only at hlast hcount ⊢
  obtain rfl : count = l.length := by omega
  apply wp_bind (extendChain_extended ha hcsz hc hlast hroot)
  rintro r w' ⟨hext, hr⟩
  exact wp_pure ⟨rfl, hext, hr⟩

theorem nextOrAppend_extended {i cl : ℕ} (hc : IsChain D (D.vol w).fat f l) (hi : l[i]? = some cl)
    (hroot : (D.vol w).fat D.fs.rootDirCluster ≠ 0) :
    Wp (nextOrAppend D.fs cl) w fun r w' => Extended D (D.vol w) (D.vol w') f l (i + 2 - l.length) ∧
      (r ≠ 0 ↔ i + 1 < l.length + (D.free (D.vol w)).length) ∧
      (r ≠ 0 → (l ++ (D.free (D.vol w)).take (i + 2 - l.length))[i + 1]? = some r) := by
  have hlt := (List.getElem?_eq_some_iff.mp hi).1
  rcases Nat.lt_or_ge (i + 1) l.length with hmore | hlast
  · apply (nextOrAppend_spec hc hi hroot).mono
    rintro r w' ⟨l', -, hr, hlong⟩
    obtain ⟨hne, rfl, rfl⟩ := hlong hmore
    rw [show i + 2 - l'.length = 0 by omega, List.take_zero, List.append_nil]
    exact ⟨Extended.refl hc, iff_of_true hne (by omega), fun h => (hr.resolve_left h).2⟩
  · obtain rfl : i = l.length - 1 := by omega
    have hone : l.length - 1 + 2 - l.length = 1 := by omega
    have hlen : l.length - 1 + 1 = l.length := by omega
    unfold nextOrAppend
    apply wp_bind (Disk.fatGet_spec (hc.valid cl (List.mem_of_getElem? hi)).2)
    rintro _ w ⟨rfl, rfl⟩
    have hend : (D.vol w).fat cl = eoc := by
      rw [hc.linked.next_eq hi, hlen, List.getElem?_eq_none (le_refl _), Option.getD_none]
    rw [if_pos (.inl hend), hone, hlen]
    apply (appendCluster_extended ha hcsz hc hi hroot).mono
    rintro r w' ⟨hext, hzero, hr⟩
    refine ⟨hext, ?_, hr⟩
    rw [ne_eq, hzero, ← ne_eq, ← List.length_pos_iff]
    omega

theorem writeSkip_extended {i cl : ℕ} (hc : IsChain D (D.vol w).fat f l) (hi : l[i]? = some cl)
    (hroot : (D.vol w).fat D.fs.rootDirCluster ≠ 0) :
    Wp (writeSkip D.fs k cl) w fun r w' => Extended D (D.vol w) (D.vol w') f l (i + k + 1 - l.length) ∧
      (r ≠ 0 ↔ i + k < l.length + (D.free (D.vol w)).length) := by
  have hlt := (List.getElem?_eq_some_iff.mp hi).1
  induction k generalizing i cl l w with
  | zero =>
    have hpos := (hc.valid cl (List.mem_of_getElem? hi)).1
    rw [show i + 0 + 1 - l.length = 0 by omega]
    exact wp_pure ⟨Extended.refl hc, iff_of_true (by omega) (by omega)⟩
  | succ k ih =>
    rw [writeSkip]
    apply wp_bind (nextOrAppend_extended ha hcsz hc hi hroot)
    rintro r w1 ⟨hext, hr, hnext⟩
    have hlen := length_append_free D (D.vol w) l (i + 2 - l.length)
    by_cases h0 : r = 0
    · rw [if_pos h0]
      have hfew : ¬ i + 1 < l.length + (D.free (D.vol w)).length := fun h => hr.mpr h h0
      have hnone : D.free (D.vol w) = [] := List.length_eq_zero_iff.mp (by omega)
      have hall := hext.trans (Extended.full hext.grown.chain (by rw [hext.free, hnone, List.drop_nil]) k)
      rw [show i + 2 - l.length + k = i + (k + 1) + 1 - l.length by omega] at hall
      exact wp_pure ⟨hall, iff_of_false (by simp) (by omega)⟩
    · rw [if_neg h0]
      have hidx := hnext h0
      have hlt' := (List.getElem?_eq_some_iff.mp hidx).1
      apply (ih hext.grown.chain hidx (hext.grown.fat_ne_zero hroot) hlt').mono
      rintro r' w2 ⟨hext2, hr'⟩
      have hmany := hr.mp h0
      have hall := hext.trans hext2
      rw [show i + 2 - l.length + (i + 1 + k + 1 - (l ++ (D.free (D.vol w)).take (i + 2 - l.length)).length) =
        i + (k + 1) + 1 - l.length by omega] at hall
      refine ⟨hall, ?_⟩
      rw [hr', hlen, hext.free, List.length_drop]
      omega

theorem exfatWrite_extended {fuel off : ℕ} {node : Node} {buf : List UInt8}
    (hc : IsChain D (D.vol w).fat node.firstCluster l) (hroot : (D.vol w).fat D.fs.rootDirCluster ≠ 0)
    (hfuel : D.fs.entries ≤ fuel) (hfile : node.isDir = false) (hbuf : buf ≠ []) (hon : ∀ c, D.Valid c → D.On c)
    (hshort : buf.length < 2 ^ 63) :
    Wp (exfatWrite fuel D.fs node off buf) w fun r w' =>
      (lacking D.fs.clusterSize l (off + buf.length) ≤ (D.free (D.vol w)).length →
        r = (toInt buf.length, { node with size := max node.size (off + buf.length) }) ∧ ∃ v1,
          Extended D (D.vol w) v1 node.firstCluster l (lacking D.fs.clusterSize l (off + buf.length)) ∧
            (D.vol w').fat = v1.fat) ∧
      ((D.free (D.vol w)).length < lacking D.fs.clusterSize l (off + buf.length) → r = (-1, node) ∧
        Extended D (D.vol w) (D.vol w') node.firstCluster l (lacking D.fs.clusterSize l (off + buf.length))) := by
  have hcszlt := D.clusterSize_lt
  have hfree := D.length_free_lt (D.vol w)
  have hent := Disk.entries_lt (D := D)
  have hshortl := hc.length_lt
  have hpos := List.length_pos_iff.mpr hbuf
  unfold exfatWrite
  rw [if_neg (by rw [hfile]; decide), if_neg hbuf, if_neg hcsz.ne']
  dsimp only
  rcases Nat.lt_or_ge (off + buf.length + D.fs.clusterSize - 1) (2 ^ 64) with hnear | hfar
  · have hend : (off + buf.length) % 2 ^ 64 = off + buf.length := Nat.mod_eq_of_lt (by omega)
    have hneeded : (off + buf.length + D.fs.clusterSize + (2 ^ 64 - 1)) % 2 ^ 64 = off + buf.length + D.fs.clusterSize - 1 := by
      omega
    rw [hend, hneeded]
    apply wp_bind (ensureChainLength_extended ha hcsz hc hroot hfuel)
    rintro ⟨r1, first⟩ w1 ⟨rfl, hext, hr1⟩
    dsimp only at hr1 ⊢
    by_cases h0 : r1 = 0
    · rw [if_pos h0]
      have hmany : ¬ lacking D.fs.clusterSize l (off + buf.length) ≤ (D.free (D.vol w)).length := fun h => hr1.mpr h h0
      exact wp_pure ⟨fun h => absurd h hmany, fun _ => ⟨rfl, hext⟩⟩
    · have hfirst : node.firstCluster ≠ 0 := by
        have := (hc.valid _ hc.first_mem).1
        omega
      rw [if_neg h0, if_pos hfirst]
      have henough : lacking D.fs.clusterSize l (off + buf.length) ≤ (D.free (D.vol w)).length := hr1.mp h0
      have hlen := length_append_free D (D.vol w) l (lacking D.fs.clusterSize l (off + buf.length))
      rw [Nat.min_eq_left henough] at hlen
      have hroom : (off + buf.length + D.fs.clusterSize - 1) / D.fs.clusterSize ≤
          (l ++ (D.free (D.vol w)).take (lacking D.fs.clusterSize l (off + buf.length))).length := by
        rw [hlen, lacking]
        omega
      have hroot1 := hext.grown.fat_ne_zero hroot
      have hcopies : Copies D w1.heap (l ++ (D.free (D.vol w)).take (lacking D.fs.clusterSize l (off + buf.length))) off
          buf.length := by
        refine ⟨granted_of_allocOk ha hcsz _ _, fun c hm => hon c (hext.grown.chain.valid c ?_)⟩
        exact List.mem_of_mem_drop (List.mem_of_mem_take hm)
      apply (writeFrom_exact hext.grown.chain hroot1 hcsz hbuf hroom).mono
      rintro r w2 ⟨v1, -, hstored, -, hgo⟩
      obtain ⟨hr, hupd⟩ := hgo hcopies
      refine ⟨fun _ => ⟨?_, D.vol w1, hext, ?_⟩, fun h => absurd henough (by omega)⟩
      · exact hr
      · rw [hupd.fat, (hstored fun c hm => hon c (hext.grown.chain.valid c hm)).fat]
  · have hskip := far_offset hfar hshort hcsz
    have hmany : (D.free (D.vol w)).length < lacking D.fs.clusterSize l (off + buf.length) := by
      rw [lacking, ceil_split off buf.length hcsz]
      omega
    generalize ((off + buf.length) % 2 ^ 64 + D.fs.clusterSize + (2 ^ 64 - 1)) % 2 ^ 64 / D.fs.clusterSize = needed
    apply wp_bind (ensureChainLength_extended ha hcsz hc hroot hfuel)
    rintro ⟨r1, first⟩ w1 ⟨rfl, hext, hr1⟩
    dsimp only at hr1 ⊢
    by_cases h0 : r1 = 0
    · rw [if_pos h0]
      have hall : (D.free (D.vol w)).length ≤ needed - l.length := by
        by_contra hlt
        exact hr1.mpr (by omega) h0
      exact wp_pure ⟨fun h => absurd h (by omega), fun _ => ⟨rfl, hext.saturated hall hmany.le⟩⟩
    · rw [if_neg h0]
      have hroot1 := hext.grown.fat_ne_zero hroot
      apply wp_bind (writeSkip_extended ha hcsz hext.grown.chain hext.grown.chain.head hroot1)
      rintro cl w2 ⟨hext2, hcl⟩
      have hfree1 := D.length_free_lt (D.vol w1)
      have hlen1 := hext.grown.chain.length_lt
      have hzero : cl = 0 := by
        by_contra hne
        have hlt := hcl.mp hne
        omega
      rw [if_pos hzero]
      have hall := hext.trans hext2
      exact wp_pure ⟨fun h => absurd h (by omega), fun _ => ⟨rfl, hall.saturated (by omega) hmany.le⟩⟩

end DexOs.Exfat
