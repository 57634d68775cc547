import DexOs.ExfatCreate
import DexOs.ExfatWriteOutcome

/-! The clusters that the calls of the driver take while every buffer is granted: a file takes them for its chain
and marks no other. -/

namespace DexOs.Exfat

open DexOs.Lib

variable {σ H : Type} {D : Disk σ} {v₀ v v' : Vol} {f : ℕ} {l : List ℕ}

/-- Since `v₀` the file at `f` has taken the clusters of its chain, and no other FAT entry has changed. -/
structure Taken (D : Disk σ) (v₀ v : Vol) (f : ℕ) (l : List ℕ) : Prop where
  chain : IsChain D v.fat f l
  free : ∀ c ∈ l, v₀.fat c = 0
  fat : ∀ c, c ∉ l → v.fat c = v₀.fat c

theorem Taken.congr (h : Taken D v₀ v f l) (hfat : v'.fat = v.fat) : Taken D v₀ v' f l :=
  ⟨hfat ▸ h.chain, h.free, hfat ▸ h.fat⟩

theorem Taken.used (h : Taken D v₀ v f l) {c : ℕ} (hc : v₀.fat c ≠ 0) : v.fat c ≠ 0 := by
  rw [h.fat c fun hm => hc (h.free c hm)]
  exact hc

theorem Taken.first (ht : Took D v v' f) (hroot : v.fat D.fs.rootDirCluster ≠ 0)
    (hframe : ∀ c, c ≠ f → v'.fat c = v.fat c) : Taken D v v' f [f] where
  chain := ht.alone hroot
  free := by simpa using ht.free
  fat c hc := hframe c (List.mem_singleton.not.mp hc)

theorem Taken.append {cur r : ℕ} (h : Taken D v₀ v f (l ++ [cur]))
    (hg : Grown D v v' f (l ++ [cur]) (l ++ [cur] ++ [r]))
    (hframe : ∀ c, c ≠ cur → c ≠ r → v'.fat c = v.fat c) : Taken D v₀ v' f (l ++ [cur] ++ [r]) where
  chain := hg.chain
  free c hc := by
    obtain ⟨ext, hext, hfree⟩ := hg.grows
    obtain rfl := List.append_cancel_left hext
    rcases List.mem_append.mp hc with hold | hnew
    · exact h.free c hold
    · by_cases hm : c ∈ l ++ [cur]
      · exact h.free c hm
      · rw [← h.fat c hm]
        exact hfree c hnew
  fat c hc := by
    obtain ⟨hold, hnew⟩ := not_or.mp (List.mem_append.not.mp hc)
    have hcur : c ≠ cur := fun e => hold (by simp [e])
    rw [hframe c hcur (List.mem_singleton.not.mp hnew), h.fat c hold]

theorem Taken.freed (h : Taken D v₀ v f l) (hf : Freed v v' l) : v'.fat = v₀.fat := by
  funext c
  by_cases hc : c ∈ l
  · rw [hf.free c hc, h.free c hc]
  · rw [hf.fat c hc, h.fat c hc]

variable [KernelAlloc H] {w : World σ H}

section Frames

theorem fatAlloc_frame (ha : AllocOk H) (hpos : 0 < D.fs.clusterSize) : Wp (fatAlloc D.fs) w fun r w' =>
    (r = 0 → D.vol w' = D.vol w) ∧ ∀ c, c ≠ r → (D.vol w').fat c = (D.vol w).fat c := by
  apply fatAlloc_exact.mono
  intro r w' h
  cases hfree : D.free (D.vol w) with
  | nil =>
    rw [hfree] at h
    obtain ⟨-, rfl⟩ := h
    exact ⟨fun _ => rfl, fun _ _ => rfl⟩
  | cons cl rest =>
    obtain ⟨hvalid, -⟩ := Disk.mem_free.mp (hfree ▸ List.mem_cons_self : cl ∈ D.free (D.vol w))
    have hcl := hvalid.1
    have hr : r = cl := by
      rw [hfree, FatAlloc, if_neg (ha w.heap _ hpos)] at h
      exact h.1
    refine ⟨fun h0 => by omega, ?_⟩
    intro c hc
    rw [h.fat (by omega)]
    exact Function.update_of_ne hc _ _

theorem appendCluster_frame (ha : AllocOk H) (hpos : 0 < D.fs.clusterSize) {cur : ℕ} (hcur : D.Valid cur) :
    Wp (appendCluster D.fs cur) w fun r w' => (r = 0 → D.vol w' = D.vol w) ∧
      ∀ c, c ≠ cur → c ≠ r → (D.vol w').fat c = (D.vol w).fat c := by
  unfold appendCluster
  apply wp_bind ((fatAlloc_frame ha hpos).and fatAlloc_spec)
  rintro r w1 ⟨⟨hnone, hframe⟩, hspec⟩
  by_cases hr : r = 0
  · rw [if_pos hr]
    exact wp_pure ⟨fun _ => hnone hr, fun c _ _ => by rw [hnone hr]⟩
  · have ht := hspec.resolve_left fun h => hr h.1
    have hlt := Disk.entries_lt (D := D)
    have hrange := ht.valid.2
    rw [if_neg hr]
    apply wp_bind (Disk.fatSet_spec hcur.2 (by omega))
    rintro _ w2 ⟨-, hv2⟩
    apply wp_bind (Disk.fatSet_spec hrange eoc_lt)
    rintro _ w3 ⟨-, hv3⟩
    refine wp_pure ⟨fun h => absurd h hr, ?_⟩
    intro c hcc hcr
    calc (D.vol w3).fat c = (D.vol w2).fat c := by rw [hv3]; exact Function.update_of_ne hcr _ _
      _ = (D.vol w1).fat c := by rw [hv2]; exact Function.update_of_ne hcc _ _
      _ = (D.vol w).fat c := hframe c hcr

end Frames

section Loops

variable (ha : AllocOk H) (hpos : 0 < D.fs.clusterSize) (hroot : v₀.fat D.fs.rootDirCluster ≠ 0)

include ha hpos hroot

theorem appendCluster_taken {cur : ℕ} (h : Taken D v₀ (D.vol w) f (l ++ [cur])) :
    Wp (appendCluster D.fs cur) w fun r w' =>
      ∃ l', Taken D v₀ (D.vol w') f l' ∧ (r = 0 ∨ r ≠ 0 ∧ l'[l'.length - 1]? = some r) := by
  have hcur := h.chain.valid cur (by simp)
  apply ((appendCluster_frame ha hpos hcur).and (appendCluster_spec h.chain (h.used hroot))).mono
  rintro r w' ⟨⟨hnone, hframe⟩, ⟨hr, -⟩ | ⟨hr, hg⟩⟩
  · refine ⟨l ++ [cur], ?_, .inl hr⟩
    rw [hnone hr]
    exact h
  · exact ⟨_, h.append hg hframe, .inr ⟨hr, last_concat _ _⟩⟩

theorem extendChain_taken {n cur : ℕ} (h : Taken D v₀ (D.vol w) f l) (hcur : l[l.length - 1]? = some cur) :
    Wp (extendChain D.fs n cur) w fun _ w' => ∃ l', Taken D v₀ (D.vol w') f l' := by
  induction n generalizing l cur w with
  | zero => exact wp_pure ⟨l, h⟩
  | succ n ih =>
    obtain ⟨m, rfl⟩ := split_last hcur
    rw [extendChain]
    apply wp_bind (appendCluster_taken ha hpos hroot h)
    rintro r w1 ⟨l', h', hr | ⟨hr, hlast⟩⟩
    · rw [if_pos hr]
      exact wp_pure ⟨l', h'⟩
    · rw [if_neg hr]
      exact ih h' hlast

theorem ensureChainLength_taken {fuel needed : ℕ} (hfuel : D.fs.entries ≤ fuel) (h : Taken D v₀ (D.vol w) f l) :
    Wp (ensureChainLength fuel D.fs f needed) w fun r w' => r.2 = f ∧ ∃ l', Taken D v₀ (D.vol w') f l' := by
  have hlen := h.chain.length_lt
  have hf := (h.chain.valid f h.chain.first_mem).1
  unfold ensureChainLength
  rw [if_neg (by omega)]
  apply wp_bind (wp_pure (Q := fun a w' => a = f ∧ w' = w) ⟨rfl, rfl⟩)
  rintro _ _ ⟨rfl, rfl⟩
  rw [if_neg (by omega)]
  apply wp_bind (chainEnd_spec h.chain h.chain.head (by omega))
  rintro ⟨last, count⟩ _ ⟨rfl, hlast, -⟩
  apply wp_bind (extendChain_taken ha hpos hroot h hlast)
  intro r w' htaken
  exact wp_pure ⟨rfl, htaken⟩

theorem nextOrAppend_taken {cl : ℕ} (h : Taken D v₀ (D.vol w) f l) (hcl : cl ∈ l) :
    Wp (nextOrAppend D.fs cl) w fun r w' => ∃ l', Taken D v₀ (D.vol w') f l' ∧ (r = 0 ∨ r ≠ 0 ∧ r ∈ l') := by
  obtain ⟨i, hi⟩ := List.getElem?_of_mem hcl
  have hnext := h.chain.linked.next_eq hi
  have hlt := (List.getElem?_eq_some_iff.mp hi).1
  unfold nextOrAppend
  apply wp_bind (Disk.fatGet_spec (h.chain.valid cl hcl).2)
  rintro _ _ ⟨rfl, rfl⟩
  cases hn : l[i + 1]? with
  | none =>
    rw [hn, Option.getD_none] at hnext
    have hlast := List.getElem?_eq_none_iff.mp hn
    obtain ⟨m, rfl⟩ := split_last (show l[l.length - 1]? = some cl by rwa [show l.length - 1 = i by omega])
    rw [if_pos (.inl hnext)]
    apply (appendCluster_taken ha hpos hroot h).mono
    rintro r w' ⟨l', h', hr⟩
    exact ⟨l', h', hr.imp_right fun hr => ⟨hr.1, List.mem_of_getElem? hr.2⟩⟩
  | some d =>
    rw [hn, Option.getD_some] at hnext
    have hmem := List.mem_of_getElem? hn
    have hd := h.chain.valid d hmem
    have hd2 := hd.1
    rw [hnext, if_neg (by rintro (h | h); exact hd.ne_eoc h; omega)]
    exact wp_pure ⟨l, h, .inr ⟨by omega, hmem⟩⟩

theorem writeSkip_taken {k cl : ℕ} (h : Taken D v₀ (D.vol w) f l) (hcl : cl ∈ l) :
    Wp (writeSkip D.fs k cl) w fun r w' => ∃ l', Taken D v₀ (D.vol w') f l' ∧ (r = 0 ∨ r ≠ 0 ∧ r ∈ l') := by
  induction k generalizing l cl w with
  | zero =>
    have hge := (h.chain.valid cl hcl).1
    exact wp_pure ⟨l, h, .inr ⟨by omega, hcl⟩⟩
  | succ k ih =>
    rw [writeSkip]
    apply wp_bind (nextOrAppend_taken ha hpos hroot h hcl)
    rintro r w1 ⟨l', h', hr | ⟨hr, hmem⟩⟩
    · rw [if_pos hr]
      exact wp_pure ⟨l', h', .inl rfl⟩
    · rw [if_neg hr]
      exact ih h' hmem

theorem writeLoop_taken {n cl skip : ℕ} {rest : List UInt8} (h : Taken D v₀ (D.vol w) f l) (hcl : cl ∈ l)
    (hskip : skip < D.fs.clusterSize) (hn : rest.length ≤ n) :
    Wp (writeLoop D.fs n cl skip rest) w fun _ w' => ∃ l', Taken D v₀ (D.vol w') f l' := by
  induction n generalizing l cl skip rest w with
  | zero =>
    obtain rfl := List.length_eq_zero_iff.mp (Nat.le_zero.mp hn)
    exact wp_pure ⟨l, h⟩
  | succ n ih =>
    by_cases hnil : rest = []
    · rw [writeLoop, if_pos hnil]
      exact wp_pure ⟨l, h⟩
    by_cases hstop : (KernelAlloc.kmalloc w.heap D.fs.clusterSize).1 = none ∨ ¬ D.On cl
    · apply (writeLoop_stops (h.chain.valid cl hcl) hpos hnil hstop).mono
      rintro _ w' ⟨-, hv⟩
      rw [hv]
      exact ⟨l, h⟩
    obtain ⟨hbuf, hon⟩ := not_or.mp hstop
    obtain ⟨i, hi⟩ := List.getElem?_of_mem hcl
    obtain ⟨w1, -, -, hchunk, hrun⟩ := writeLoop_turn rfl h.chain hi hskip hnil hbuf (not_not.mp hon)
    have h1 : Taken D v₀ (D.vol w1) f l := h.congr hchunk.fat
    unfold Wp
    rw [hrun]
    split
    · exact wp_pure ⟨l, h1⟩
    · apply wp_bind (nextOrAppend_taken ha hpos hroot h1 hcl)
      rintro r w2 ⟨l', h', hr | ⟨hr, hmem⟩⟩
      · rw [if_pos hr]
        exact wp_pure ⟨l', h'⟩
      · have hrest := List.length_pos_iff.mpr hnil
        rw [if_neg hr]
        exact ih h' hmem hpos (by rw [List.length_drop]; omega)

theorem exfatWrite_taken {fuel off : ℕ} {node : Node} {buf : List UInt8} (hfuel : D.fs.entries ≤ fuel)
    (h : Taken D v₀ (D.vol w) node.firstCluster l) :
    Wp (exfatWrite fuel D.fs node off buf) w fun r w' =>
      r.2.firstCluster = node.firstCluster ∧ ∃ l', Taken D v₀ (D.vol w') node.firstCluster l' := by
  have hf := (h.chain.valid _ h.chain.first_mem).1
  unfold exfatWrite
  by_cases hdir : node.isDir = true
  · rw [if_pos hdir]
    exact wp_pure ⟨rfl, l, h⟩
  by_cases hbuf : buf = []
  · rw [if_neg hdir, if_pos hbuf]
    exact wp_pure ⟨rfl, l, h⟩
  rw [if_neg hdir, if_neg hbuf, if_neg (by omega)]
  dsimp only
  generalize (off + buf.length) % 2 ^ 64 = endPos
  generalize (endPos + D.fs.clusterSize + (2 ^ 64 - 1)) % 2 ^ 64 / D.fs.clusterSize = needed
  apply wp_bind (ensureChainLength_taken ha hpos hroot hfuel h)
  rintro ⟨r, first⟩ w1 ⟨rfl, l1, h1⟩
  dsimp only
  by_cases hr : r = 0
  · rw [if_pos hr]
    exact wp_pure ⟨rfl, l1, h1⟩
  rw [if_neg hr]
  apply wp_bind (writeSkip_taken ha hpos hroot h1 h1.chain.first_mem)
  rintro cl w2 ⟨l2, h2, hcl | ⟨hcl, hmem⟩⟩
  · rw [if_pos hcl]
    exact wp_pure ⟨rfl, l2, h2⟩
  rw [if_neg hcl]
  apply wp_bind (writeLoop_taken ha hpos hroot h2 hmem (Nat.mod_lt off hpos) (le_refl _))
  rintro ok w3 ⟨l3, h3⟩
  by_cases hok : ok = false
  · rw [if_pos hok]
    exact wp_pure ⟨rfl, l3, h3⟩
  rw [if_neg hok, if_pos (by omega)]
  apply wp_bind (dirUpdate_spec _ _)
  intro _ w4 hupd
  refine wp_pure ⟨rfl, l3, ?_⟩
  rcases hupd with ⟨hv, -⟩ | ⟨-, hres⟩
  · exact hv ▸ h3
  · exact h3.congr hres.fat

end Loops

section Create

variable {path : CString}

theorem exfatCreate_taken (hroot : (D.vol w).fat D.fs.rootDirCluster ≠ 0) :
    Wp (exfatCreate D.fs path) w fun r w' => r = 0 → fileName path ≠ [] ∧ ∃ cl,
      Created D (D.vol w) (D.vol w') (fileName path) cl ∧ Taken D (D.vol w) (D.vol w') cl [cl] := by
  apply exfatCreate_exact.mono
  rintro r w' (⟨-, hr, -⟩ | ⟨-, hr, -⟩ | ⟨hgo, -, cl, -, hcreated, hfat⟩) h
  · exact absurd (hr.symm.trans h) (by decide)
  · exact absurd (hr.symm.trans h) (by decide)
  · obtain ⟨-, v1, ht, hv⟩ := id hcreated
    have hsame : (D.vol w').fat = v1.fat := by
      rw [hv]
      rfl
    refine ⟨fun hname => hgo (.inl hname), cl, hcreated, (Taken.first ht hroot ?_).congr hsame⟩
    intro c hc
    rw [← hsame, hfat]
    exact Function.update_of_ne hc _ _

end Create

end DexOs.Exfat
