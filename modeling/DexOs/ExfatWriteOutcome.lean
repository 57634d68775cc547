import DexOs.ExfatSpace

/-! How far `exfat_write` gets: what the free clusters and the buffers of the kernel heap allow, and what is
changed when they run out. -/

namespace DexOs.Exfat

open DexOs.Lib

variable {σ H : Type} [KernelAlloc H] {D : Disk σ} {w : World σ H} {f : ℕ} {l : List ℕ}

section Extend

/-- A step that appends a cluster where it finds no next one: it has changed nothing and failed only for want
of a free cluster, or it has taken a free cluster. -/
def Advances (D : Disk σ) (v v' : Vol) (r : ℕ) : Prop := v' = v ∧ (r = 0 → D.free v = []) ∨ Marked D v v'

theorem appendCluster_exact {cur : ℕ} (hcur : D.Valid cur) (hused : (D.vol w).fat cur ≠ 0) :
    Wp (appendCluster D.fs cur) w fun r w' =>
      (D.free (D.vol w) = [] → r = 0 ∧ D.vol w' = D.vol w) ∧
      ∀ cl rest, D.free (D.vol w) = cl :: rest → Marked D (D.vol w) (D.vol w') ∧
        if (KernelAlloc.kmalloc w.heap D.fs.clusterSize).1 = none then r = 0
        else r = cl ∧ D.free (D.vol w') = rest ∧ w'.heap = turn D.fs.clusterSize w.heap := by
  unfold appendCluster
  apply wp_bind fatAlloc_exact
  intro r w1 halloc
  cases hfree : D.free (D.vol w) with
  | nil =>
    rw [hfree] at halloc
    obtain ⟨rfl, rfl⟩ := halloc
    rw [if_pos rfl]
    exact wp_pure ⟨fun _ => ⟨rfl, rfl⟩, fun cl rest h => absurd h.symm (List.cons_ne_nil _ _)⟩
  | cons cl rest =>
    have hmark := halloc.marked (by rw [hfree]; simp)
    obtain ⟨hvalid, hz⟩ := Disk.mem_free.mp (hfree ▸ List.mem_cons_self : cl ∈ D.free (D.vol w))
    have hcl := hvalid.1
    rw [hfree, FatAlloc] at halloc
    split_ifs at halloc with hbuf
    · obtain ⟨rfl, -⟩ := halloc
      rw [if_pos rfl]
      refine wp_pure ⟨fun h => absurd h (List.cons_ne_nil _ _), fun cl' rest' h => ⟨hmark, ?_⟩⟩
      rw [if_pos hbuf]
    · obtain ⟨rfl, hv1, hh1⟩ := halloc
      have hlt := Disk.entries_lt (D := D)
      have hrange := hvalid.2
      rw [if_neg (by omega)]
      apply wp_bind ((fatSet_keepsHeap _ _ _).wp (Disk.fatSet_spec hcur.2 (by omega)))
      rintro _ w2 ⟨⟨-, hv2⟩, hh2⟩
      apply wp_bind ((fatSet_keepsHeap _ _ _).wp (Disk.fatSet_spec hvalid.2 eoc_lt))
      rintro _ w3 ⟨⟨-, hv3⟩, hh3⟩
      have hne : cur ≠ r := fun e => hused (e ▸ hz)
      have hfat : (D.vol w3).fat = Function.update (Function.update (Function.update (D.vol w).fat r eoc) cur r) r eoc := by
        rw [hv3, hv2, hv1, Vol.setFat, Vol.setFat, Disk.take_fat]
      have hzero : ∀ c, (D.vol w3).fat c = 0 ↔ (D.vol w).fat c = 0 ∧ c ≠ r := by
        intro c
        rw [hfat]
        by_cases hcr : c = r
        · rw [hcr, Function.update_self]
          exact iff_of_false (by decide) fun h => h.2 rfl
        · rw [Function.update_of_ne hcr]
          by_cases hcc : c = cur
          · rw [hcc, Function.update_self]
            exact iff_of_false (by omega) fun h => hused h.1
          · rw [Function.update_of_ne hcc, Function.update_of_ne hcr]
            exact (and_iff_left hcr).symm
      refine wp_pure ⟨fun h => absurd h (List.cons_ne_nil _ _), fun cl' rest' h => ?_⟩
      obtain ⟨rfl, rfl⟩ := List.cons.inj h
      refine ⟨⟨r, hvalid, hz, fun h0 => ((hzero r).mp h0).2 rfl⟩, ?_⟩
      rw [if_neg hbuf]
      exact ⟨rfl, Disk.free_tail hfree fun c _ => hzero c, by rw [hh3, hh2, hh1]⟩

theorem appendCluster_advances {cur : ℕ} (hcur : D.Valid cur) (hused : (D.vol w).fat cur ≠ 0) :
    Wp (appendCluster D.fs cur) w fun r w' => Advances D (D.vol w) (D.vol w') r := by
  apply (appendCluster_exact hcur hused).mono
  rintro r w' ⟨hnil, hcons⟩
  cases hfree : D.free (D.vol w) with
  | nil =>
    obtain ⟨-, hv⟩ := hnil hfree
    exact .inl ⟨hv, fun _ => hfree⟩
  | cons cl rest => exact .inr (hcons cl rest hfree).1

theorem extendChain_exact {n cur : ℕ} (hc : IsChain D (D.vol w).fat f l) (hcur : l[l.length - 1]? = some cur)
    (hroot : (D.vol w).fat D.fs.rootDirCluster ≠ 0) :
    Wp (extendChain D.fs n cur) w fun r w' =>
      (if n ≤ (D.free (D.vol w)).length ∧ granted D.fs.clusterSize n w.heap = n then
        r ≠ 0 ∧ Grown D (D.vol w) (D.vol w') f l (l ++ (D.free (D.vol w)).take n) ∧
          w'.heap = (turn D.fs.clusterSize)^[n] w.heap
        else r = 0) ∧
      (n = 0 → D.vol w' = D.vol w) ∧ (0 < n → D.free (D.vol w) = [] ∧ D.vol w' = D.vol w ∨ Marked D (D.vol w) (D.vol w')) := by
  induction n generalizing l cur w with
  | zero =>
    have hpos := (hc.valid cur (List.mem_of_getElem? hcur)).1
    refine wp_pure ⟨?_, fun _ => rfl, fun h => absurd h (lt_irrefl 0)⟩
    rw [if_pos ⟨Nat.zero_le _, rfl⟩, List.take_zero, List.append_nil]
    exact ⟨by omega, Grown.refl hc, rfl⟩
  | succ n ih =>
    obtain ⟨m, rfl⟩ := split_last hcur
    have hmem : cur ∈ m ++ [cur] := by simp
    rw [extendChain]
    apply wp_bind ((appendCluster_spec hc hroot).and (appendCluster_exact (hc.valid cur hmem) (hc.fat_ne_zero hmem)))
    rintro r w1 ⟨hspec, hnil, hcons⟩
    cases hfree : D.free (D.vol w) with
    | nil =>
      obtain ⟨rfl, hv⟩ := hnil hfree
      rw [if_pos rfl]
      refine wp_pure ⟨?_, fun h => absurd h (Nat.succ_ne_zero n), fun _ => .inl ⟨rfl, hv⟩⟩
      rw [if_neg (by simp)]
    | cons cl rest =>
      obtain ⟨hmark, houtcome⟩ := hcons cl rest hfree
      by_cases hbuf : (KernelAlloc.kmalloc w.heap D.fs.clusterSize).1 = none
      · rw [if_pos hbuf] at houtcome
        rw [if_pos houtcome]
        refine wp_pure ⟨?_, fun h => absurd h (Nat.succ_ne_zero n), fun _ => .inr hmark⟩
        rw [if_neg]
        rintro ⟨-, hg⟩
        rw [granted, if_pos hbuf] at hg
        omega
      · rw [if_neg hbuf] at houtcome
        obtain ⟨rfl, hrest, hheap⟩ := houtcome
        rcases hspec with ⟨rfl, -⟩ | ⟨hr, hg⟩
        · have hzero := (Disk.mem_free.mp (hfree ▸ List.mem_cons_self : 0 ∈ D.free (D.vol w))).1.1
          omega
        · rw [if_neg hr]
          have hroot1 := hg.fat_ne_zero hroot
          apply ((ih hg.chain (last_concat _ _) hroot1).and (extendChain_spec hg.chain (last_concat _ _) hroot1)).mono
          rintro r' w2 ⟨⟨hgo, -, -⟩, l2, hg2, -, -⟩
          refine ⟨?_, fun h => absurd h (Nat.succ_ne_zero n), fun _ => .inr (hmark.mono fun c hc => hg2.fat_ne_zero hc)⟩
          rw [hrest, hheap] at hgo
          have hiff : (n + 1 ≤ (r :: rest).length ∧ granted D.fs.clusterSize (n + 1) w.heap = n + 1) ↔
              (n ≤ rest.length ∧ granted D.fs.clusterSize n (turn D.fs.clusterSize w.heap) = n) := by
            rw [granted, if_neg hbuf, List.length_cons, Nat.add_le_add_iff_right, Nat.add_right_cancel_iff]
          by_cases hyes : n ≤ rest.length ∧ granted D.fs.clusterSize n (turn D.fs.clusterSize w.heap) = n
          · rw [if_pos hyes] at hgo
            rw [if_pos (hiff.mpr hyes), List.take_succ_cons, Function.iterate_succ_apply]
            refine ⟨hgo.1, ?_, hgo.2.2⟩
            have hgrown := hg.trans hgo.2.1
            rwa [List.append_assoc] at hgrown
          · rw [if_neg hyes] at hgo
            rw [if_neg fun h => hyes (hiff.mp h)]
            exact hgo

theorem ensureChainLength_exact {fuel needed : ℕ} (hc : IsChain D (D.vol w).fat f l)
    (hroot : (D.vol w).fat D.fs.rootDirCluster ≠ 0) (hfuel : D.fs.entries ≤ fuel) :
    Wp (ensureChainLength fuel D.fs f needed) w fun r w' => r.2 = f ∧
      (if needed - l.length ≤ (D.free (D.vol w)).length ∧
          granted D.fs.clusterSize (needed - l.length) w.heap = needed - l.length then
        r.1 ≠ 0 ∧ Grown D (D.vol w) (D.vol w') f l (l ++ (D.free (D.vol w)).take (needed - l.length)) ∧
          w'.heap = (turn D.fs.clusterSize)^[needed - l.length] w.heap
        else r.1 = 0) ∧
      (needed ≤ l.length → D.vol w' = D.vol w) ∧ (l.length < needed →
        D.free (D.vol w) = [] ∧ D.vol w' = D.vol w ∨ Marked D (D.vol w) (D.vol w')) := by
  have hlen := hc.length_lt
  have hf := (hc.valid f hc.first_mem).1
  unfold ensureChainLength
  rw [if_neg (by omega)]
  apply wp_bind (wp_pure (Q := fun a w' => a = f ∧ w' = w) ⟨rfl, rfl⟩)
  rintro _ _ ⟨rfl, rfl⟩
  rw [if_neg (by omega)]
  apply wp_bind (chainEnd_spec hc hc.head (by omega))
  rintro ⟨last, count⟩ _ ⟨rfl, hlast, hcount⟩
  dsimp only at hlast hcount ⊢
  obtain rfl : count = l.length := by omega
  apply wp_bind (extendChain_exact hc hlast hroot)
  rintro r w' ⟨hgo, hstay, hmark⟩
  exact wp_pure ⟨rfl, hgo, fun h => hstay (by omega), fun h => hmark (by omega)⟩

theorem nextOrAppend_advances {i cl : ℕ} (hc : IsChain D (D.vol w).fat f l) (hi : l[i]? = some cl) :
    Wp (nextOrAppend D.fs cl) w fun r w' => Advances D (D.vol w) (D.vol w') r := by
  have hmem := List.mem_of_getElem? hi
  unfold nextOrAppend
  apply wp_bind (Disk.fatGet_spec (hc.valid cl hmem).2)
  rintro _ w ⟨rfl, rfl⟩
  split_ifs with hend
  · exact appendCluster_advances (hc.valid cl hmem) (hc.fat_ne_zero hmem)
  · exact wp_pure (.inl ⟨rfl, fun h0 => absurd (.inr h0) hend⟩)

theorem writeSkip_advances {k i cl : ℕ} (hc : IsChain D (D.vol w).fat f l) (hi : l[i]? = some cl)
    (hroot : (D.vol w).fat D.fs.rootDirCluster ≠ 0) :
    Wp (writeSkip D.fs k cl) w fun r w' => Advances D (D.vol w) (D.vol w') r := by
  induction k generalizing i cl l w with
  | zero =>
    have hpos := (hc.valid cl (List.mem_of_getElem? hi)).1
    exact wp_pure (.inl ⟨rfl, fun h0 => by omega⟩)
  | succ k ih =>
    rw [writeSkip]
    apply wp_bind ((nextOrAppend_spec hc hi hroot).and (nextOrAppend_advances hc hi))
    rintro r w1 ⟨⟨l1, hg, hr, -⟩, hadv⟩
    rcases hr with rfl | ⟨hr, hr1⟩
    · rw [if_pos rfl]
      exact wp_pure hadv
    · rw [if_neg hr]
      have hroot1 := hg.fat_ne_zero hroot
      apply ((ih hg.chain hr1 hroot1).and (writeSkip_spec hg.chain hr1 hroot1)).mono
      rintro r' w2 ⟨hadv2, l2, hg2, -, -⟩
      rcases hadv with ⟨hv, -⟩ | hmark
      · rwa [hv] at hadv2
      · exact .inr (hmark.mono fun c hc => hg2.fat_ne_zero hc)

end Extend

section Copy

def turnsOf (csz skip len : ℕ) : ℕ := (skip + len + csz - 1) / csz

theorem turnsOf_single {csz skip len : ℕ} (hlen : 0 < len) (h : len ≤ csz - skip) : turnsOf csz skip len = 1 := by
  have hpos : 0 < csz := by omega
  rw [turnsOf, show skip + len + csz - 1 = skip + len - 1 + csz by omega, Nat.add_div_right _ hpos,
    Nat.div_eq_of_lt (by omega)]

theorem turnsOf_more {csz skip len : ℕ} (hskip : skip < csz) (h : csz - skip < len) :
    turnsOf csz skip len = turnsOf csz 0 (len - (csz - skip)) + 1 := by
  have hpos : 0 < csz := by omega
  rw [turnsOf, turnsOf, show skip + len + csz - 1 = 0 + (len - (csz - skip)) + csz - 1 + csz by omega,
    Nat.add_div_right _ hpos]

theorem turnsOf_pos {csz len : ℕ} (skip : ℕ) (hpos : 0 < csz) (hlen : 0 < len) : 0 < turnsOf csz skip len :=
  Nat.div_pos (by omega) hpos

variable {n i cl skip : ℕ} {rest : List UInt8}

theorem writeLoop_stops (hvalid : D.Valid cl) (hcsz : 0 < D.fs.clusterSize) (hne : rest ≠ [])
    (hstop : (KernelAlloc.kmalloc w.heap D.fs.clusterSize).1 = none ∨ ¬ D.On cl) :
    Wp (writeLoop D.fs (n + 1) cl skip rest) w fun ok w' => ok = false ∧ D.vol w' = D.vol w := by
  have hs := clusterSize_pos D hcsz
  rw [writeLoop, if_neg hne]
  apply wp_bind (kmalloc_run _)
  rintro r w1 ⟨hr, rfl⟩
  cases r with
  | none => exact wp_pure ⟨rfl, rfl⟩
  | some p =>
    have hoff : ¬ D.On cl := hstop.resolve_left (by rw [← hr]; simp)
    apply wp_bind (Disk.readCluster_spec hvalid hs)
    rintro _ _ ⟨rfl, rfl⟩
    rw [if_neg hoff]
    apply wp_bind (kfree_run p)
    rintro _ w2 rfl
    exact wp_pure ⟨rfl, rfl⟩

theorem writeLoop_turn {take : ℕ} (htake : min rest.length (D.fs.clusterSize - skip) = take)
    (hc : IsChain D (D.vol w).fat f l) (hi : l[i]? = some cl) (hskip : skip < D.fs.clusterSize) (hne : rest ≠ [])
    (hbuf : (KernelAlloc.kmalloc w.heap D.fs.clusterSize).1 ≠ none) (hon : D.On cl) :
    ∃ w1 : World σ H, w1.heap = turn D.fs.clusterSize w.heap ∧ Touched D (D.vol w) (D.vol w1) f l l ∧
      Stored (D.vol w) (D.vol w1) l (D.fs.clusterSize * i + skip) (rest.take take) ∧
      writeLoop D.fs (n + 1) cl skip rest w = (if rest.length ≤ take then pure true else do
        let nxt ← nextOrAppend D.fs cl
        if nxt = 0 then pure false else writeLoop D.fs n nxt 0 (rest.drop take) : Io σ H Bool) w1 := by
  have hmem := List.mem_of_getElem? hi
  have hvalid := hc.valid cl hmem
  have hs := clusterSize_pos D (by omega)
  have hdata := Disk.data_length w hvalid
  have hlen : (rest.take take).length = take := by
    rw [List.length_take]
    omega
  obtain ⟨p, hp⟩ := Option.ne_none_iff_exists'.mp hbuf
  obtain ⟨_, w1, hrun1, rfl, rfl⟩ := (kmalloc_run D.fs.clusterSize : Wp (kmalloc D.fs.clusterSize) w _)
  have hread : Wp (readCluster D.fs cl) (⟨w.dev, (KernelAlloc.kmalloc w.heap D.fs.clusterSize).2⟩ : World σ H) _ :=
    Disk.readCluster_spec hvalid hs
  obtain ⟨_, w2, hrun2, rfl, rfl⟩ := hread
  have hwrite : Wp (writeCluster D.fs cl (overlay ((D.vol w).data cl) skip (rest.take take)))
      (⟨w.dev, (KernelAlloc.kmalloc w.heap D.fs.clusterSize).2⟩ : World σ H) _ :=
    (writeCluster_keepsHeap _ _ _).wp (Disk.writeCluster_spec hvalid hs (by rw [length_overlay]; exact hdata))
  obtain ⟨rc, w3, hrun3, hw3, hheap3⟩ := hwrite
  rw [if_pos hon] at hw3 hrun2
  -- the volume does not depend on the heap
  have hrun2' : readCluster D.fs cl (⟨w.dev, (KernelAlloc.kmalloc w.heap D.fs.clusterSize).2⟩ : World σ H) =
    .ok (some ((D.vol w).data cl), _) := hrun2
  obtain ⟨rfl, hv3⟩ := hw3
  obtain ⟨_, w4, hrun4, rfl⟩ := (kfree_run p : Wp (kfree p) w3 _)
  have hv4 : D.vol (⟨w3.dev, KernelAlloc.kfree w3.heap p⟩ : World σ H) =
      (D.vol w).setData cl (overlay ((D.vol w).data cl) skip (rest.take take)) := hv3
  refine ⟨_, ?_, hv4 ▸ touched_setData hc hmem _, ?_, ?_⟩
  · rw [hheap3, turn, hp]
  · rw [hv4]
    exact stored_setData (hc.filled w) hc.linked.nodup hi (by omega)
  · rw [hp] at hrun1
    rw [writeLoop, if_neg hne, bind_run hrun1, htake]
    dsimp only
    rw [bind_run hrun2']
    dsimp only
    rw [bind_run hrun3, bind_run hrun4, if_neg (by simp)]

theorem writeLoop_exact (hc : IsChain D (D.vol w).fat f l)
    (hi : l[i]? = some cl) (hskip : skip < D.fs.clusterSize) (hne : rest ≠ []) (hn : rest.length ≤ n)
    (hroot : (D.vol w).fat D.fs.rootDirCluster ≠ 0)
    (hfit : D.fs.clusterSize * i + skip + rest.length ≤ D.fs.clusterSize * l.length) :
    Wp (writeLoop D.fs n cl skip rest) w fun ok w' =>
      (ok = true ↔ granted D.fs.clusterSize (turnsOf D.fs.clusterSize skip rest.length) w.heap =
          turnsOf D.fs.clusterSize skip rest.length ∧
        ∀ c ∈ (l.drop i).take (turnsOf D.fs.clusterSize skip rest.length), D.On c) ∧
      ((∀ c ∈ (l.drop i).take (turnsOf D.fs.clusterSize skip rest.length), D.On c) →
        Stored (D.vol w) (D.vol w') l (D.fs.clusterSize * i + skip)
          (rest.take (granted D.fs.clusterSize (turnsOf D.fs.clusterSize skip rest.length) w.heap *
            D.fs.clusterSize - skip))) ∧
      (ok = true → w'.heap = (turn D.fs.clusterSize)^[turnsOf D.fs.clusterSize skip rest.length] w.heap) := by
  induction n generalizing i cl skip rest w with
  | zero => exact absurd (List.length_eq_zero_iff.mp (Nat.le_zero.mp hn)) hne
  | succ n ih =>
    have hlenpos := List.length_pos_iff.mpr hne
    have hcsz : 0 < D.fs.clusterSize := by omega
    obtain ⟨hilt, hget⟩ := List.getElem?_eq_some_iff.mp hi
    have hdrop : l.drop i = cl :: l.drop (i + 1) := by rw [List.drop_eq_getElem_cons hilt, hget]
    obtain ⟨t, ht⟩ := Nat.exists_eq_succ_of_ne_zero (turnsOf_pos skip hcsz hlenpos).ne'
    rw [Nat.succ_eq_add_one] at ht
    have hon_iff : (∀ c ∈ (l.drop i).take (t + 1), D.On c) ↔ D.On cl ∧ ∀ c ∈ (l.drop (i + 1)).take t, D.On c := by
      rw [hdrop, List.take_succ_cons, List.forall_mem_cons]
    rw [ht, hon_iff]
    by_cases hstop : (KernelAlloc.kmalloc w.heap D.fs.clusterSize).1 = none ∨ ¬ D.On cl
    · apply (writeLoop_stops (hc.valid cl (List.mem_of_getElem? hi)) hcsz hne hstop).mono
      rintro ok w' ⟨rfl, hv⟩
      refine ⟨iff_of_false (by decide) ?_, ?_, fun h => absurd h (by decide)⟩
      · rintro ⟨hg, hon, -⟩
        rw [granted, if_pos (hstop.resolve_right (not_not.mpr hon))] at hg
        omega
      · rintro ⟨hon, -⟩
        rw [granted, if_pos (hstop.resolve_right (not_not.mpr hon)), Nat.zero_mul, Nat.zero_sub, List.take_zero, hv]
        exact .nil _ _ _
    obtain ⟨hbuf, hon⟩ := not_or.mp hstop
    rw [not_not] at hon
    have hgrant : granted D.fs.clusterSize (t + 1) w.heap =
        granted D.fs.clusterSize t (turn D.fs.clusterSize w.heap) + 1 := by
      rw [granted, if_neg hbuf]
    generalize htake : min rest.length (D.fs.clusterSize - skip) = take
    obtain ⟨w1, hheap, htouch, hchunk, hrun⟩ := writeLoop_turn htake hc hi hskip hne hbuf hon
    unfold Wp
    rw [hrun]
    by_cases hdone : rest.length ≤ take
    · have hone := turnsOf_single hlenpos (show rest.length ≤ D.fs.clusterSize - skip by omega)
      obtain rfl : t = 0 := by omega
      rw [List.take_of_length_le hdone] at hchunk
      rw [if_pos hdone]
      refine wp_pure ⟨iff_of_true rfl ⟨hgrant, hon, by simp⟩, fun _ => ?_, fun _ => hheap⟩
      rw [hgrant, granted, List.take_of_length_le (by omega)]
      exact hchunk
    · have hmore := turnsOf_more hskip (show D.fs.clusterSize - skip < rest.length by omega)
      have hlen : (rest.take take).length = take := by
        rw [List.length_take]
        omega
      have htdrop : t = turnsOf D.fs.clusterSize 0 (rest.drop take).length := by
        rw [List.length_drop, show take = D.fs.clusterSize - skip by omega]
        omega
      have hpos : D.fs.clusterSize * (i + 1) + 0 = D.fs.clusterSize * i + skip + (rest.take take).length := by
        rw [Nat.mul_succ]
        omega
      rw [if_neg hdone]
      apply wp_bind (nextOrAppend_spec htouch.chain hi (htouch.fat_ne_zero hroot))
      rintro r w2 ⟨l2, -, hr2, hlong⟩
      obtain ⟨hr0, rfl, rfl⟩ := hlong (next_block_lt (by omega) hfit)
      rw [if_neg hr0]
      apply (ih htouch.chain (hr2.resolve_left hr0).2 hcsz
        (List.ne_nil_of_length_pos (by rw [List.length_drop]; omega)) (by rw [List.length_drop]; omega)
        (htouch.fat_ne_zero hroot) (by rw [hpos, List.length_drop]; omega)).mono
      rintro ok w3 ⟨hok, hstored, hheap3⟩
      rw [← htdrop, hheap] at hok hstored hheap3
      refine ⟨?_, ?_, ?_⟩
      · rw [hok, hgrant, Nat.add_right_cancel_iff, and_iff_right hon]
      · rintro ⟨-, hall⟩
        have hrest := hstored hall
        rw [hpos, Nat.sub_zero] at hrest
        have happend := hchunk.append hrest
        have hcut : (granted D.fs.clusterSize t (turn D.fs.clusterSize w.heap) + 1) * D.fs.clusterSize - skip =
            take + granted D.fs.clusterSize t (turn D.fs.clusterSize w.heap) * D.fs.clusterSize := by
          rw [Nat.succ_mul]
          omega
        rw [hgrant, hcut, List.take_add]
        exact happend
      · intro htrue
        rw [hheap3 htrue, Function.iterate_succ_apply]

end Copy

section Write

def lacking (csz : ℕ) (l : List ℕ) (endPos : ℕ) : ℕ := (endPos + csz - 1) / csz - l.length

/-- There are enough free clusters and buffers for `len` bytes from `off` on, and the clusters that they go to
are on the device. -/
def GoesThrough (D : Disk σ) (w : World σ H) (l : List ℕ) (off len : ℕ) : Prop :=
  let need := lacking D.fs.clusterSize l (off + len)
  let turns := turnsOf D.fs.clusterSize (off % D.fs.clusterSize) len
  need ≤ (D.free (D.vol w)).length ∧ granted D.fs.clusterSize (need + turns) w.heap = need + turns ∧
    ∀ c ∈ ((l ++ (D.free (D.vol w)).take need).drop (off / D.fs.clusterSize)).take turns, D.On c

theorem ceil_split (off len : ℕ) {csz : ℕ} (hcsz : 0 < csz) :
    (off + len + csz - 1) / csz = off / csz + turnsOf csz (off % csz) len := by
  have hmod := Nat.div_add_mod off csz
  rw [turnsOf, show off + len + csz - 1 = csz * (off / csz) + (off % csz + len + csz - 1) by omega,
    Nat.mul_add_div hcsz]

omit [KernelAlloc H] in
theorem Disk.length_free_lt (D : Disk σ) (v : Vol) : (D.free v).length < 2 ^ 30 := by
  have hlt := Disk.entries_lt (D := D)
  have hle : (D.free v).length ≤ (List.range' 2 (D.fs.entries - 2)).length := List.length_filter_le _ _
  rw [List.length_range'] at hle
  omega

omit [KernelAlloc H] in
theorem far_offset {off len : ℕ} (hoff : 2 ^ 64 ≤ off + len + D.fs.clusterSize - 1) (hlen : len < 2 ^ 63)
    (hcsz : 0 < D.fs.clusterSize) : 2 ^ 40 ≤ off / D.fs.clusterSize := by
  have hlt := D.clusterSize_lt
  rw [Nat.le_div_iff_mul_le hcsz]
  calc 2 ^ 40 * D.fs.clusterSize ≤ 2 ^ 40 * 2 ^ 17 := Nat.mul_le_mul_left _ hlt.le
    _ ≤ off := by omega

theorem not_goesThrough_of_far {off len : ℕ} (hc : IsChain D (D.vol w).fat f l)
    (hfar : 2 ^ 40 ≤ off / D.fs.clusterSize) (hcsz : 0 < D.fs.clusterSize) : ¬ GoesThrough D w l off len := by
  rintro ⟨hfew, -⟩
  have hlt := D.length_free_lt (D.vol w)
  have hlen := hc.length_lt
  have hent := Disk.entries_lt (D := D)
  rw [lacking, ceil_split off len hcsz] at hfew
  omega

theorem Touched.marked {v v1 v2 : Vol} {l' : List ℕ} (h : Marked D v v1) (ht : Touched D v1 v2 f l l') : Marked D v v2 :=
  h.mono fun _ hc => ht.fat_ne_zero hc

def Updates (D : Disk σ) (h : H) (f size : ℕ) (v v' : Vol) : Prop :=
  (v' = v ∧ ((KernelAlloc.kmalloc h D.fs.clusterSize).1 ≠ none → f ≠ 0 → f ∉ D.firsts v)) ∨
    (KernelAlloc.kmalloc h D.fs.clusterSize).1 ≠ none ∧ Resized D v v' f size

theorem Updates.fat {h : H} {size : ℕ} {v v' : Vol} (hu : Updates D h f size v v') : v'.fat = v.fat := by
  rcases hu with ⟨rfl, -⟩ | ⟨-, hres⟩
  · rfl
  · exact hres.fat

variable {fuel off : ℕ} {node : Node} {buf : List UInt8}

/-- There is a buffer for every turn of the copy loop, and the clusters that it meets are on the device. -/
def Copies (D : Disk σ) (h : H) (l : List ℕ) (off len : ℕ) : Prop :=
  let turns := turnsOf D.fs.clusterSize (off % D.fs.clusterSize) len
  granted D.fs.clusterSize turns h = turns ∧ ∀ c ∈ (l.drop (off / D.fs.clusterSize)).take turns, D.On c

theorem goesThrough_iff {off len : ℕ} : GoesThrough D w l off len ↔
    (lacking D.fs.clusterSize l (off + len) ≤ (D.free (D.vol w)).length ∧
      granted D.fs.clusterSize (lacking D.fs.clusterSize l (off + len)) w.heap = lacking D.fs.clusterSize l (off + len)) ∧
    Copies D ((turn D.fs.clusterSize)^[lacking D.fs.clusterSize l (off + len)] w.heap)
      (l ++ (D.free (D.vol w)).take (lacking D.fs.clusterSize l (off + len))) off len := by
  unfold GoesThrough Copies
  dsimp only
  rw [granted_add, and_assoc, and_assoc]

def writeFrom (fs : Fs σ) (node : Node) (off : ℕ) (buf : List UInt8) : Io σ H (ℤ × Node) := do
  let cl ← writeSkip fs (off / fs.clusterSize) node.firstCluster
  if cl = 0 then pure (-1, node)
  else do
    let ok ← writeLoop fs buf.length cl (off % fs.clusterSize) buf
    if ok = false then pure (-1, node)
    else do
      let _ ← dirUpdateStreamByFirstCluster fs node.firstCluster node.firstCluster (max node.size (off + buf.length))
      pure (toInt buf.length, { node with size := max node.size (off + buf.length) })

theorem writeFrom_exact (hc : IsChain D (D.vol w).fat node.firstCluster l)
    (hroot : (D.vol w).fat D.fs.rootDirCluster ≠ 0) (hcsz : 0 < D.fs.clusterSize) (hbuf : buf ≠ [])
    (hroom : (off + buf.length + D.fs.clusterSize - 1) / D.fs.clusterSize ≤ l.length) :
    Wp (writeFrom D.fs node off buf) w fun r w' => ∃ v1, (∃ l', Touched D (D.vol w) v1 node.firstCluster l l') ∧
      ((∀ c ∈ l, D.On c) → Stored (D.vol w) v1 l off (buf.take (granted D.fs.clusterSize
        (turnsOf D.fs.clusterSize (off % D.fs.clusterSize) buf.length) w.heap * D.fs.clusterSize -
          off % D.fs.clusterSize))) ∧
      (¬ Copies D w.heap l off buf.length → r = (-1, node) ∧ D.vol w' = v1) ∧
      (Copies D w.heap l off buf.length →
        r = (toInt buf.length, { node with size := max node.size (off + buf.length) }) ∧
        Updates D ((turn D.fs.clusterSize)^[turnsOf D.fs.clusterSize (off % D.fs.clusterSize) buf.length] w.heap)
          node.firstCluster (max node.size (off + buf.length)) v1 (D.vol w')) := by
  have hturns := turnsOf_pos (off % D.fs.clusterSize) hcsz (List.length_pos_iff.mpr hbuf)
  have hsplit := ceil_split off buf.length hcsz
  have hfit : D.fs.clusterSize * (off / D.fs.clusterSize) + off % D.fs.clusterSize + buf.length ≤
      D.fs.clusterSize * l.length := by
    rw [Nat.div_add_mod]
    apply (le_mul_ceil hcsz).trans
    exact Nat.mul_le_mul_left _ hroom
  unfold writeFrom
  apply wp_bind (writeSkip_spec hc hc.head hroot)
  rintro cl w1 ⟨l1, -, hcl, hlong⟩
  obtain ⟨hcl0, rfl, rfl⟩ := hlong (by omega)
  rw [if_neg hcl0]
  have hcl1 := (hcl.resolve_left hcl0).2
  rw [Nat.zero_add] at hcl1
  apply wp_bind ((writeLoop_exact hc hcl1 (Nat.mod_lt _ hcsz) hbuf (le_refl _) hroot hfit).and
    (writeLoop_spec hc hcl1 (Nat.mod_lt _ hcsz) (le_refl _) hroot))
  rintro ok w2 ⟨⟨hok, hstored, hheap⟩, l2, htouch, -⟩
  rw [Nat.div_add_mod] at hstored
  have hcopies : ok = true ↔ Copies D w1.heap l1 off buf.length := hok
  have hst : (∀ c ∈ l1, D.On c) → Stored (D.vol w1) (D.vol w2) l1 off (buf.take (granted D.fs.clusterSize
      (turnsOf D.fs.clusterSize (off % D.fs.clusterSize) buf.length) w1.heap * D.fs.clusterSize -
        off % D.fs.clusterSize)) := by
    intro hon
    apply hstored
    intro c hc
    exact hon c (List.mem_of_mem_drop (List.mem_of_mem_take hc))
  rw [← hcopies]
  cases ok with
  | false =>
    rw [if_pos rfl]
    exact wp_pure ⟨_, ⟨l2, htouch⟩, hst, fun _ => ⟨rfl, rfl⟩, fun h => absurd h (by decide)⟩
  | true =>
    rw [if_neg (by decide)]
    apply wp_bind (dirUpdate_spec _ _)
    intro _ w3 hupd
    rw [hheap rfl] at hupd
    exact wp_pure ⟨_, ⟨l2, htouch⟩, hst, fun h => absurd rfl h, fun _ => ⟨rfl, hupd⟩⟩

theorem exfatWrite_near (hc : IsChain D (D.vol w).fat node.firstCluster l)
    (hroot : (D.vol w).fat D.fs.rootDirCluster ≠ 0) (hfuel : D.fs.entries ≤ fuel) (hfile : node.isDir = false)
    (hcsz : 0 < D.fs.clusterSize) (hbuf : buf ≠ []) (hnear : off + buf.length + D.fs.clusterSize - 1 < 2 ^ 64) :
    Wp (exfatWrite fuel D.fs node off buf) w fun r w' =>
      (GoesThrough D w l off buf.length →
        r = (toInt buf.length, { node with size := max node.size (off + buf.length) })) ∧
      (¬ GoesThrough D w l off buf.length → r = (-1, node)) ∧
      (0 < lacking D.fs.clusterSize l (off + buf.length) →
        D.free (D.vol w) = [] ∧ D.vol w' = D.vol w ∨ Marked D (D.vol w) (D.vol w')) ∧
      (lacking D.fs.clusterSize l (off + buf.length) = 0 → (∀ c ∈ l, D.On c) → ∃ v1,
        Stored (D.vol w) v1 l off (buf.take (granted D.fs.clusterSize
          (turnsOf D.fs.clusterSize (off % D.fs.clusterSize) buf.length) w.heap * D.fs.clusterSize -
            off % D.fs.clusterSize)) ∧
        (¬ GoesThrough D w l off buf.length → D.vol w' = v1) ∧
        (GoesThrough D w l off buf.length → Updates D
          ((turn D.fs.clusterSize)^[turnsOf D.fs.clusterSize (off % D.fs.clusterSize) buf.length] w.heap)
          node.firstCluster (max node.size (off + buf.length)) v1 (D.vol w'))) := by
  have hend : (off + buf.length) % 2 ^ 64 = off + buf.length := Nat.mod_eq_of_lt (by omega)
  have hneeded : (off + buf.length + D.fs.clusterSize + (2 ^ 64 - 1)) % 2 ^ 64 = off + buf.length + D.fs.clusterSize - 1 := by
    omega
  unfold exfatWrite
  rw [if_neg (by rw [hfile]; decide), if_neg hbuf, if_neg hcsz.ne']
  dsimp only
  rw [hend, hneeded]
  apply wp_bind (ensureChainLength_exact hc hroot hfuel)
  rintro ⟨r1, first⟩ w1 ⟨rfl, hgo, hstay, hmark⟩
  dsimp only at hgo ⊢
  rw [goesThrough_iff]
  have hneed : lacking D.fs.clusterSize l (off + buf.length) =
    (off + buf.length + D.fs.clusterSize - 1) / D.fs.clusterSize - l.length := rfl
  rw [← hneed] at hgo
  replace hmark : 0 < lacking D.fs.clusterSize l (off + buf.length) →
      D.free (D.vol w) = [] ∧ D.vol w1 = D.vol w ∨ Marked D (D.vol w) (D.vol w1) := fun h => hmark (by omega)
  replace hstay : lacking D.fs.clusterSize l (off + buf.length) = 0 → D.vol w1 = D.vol w := fun h => hstay (by omega)
  generalize lacking D.fs.clusterSize l (off + buf.length) = need at *
  by_cases hyes : need ≤ (D.free (D.vol w)).length ∧ granted D.fs.clusterSize need w.heap = need
  · rw [if_pos hyes] at hgo
    obtain ⟨hr1, hg, hheap⟩ := hgo
    have hfirst : node.firstCluster ≠ 0 := by
      have := (hc.valid _ hc.first_mem).1
      omega
    have hlen : (l ++ (D.free (D.vol w)).take need).length = l.length + need := by
      rw [List.length_append, List.length_take, Nat.min_eq_left hyes.1]
    rw [if_neg hr1, if_pos hfirst, and_iff_right hyes, ← hheap]
    have hroom : (off + buf.length + D.fs.clusterSize - 1) / D.fs.clusterSize ≤ (l ++ (D.free (D.vol w)).take need).length := by
      omega
    apply (writeFrom_exact hg.chain (hg.fat_ne_zero hroot) hcsz hbuf hroom).mono
    rintro r w' ⟨v1, ⟨l', htouch⟩, hstored, hno, hthrough⟩
    refine ⟨fun h => (hthrough h).1, fun h => (hno h).1, ?_, ?_⟩
    · intro hpos
      have hmark1 : Marked D (D.vol w) (D.vol w1) := by
        apply (hmark hpos).resolve_left
        rintro ⟨hnil, -⟩
        rw [hnil, List.length_nil] at hyes
        omega
      apply Or.inr
      have hmark2 := htouch.marked hmark1
      by_cases hcopies : Copies D w1.heap (l ++ (D.free (D.vol w)).take need) off buf.length
      · apply hmark2.mono
        intro c hc
        rwa [(hthrough hcopies).2.fat]
      · rwa [(hno hcopies).2]
    · rintro rfl hon
      rw [List.take_zero, List.append_nil] at *
      rw [Function.iterate_zero_apply] at hheap
      rw [← hstay rfl, ← hheap]
      exact ⟨v1, hstored hon, fun h => (hno h).2, fun h => (hthrough h).2⟩
  · rw [if_neg hyes] at hgo
    rw [if_pos hgo]
    refine wp_pure ⟨fun h => absurd h.1 hyes, fun _ => rfl, hmark, ?_⟩
    rintro rfl
    exact absurd ⟨Nat.zero_le _, rfl⟩ hyes

theorem exfatWrite_far (hc : IsChain D (D.vol w).fat node.firstCluster l)
    (hroot : (D.vol w).fat D.fs.rootDirCluster ≠ 0) (hfuel : D.fs.entries ≤ fuel) (hfile : node.isDir = false)
    (hcsz : 0 < D.fs.clusterSize) (hbuf : buf ≠ []) (hfar : 2 ^ 40 ≤ off / D.fs.clusterSize) :
    Wp (exfatWrite fuel D.fs node off buf) w fun r w' => r = (-1, node) ∧
      (D.free (D.vol w) = [] ∧ D.vol w' = D.vol w ∨ Marked D (D.vol w) (D.vol w')) := by
  have hent := Disk.entries_lt (D := D)
  unfold exfatWrite
  rw [hfile, if_neg (by decide), if_neg hbuf, if_neg hcsz.ne']
  dsimp only
  generalize ((off + buf.length) % 2 ^ 64 + D.fs.clusterSize + (2 ^ 64 - 1)) % 2 ^ 64 / D.fs.clusterSize = needed
  apply wp_bind ((ensureChainLength_exact hc hroot hfuel).and (ensureChainLength_spec hc hroot hfuel))
  rintro ⟨r1, first⟩ w1 ⟨⟨rfl, -, hstay, hmark⟩, -, ⟨l1, hg1, -⟩, hr1⟩
  dsimp only at hr1 ⊢
  -- nothing is changed yet, or a cluster is taken
  have hfirst : (D.vol w1 = D.vol w ∧ (r1 = 0 → D.free (D.vol w) = [])) ∨ Marked D (D.vol w) (D.vol w1) := by
    rcases Nat.lt_or_ge l.length needed with hlt | hge
    · exact (hmark hlt).imp_left fun h => ⟨h.2, fun _ => h.1⟩
    · exact .inl ⟨hstay hge, fun h0 => absurd h0 (hr1 hge)⟩
  by_cases h0 : r1 = 0
  · rw [if_pos h0]
    refine wp_pure ⟨by rw [← hfile], hfirst.imp_left fun h => ⟨h.2 h0, h.1⟩⟩
  rw [if_neg h0]
  have hroot1 := hg1.fat_ne_zero hroot
  apply wp_bind ((writeSkip_spec hg1.chain hg1.chain.head hroot1).and (writeSkip_advances hg1.chain hg1.chain.head hroot1))
  rintro cl w2 ⟨⟨l2, hg2, hcl, -⟩, hadv⟩
  -- no chain is long enough to reach the offset
  have hzero : cl = 0 := by
    rcases hcl with h | ⟨-, h⟩
    · exact h
    · have hlt := (List.getElem?_eq_some_iff.mp h).1
      have hlen := hg2.chain.length_lt
      omega
  rw [if_pos hzero]
  refine wp_pure ⟨by rw [← hfile], ?_⟩
  rcases hfirst with ⟨hv, -⟩ | hm
  · rw [Advances, hv] at hadv
    exact hadv.imp_left fun h => ⟨h.2 hzero, h.1⟩
  · exact .inr (hg2.toTouched.marked hm)

theorem exfatWrite_result (hc : IsChain D (D.vol w).fat node.firstCluster l)
    (hroot : (D.vol w).fat D.fs.rootDirCluster ≠ 0) (hfuel : D.fs.entries ≤ fuel) (hfile : node.isDir = false)
    (hcsz : 0 < D.fs.clusterSize) (hbuf : buf ≠ []) (hlen : buf.length < 2 ^ 63) :
    Wp (exfatWrite fuel D.fs node off buf) w fun r w' =>
      (GoesThrough D w l off buf.length → r.1 = toInt buf.length) ∧
      (¬ GoesThrough D w l off buf.length → r = (-1, node)) ∧
      (0 < lacking D.fs.clusterSize l (off + buf.length) →
        D.free (D.vol w) = [] ∧ D.vol w' = D.vol w ∨ Marked D (D.vol w) (D.vol w')) := by
  rcases Nat.lt_or_ge (off + buf.length + D.fs.clusterSize - 1) (2 ^ 64) with hnear | hwrap
  · apply (exfatWrite_near hc hroot hfuel hfile hcsz hbuf hnear).mono
    rintro r w' ⟨hgo, hno, hmark, -⟩
    exact ⟨fun h => by rw [hgo h], hno, hmark⟩
  · have hfar := far_offset hwrap hlen hcsz
    apply (exfatWrite_far hc hroot hfuel hfile hcsz hbuf hfar).mono
    rintro r w' ⟨hr, hmark⟩
    exact ⟨fun h => absurd h (not_goesThrough_of_far hc hfar hcsz), fun _ => hr, fun _ => hmark⟩

end Write

section Empty

variable {fuel off : ℕ} {node : Node} {buf : List UInt8} {cl : ℕ} {w1 : World σ H}

theorem ensureChainLength_empty {fs : Fs σ} {needed : ℕ} (halloc : fatAlloc fs w = .ok (cl, w1)) (h2 : 2 ≤ cl) :
    ensureChainLength fuel fs 0 needed w = ensureChainLength fuel fs cl needed w1 := by
  have hne : cl ≠ 0 := by omega
  unfold ensureChainLength
  rw [if_pos (by decide), if_neg (show ¬ cl < 2 by omega), bind_run halloc, pure_bind, if_neg hne, if_neg hne]

theorem exfatWrite_empty {fs : Fs σ} (hfirst : node.firstCluster = 0) (hfile : node.isDir = false) (hbuf : buf ≠ [])
    (hcsz : fs.clusterSize ≠ 0) (halloc : fatAlloc fs w = .ok (cl, w1)) (h2 : 2 ≤ cl)
    (hsame : ∀ needed, Wp (ensureChainLength fuel fs cl needed) w1 fun r _ => r.2 = cl) :
    exfatWrite fuel fs node off buf w = exfatWrite fuel fs { node with firstCluster := cl } off buf w1 := by
  unfold exfatWrite
  rw [hfile, if_neg (by decide), if_neg hbuf, if_neg hcsz, if_neg (by decide), if_neg hbuf, if_neg hcsz]
  dsimp only
  generalize (((off + buf.length) % 2 ^ 64 + fs.clusterSize + (2 ^ 64 - 1)) % 2 ^ 64 / fs.clusterSize) = needed
  obtain ⟨⟨last, first⟩, w2, hrun, rfl⟩ := hsame needed
  have hrun0 := (ensureChainLength_empty halloc h2).trans hrun
  rw [hfirst, bind_run hrun0, bind_run hrun]
  dsimp only
  rw [if_neg (show ¬ (0 : ℕ) ≠ 0 by decide), if_pos (show first ≠ 0 by omega)]

theorem exfatWrite_no_first {fs : Fs σ} (hfirst : node.firstCluster = 0) (hfile : node.isDir = false) (hbuf : buf ≠ [])
    (hcsz : fs.clusterSize ≠ 0) (halloc : fatAlloc fs w = .ok (0, w1)) :
    exfatWrite fuel fs node off buf w = .ok ((-1, node), w1) := by
  unfold exfatWrite
  rw [hfile, if_neg (by decide), if_neg hbuf, if_neg hcsz]
  dsimp only
  generalize (((off + buf.length) % 2 ^ 64 + fs.clusterSize + (2 ^ 64 - 1)) % 2 ^ 64 / fs.clusterSize) = needed
  have hrun : ensureChainLength fuel fs 0 needed w = .ok ((0, 0), w1) := by
    unfold ensureChainLength
    rw [if_pos (by decide), bind_run halloc, if_pos rfl]
    rfl
  rw [hfirst, bind_run hrun, if_pos rfl, ← hfirst, ← hfile]
  rfl

def FileChain (D : Disk σ) (fat : ℕ → ℕ) (f : ℕ) (l : List ℕ) : Prop := f = 0 ∧ l = [] ∨ IsChain D fat f l

theorem goesThrough_empty {rest : List ℕ} {len : ℕ} (hlen : 0 < off + len) (hcsz : 0 < D.fs.clusterSize)
    (hfree : D.free (D.vol w) = cl :: rest) (hbuf : (KernelAlloc.kmalloc w.heap D.fs.clusterSize).1 ≠ none)
    (hfree1 : D.free (D.vol w1) = rest) (hheap1 : w1.heap = turn D.fs.clusterSize w.heap) :
    GoesThrough D w1 [cl] off len ↔ GoesThrough D w [] off len := by
  have hneed : lacking D.fs.clusterSize [] (off + len) = lacking D.fs.clusterSize [cl] (off + len) + 1 := by
    have hceil : 0 < (off + len + D.fs.clusterSize - 1) / D.fs.clusterSize := Nat.div_pos (by omega) hcsz
    rw [lacking, lacking, List.length_nil, List.length_singleton]
    omega
  unfold GoesThrough
  dsimp only
  rw [hneed, hfree, hfree1, hheap1, Nat.add_right_comm, granted, if_neg hbuf, List.length_cons,
    Nat.add_le_add_iff_right, Nat.add_right_cancel_iff, List.take_succ_cons]
  rfl

theorem exfatWrite_first (hfirst : node.firstCluster = 0) (hroot : (D.vol w).fat D.fs.rootDirCluster ≠ 0)
    (hfuel : D.fs.entries ≤ fuel) (hfile : node.isDir = false) (hcsz : 0 < D.fs.clusterSize) (hbuf : buf ≠ []) :
    (D.free (D.vol w) = [] ∧ exfatWrite fuel D.fs node off buf w = .ok ((-1, node), w)) ∨
    (D.free (D.vol w) ≠ [] ∧ (KernelAlloc.kmalloc w.heap D.fs.clusterSize).1 = none ∧
      ∃ w1, exfatWrite fuel D.fs node off buf w = .ok ((-1, node), w1) ∧ Marked D (D.vol w) (D.vol w1)) ∨
    ∃ cl rest w1, D.free (D.vol w) = cl :: rest ∧ (KernelAlloc.kmalloc w.heap D.fs.clusterSize).1 ≠ none ∧
      Took D (D.vol w) (D.vol w1) cl ∧ D.free (D.vol w1) = rest ∧ w1.heap = turn D.fs.clusterSize w.heap ∧
      exfatWrite fuel D.fs node off buf w = exfatWrite fuel D.fs { node with firstCluster := cl } off buf w1 := by
  obtain ⟨cl, w1, halloc, hexact, hspec⟩ := (fatAlloc_exact.and fatAlloc_spec : Wp (fatAlloc D.fs) w _)
  cases hfree : D.free (D.vol w) with
  | nil =>
    rw [hfree] at hexact
    obtain ⟨rfl, rfl⟩ := hexact
    exact .inl ⟨rfl, exfatWrite_no_first hfirst hfile hbuf hcsz.ne' halloc⟩
  | cons c rest =>
    apply Or.inr
    have hmark := hexact.marked (by rw [hfree]; simp)
    rw [hfree, FatAlloc] at hexact
    split_ifs at hexact with hnone
    · obtain ⟨rfl, -⟩ := hexact
      exact .inl ⟨List.cons_ne_nil _ _, hnone, w1, exfatWrite_no_first hfirst hfile hbuf hcsz.ne' halloc, hmark⟩
    · obtain ⟨rfl, hv1, hheap1⟩ := hexact
      have ht : Took D (D.vol w) (D.vol w1) cl := by
        rcases hspec with ⟨rfl, -⟩ | ht
        · have hzero := (Disk.mem_free.mp (hfree ▸ List.mem_cons_self : 0 ∈ D.free (D.vol w))).1.1
          omega
        · exact ht
      have hfree1 : D.free (D.vol w1) = rest := by
        apply Disk.free_tail hfree
        intro c _
        rw [hv1, Disk.take_fat]
        by_cases hc : c = cl
        · rw [hc, Function.update_self]
          exact iff_of_false (by decide) fun h => h.2 rfl
        · rw [Function.update_of_ne hc, and_iff_left hc]
      have hroot1 : (D.vol w1).fat D.fs.rootDirCluster ≠ 0 := by rwa [ht.fat _ hroot]
      refine .inr ⟨cl, rest, w1, rfl, hnone, ht, hfree1, hheap1, ?_⟩
      apply exfatWrite_empty hfirst hfile hbuf hcsz.ne' halloc ht.valid.1
      intro needed
      apply (ensureChainLength_spec (ht.alone hroot) hroot1 hfuel).mono
      intro r w' h
      exact h.1

theorem exfatWrite_short (hl : FileChain D (D.vol w).fat node.firstCluster l)
    (hroot : (D.vol w).fat D.fs.rootDirCluster ≠ 0) (hfuel : D.fs.entries ≤ fuel) (hfile : node.isDir = false)
    (hcsz : 0 < D.fs.clusterSize) (hsize : node.size < 2 ^ 64) (hbuf : buf ≠ []) (hlen : buf.length < 2 ^ 63)
    (hneed : 0 < lacking D.fs.clusterSize l (off + buf.length)) :
    Wp (exfatWrite fuel D.fs node off buf) w fun r w' =>
      (D.free (D.vol w) = [] → r = (-1, node) ∧ D.vol w' = D.vol w) ∧
      (D.free (D.vol w) ≠ [] → Marked D (D.vol w) (D.vol w')) ∧
      (GoesThrough D w l off buf.length → r.1 = toInt buf.length) ∧
      (¬ GoesThrough D w l off buf.length → r.1 = -1) := by
  have hnot : D.free (D.vol w) = [] → ¬ GoesThrough D w l off buf.length := by
    rintro hnil ⟨hfew, -⟩
    rw [hnil, List.length_nil] at hfew
    omega
  rcases hl with ⟨hfirst, rfl⟩ | hc
  · have hpos := List.length_pos_iff.mpr hbuf
    rcases exfatWrite_first hfirst hroot hfuel hfile hcsz hbuf with
      ⟨hnil, hrun⟩ | ⟨hne, hnone, w1, hrun, hmark⟩ | ⟨cl, rest, w1, hfree, hsome, ht, hfree1, hheap1, hrun⟩
    · exact ⟨_, _, hrun, fun _ => ⟨rfl, rfl⟩, fun h => absurd hnil h, fun h => absurd h (hnot hnil), fun _ => rfl⟩
    · refine ⟨_, _, hrun, fun h => absurd h hne, fun _ => hmark, ?_, fun _ => rfl⟩
      rintro ⟨-, hg, -⟩
      have hturns := turnsOf_pos (off % D.fs.clusterSize) hcsz hpos
      obtain ⟨t, ht⟩ := Nat.exists_eq_succ_of_ne_zero (show lacking D.fs.clusterSize [] (off + buf.length) +
        turnsOf D.fs.clusterSize (off % D.fs.clusterSize) buf.length ≠ 0 by omega)
      rw [ht, Nat.succ_eq_add_one, granted, if_pos hnone] at hg
      omega
    · have hc1 := ht.alone hroot
      have hroot1 : (D.vol w1).fat D.fs.rootDirCluster ≠ 0 := by rwa [ht.fat _ hroot]
      have hmark : Marked D (D.vol w) (D.vol w1) := ⟨cl, ht.valid, ht.free, by rw [ht.marked]; decide⟩
      have hiff : GoesThrough D w1 [cl] off buf.length ↔ GoesThrough D w [] off buf.length :=
        goesThrough_empty (by omega) hcsz hfree hsome hfree1 hheap1
      have hres : Wp (exfatWrite fuel D.fs { node with firstCluster := cl } off buf) w1 _ :=
        exfatWrite_result hc1 hroot1 hfuel hfile hcsz hbuf hlen
      have hwrite : Wp (exfatWrite fuel D.fs { node with firstCluster := cl } off buf) w1 _ :=
        exfatWrite_spec off hc1 hroot1 hfuel hfile hcsz hsize hbuf
      obtain ⟨r, w2, hrun1, ⟨hgo, hno, -⟩, -, ⟨l', v1, htouch, hv'⟩, -⟩ := hres.and hwrite
      refine ⟨r, w2, hrun.trans hrun1, fun h => absurd h (by rw [hfree]; exact List.cons_ne_nil _ _), fun _ => ?_,
        fun h => hgo (hiff.mpr h), fun h => by rw [hno fun h' => h (hiff.mp h')]⟩
      have hm1 := htouch.marked hmark
      rcases hv' with rfl | ⟨size, -, hresize⟩
      · exact hm1
      · apply hm1.mono
        intro c hc
        rwa [hresize.fat]
  · apply (exfatWrite_result hc hroot hfuel hfile hcsz hbuf hlen).mono
    rintro r w' ⟨hgo, hno, hmark⟩
    refine ⟨fun hnil => ⟨hno (hnot hnil), ?_⟩, fun hne => (hmark hneed).resolve_left fun h => hne h.1, hgo,
      fun h => by rw [hno h]⟩
    rcases hmark hneed with ⟨-, hv⟩ | hm
    · exact hv
    · exact absurd hnil hm.free_ne_nil

end Empty

end DexOs.Exfat
