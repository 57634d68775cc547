import DexOs.ExfatChains

/-! The loops of the driver that follow and extend a FAT chain. -/

namespace DexOs.Exfat

open DexOs.Lib

variable {σ H : Type} [KernelAlloc H] {D : Disk σ} {w : World σ H} {f : ℕ} {l : List ℕ}

theorem eoc_lt : eoc < 2 ^ 32 := by decide

theorem fatAllocFrom_spec {n cl : ℕ} (hcl : 2 ≤ cl) (hn : cl + n = D.fs.entries ∨ n = 0)
    (hlow : ∀ c, 2 ≤ c → c < cl → (D.vol w).fat c ≠ 0) :
    Wp (fatAllocFrom D.fs n cl) w fun r w' =>
      (r = 0 ∧ Kept (D.vol w) (D.vol w') ∧ (AllocOk H → 0 < D.fs.clusterSize → ∀ c, cl ≤ c → c < cl + n →
        (D.vol w).fat c ≠ 0)) ∨ Took D (D.vol w) (D.vol w') r := by
  induction n generalizing cl with
  | zero => exact wp_pure (.inl ⟨rfl, Kept.refl _, fun _ _ c h1 h2 => by omega⟩)
  | succ n ih =>
    have hn' : cl + (n + 1) = D.fs.entries := hn.resolve_right (by omega)
    have hlt : cl < D.fs.entries := by omega
    rw [fatAllocFrom]
    refine wp_bind (Disk.fatGet_spec hlt) ?_
    rintro _ w ⟨rfl, rfl⟩
    split_ifs with hz
    · refine wp_bind (Disk.fatSet_spec hlt eoc_lt) ?_
      rintro _ w1 ⟨rfl, hv1⟩
      have hkept : Kept (D.vol w) (D.vol w1) := by
        rw [hv1]
        refine ⟨fun c hc => Function.update_of_ne ?_ _ _, fun _ _ => rfl⟩
        rintro rfl
        exact hc hz
      rw [if_neg (by simp)]
      refine wp_bind (kmalloc_spec D _) ?_
      rintro (_ | p) w2 ⟨hv2, hpos, hok⟩
      · refine wp_pure (.inl ⟨rfl, hv2 ▸ hkept, fun ha hs => absurd rfl (hok ha hs)⟩)
      · have hs := clusterSize_pos D (hpos (by simp))
        have hvalid : D.Valid cl := ⟨hcl, hlt⟩
        refine wp_bind (Disk.writeCluster_spec hvalid hs (by simp)) ?_
        intro _ w3 hw3
        refine wp_bind (kfree_spec D p) ?_
        intro _ w4 hv4
        refine wp_pure (.inr ?_)
        by_cases hon : D.On cl
        · rw [if_pos hon, hv2, hv1] at hw3
          rw [hv4, hw3.2]
          have hne : ∀ c, (D.vol w).fat c ≠ 0 → c ≠ cl := fun c hc e => hc (e ▸ hz)
          refine ⟨⟨fun c hc => ?_, fun c hc => ?_⟩, hvalid, hz, hlow, ?_, fun _ => ?_⟩
          · exact Function.update_of_ne (hne c hc) _ _
          · exact Function.update_of_ne (hne c hc) _ _
          · exact Function.update_self ..
          · exact Function.update_self ..
        · rw [if_neg hon] at hw3
          rw [hv4, hw3.2, hv2]
          refine ⟨hkept, hvalid, hz, hlow, ?_, fun h => absurd h hon⟩
          rw [hv1]
          exact Function.update_self ..
    · refine (ih (by omega) (.inl (by omega)) fun c h1 h2 => ?_).mono ?_
      · rcases Nat.lt_succ_iff_lt_or_eq.mp h2 with h2 | rfl
        · exact hlow c h1 h2
        · exact hz
      · rintro r w' (⟨hr, hk, hnone⟩ | ht)
        · refine .inl ⟨hr, hk, fun ha hs c h1 h2 => ?_⟩
          rcases Nat.eq_or_lt_of_le h1 with rfl | h1
          · exact hz
          · exact hnone ha hs c h1 (by omega)
        · exact .inr ht

theorem fatAlloc_spec : Wp (fatAlloc D.fs) w fun r w' =>
    (r = 0 ∧ Kept (D.vol w) (D.vol w') ∧ (AllocOk H → 0 < D.fs.clusterSize → ∀ c, D.Valid c →
      (D.vol w).fat c ≠ 0)) ∨ Took D (D.vol w) (D.vol w') r := by
  have hlt := D.root_lt
  have hge := D.root_ge
  refine (fatAllocFrom_spec (le_refl 2) (.inl (by omega)) fun c h1 h2 => by omega).mono ?_
  rintro r w' (⟨hr, hk, hnone⟩ | ht)
  · exact .inl ⟨hr, hk, fun ha hs c hc => hnone ha hs c hc.1 (by have := hc.2; omega)⟩
  · exact .inr ht

theorem Took.ne_zero {v v' : Vol} {r : ℕ} (h : Took D v v' r) : r ≠ 0 := by
  have := h.valid.1
  omega

theorem appendCluster_spec {cur : ℕ} (hc : IsChain D (D.vol w).fat f (l ++ [cur]))
    (hroot : (D.vol w).fat D.fs.rootDirCluster ≠ 0) :
    Wp (appendCluster D.fs cur) w fun r w' =>
      (r = 0 ∧ Grown D (D.vol w) (D.vol w') f (l ++ [cur]) (l ++ [cur])) ∨
      (r ≠ 0 ∧ Grown D (D.vol w) (D.vol w') f (l ++ [cur]) (l ++ [cur] ++ [r])) := by
  unfold appendCluster
  refine wp_bind fatAlloc_spec ?_
  rintro r w1 (⟨rfl, hk, -⟩ | ht)
  · rw [if_pos rfl]
    exact wp_pure (.inl ⟨rfl, hk.grown hc⟩)
  · have hcur := (hc.valid cur (by simp)).2
    have hr := ht.valid.2
    have hlt := Disk.entries_lt (D := D)
    rw [if_neg ht.ne_zero]
    refine wp_bind (Disk.fatSet_spec hcur (by omega)) ?_
    rintro _ w2 ⟨-, hv2⟩
    refine wp_bind (Disk.fatSet_spec hr eoc_lt) ?_
    rintro _ w3 ⟨-, hv3⟩
    refine wp_pure (.inr ⟨ht.ne_zero, ?_⟩)
    rw [hv3, hv2]
    exact ht.link hc hroot

omit [KernelAlloc H] in
theorem chainEnd_spec {fuel i cur count : ℕ} (hc : IsChain D (D.vol w).fat f l) (hi : l[i]? = some cur)
    (hfuel : l.length < i + fuel + 1) :
    Wp (chainEnd D.fs fuel cur count) w fun r w' =>
      w' = w ∧ l[l.length - 1]? = some r.1 ∧ r.2 + i + 1 = count + l.length := by
  have hlen := (List.getElem?_eq_some_iff.mp hi).1
  induction fuel generalizing i cur count with
  | zero => omega
  | succ fuel ih =>
    have hvalid := hc.valid cur (List.mem_of_getElem? hi)
    have hnext := hc.linked.next_eq hi
    rw [chainEnd]
    refine wp_bind (Disk.fatGet_spec hvalid.2) ?_
    rintro _ _ ⟨rfl, rfl⟩
    cases hn : l[i + 1]? with
    | none =>
      rw [hn, Option.getD_none] at hnext
      rw [if_pos (.inl hnext)]
      have hlast := List.getElem?_eq_none_iff.mp hn
      refine wp_pure ⟨rfl, ?_, by dsimp only; omega⟩
      rw [show l.length - 1 = i by omega]
      exact hi
    | some d =>
      rw [hn, Option.getD_some] at hnext
      have hd := hc.valid d (List.mem_of_getElem? hn)
      have hd2 := hd.1
      rw [hnext, if_neg (by rintro (h | h); exact hd.ne_eoc h; omega)]
      have hlt := (List.getElem?_eq_some_iff.mp hn).1
      refine (ih hn (by omega) hlt).mono ?_
      rintro r w' ⟨h1, h2, h3⟩
      exact ⟨h1, h2, by omega⟩

theorem split_last {α : Type} {l : List α} {c : α} (h : l[l.length - 1]? = some c) : ∃ m, l = m ++ [c] := by
  have hlt := (List.getElem?_eq_some_iff.mp h).1
  have hne : l ≠ [] := by
    rintro rfl
    simp at hlt
  refine ⟨l.dropLast, ?_⟩
  have hlast : l.getLast hne = c := by
    rw [List.getLast_eq_getElem]
    exact (List.getElem?_eq_some_iff.mp h).2
  rw [← hlast, List.dropLast_append_getLast hne]

theorem last_concat {α : Type} (m : List α) (c : α) : (m ++ [c])[(m ++ [c]).length - 1]? = some c := by simp

theorem extendChain_spec {n cur : ℕ} (hc : IsChain D (D.vol w).fat f l) (hcur : l[l.length - 1]? = some cur)
    (hroot : (D.vol w).fat D.fs.rootDirCluster ≠ 0) :
    Wp (extendChain D.fs n cur) w fun r w' => ∃ l', Grown D (D.vol w) (D.vol w') f l l' ∧
      (r = 0 ∨ r ≠ 0 ∧ l'.length = l.length + n) ∧ (n = 0 → r ≠ 0) := by
  induction n generalizing l cur w with
  | zero =>
    have hpos := (hc.valid cur (List.mem_of_getElem? hcur)).1
    exact wp_pure ⟨l, Grown.refl hc, .inr ⟨by omega, rfl⟩, fun _ => by omega⟩
  | succ n ih =>
    obtain ⟨m, rfl⟩ := split_last hcur
    rw [extendChain]
    refine wp_bind (appendCluster_spec hc hroot) ?_
    rintro r w1 (⟨rfl, hg⟩ | ⟨hr, hg⟩)
    · rw [if_pos rfl]
      exact wp_pure ⟨_, hg, .inl rfl, fun h => by omega⟩
    · rw [if_neg hr]
      refine (ih hg.chain (last_concat _ _) (hg.fat_ne_zero hroot)).mono ?_
      rintro r' w2 ⟨l', hg', hr', -⟩
      refine ⟨l', hg.trans hg', hr'.imp_right fun h => ⟨h.1, ?_⟩, fun h => by omega⟩
      rw [h.2, List.length_append, List.length_singleton]
      omega

theorem ensureChainLength_spec {fuel needed : ℕ} (hc : IsChain D (D.vol w).fat f l)
    (hroot : (D.vol w).fat D.fs.rootDirCluster ≠ 0) (hfuel : D.fs.entries ≤ fuel) :
    Wp (ensureChainLength fuel D.fs f needed) w fun r w' =>
      r.2 = f ∧ (∃ l', Grown D (D.vol w) (D.vol w') f l l' ∧
        (r.1 = 0 ∨ r.1 ≠ 0 ∧ l'.length = max l.length needed)) ∧ (needed ≤ l.length → r.1 ≠ 0) := by
  have hlen := hc.length_lt
  have hf := (hc.valid f hc.first_mem).1
  unfold ensureChainLength
  rw [if_neg (by omega)]
  refine wp_bind (wp_pure (Q := fun a w' => a = f ∧ w' = w) ⟨rfl, rfl⟩) ?_
  rintro _ _ ⟨rfl, rfl⟩
  rw [if_neg (by omega)]
  refine wp_bind (chainEnd_spec hc hc.head (by omega)) ?_
  rintro ⟨last, count⟩ _ ⟨rfl, hlast, hcount⟩
  dsimp only at hlast hcount ⊢
  refine wp_bind (extendChain_spec hc hlast hroot) ?_
  rintro r w' ⟨l', hg, hr, hstay⟩
  refine wp_pure ⟨rfl, ⟨l', hg, hr.imp_right fun h => ⟨h.1, ?_⟩⟩, fun hle => hstay (by omega)⟩
  omega

theorem nextOrAppend_spec {i cl : ℕ} (hc : IsChain D (D.vol w).fat f l) (hi : l[i]? = some cl)
    (hroot : (D.vol w).fat D.fs.rootDirCluster ≠ 0) :
    Wp (nextOrAppend D.fs cl) w fun r w' => ∃ l', Grown D (D.vol w) (D.vol w') f l l' ∧
      (r = 0 ∨ r ≠ 0 ∧ l'[i + 1]? = some r) ∧ (i + 1 < l.length → r ≠ 0 ∧ l' = l ∧ w' = w) := by
  have hvalid := hc.valid cl (List.mem_of_getElem? hi)
  have hnext := hc.linked.next_eq hi
  have hlt := (List.getElem?_eq_some_iff.mp hi).1
  unfold nextOrAppend
  refine wp_bind (Disk.fatGet_spec hvalid.2) ?_
  rintro _ _ ⟨rfl, rfl⟩
  cases hn : l[i + 1]? with
  | none =>
    rw [hn, Option.getD_none] at hnext
    have hlast := List.getElem?_eq_none_iff.mp hn
    have hi' : i = l.length - 1 := by omega
    subst hi'
    obtain ⟨m, rfl⟩ := split_last hi
    rw [if_pos (.inl hnext)]
    refine (appendCluster_spec hc hroot).mono ?_
    rintro r w' (⟨rfl, hg⟩ | ⟨hr, hg⟩)
    · exact ⟨_, hg, .inl rfl, fun h => by omega⟩
    · refine ⟨_, hg, .inr ⟨hr, ?_⟩, fun h => by omega⟩
      simp
  | some d =>
    rw [hn, Option.getD_some] at hnext
    have hd := hc.valid d (List.mem_of_getElem? hn)
    have hd2 := hd.1
    rw [hnext, if_neg (by rintro (h | h); exact hd.ne_eoc h; omega)]
    exact wp_pure ⟨l, Grown.refl hc, .inr ⟨by omega, hn⟩, fun _ => ⟨by omega, rfl, rfl⟩⟩

theorem writeSkip_spec {k i cl : ℕ} (hc : IsChain D (D.vol w).fat f l) (hi : l[i]? = some cl)
    (hroot : (D.vol w).fat D.fs.rootDirCluster ≠ 0) :
    Wp (writeSkip D.fs k cl) w fun r w' => ∃ l', Grown D (D.vol w) (D.vol w') f l l' ∧
      (r = 0 ∨ r ≠ 0 ∧ l'[i + k]? = some r) ∧ (i + k < l.length → r ≠ 0 ∧ l' = l ∧ w' = w) := by
  induction k generalizing i cl l w with
  | zero =>
    have hpos := (hc.valid cl (List.mem_of_getElem? hi)).1
    exact wp_pure ⟨l, Grown.refl hc, .inr ⟨by omega, hi⟩, fun _ => ⟨by omega, rfl, rfl⟩⟩
  | succ k ih =>
    rw [writeSkip]
    refine wp_bind (nextOrAppend_spec hc hi hroot) ?_
    rintro r w1 ⟨l1, hg, hr, hlong⟩
    rcases hr with rfl | ⟨hr, hr1⟩
    · rw [if_pos rfl]
      exact wp_pure ⟨l1, hg, .inl rfl, fun h => absurd rfl (hlong (by omega)).1⟩
    · rw [if_neg hr]
      refine (ih hg.chain hr1 (hg.fat_ne_zero hroot)).mono ?_
      rintro r' w2 ⟨l2, hg', hr', hlong'⟩
      refine ⟨l2, hg.trans hg', ?_, fun h => ?_⟩
      · rwa [show i + (k + 1) = i + 1 + k by omega]
      · obtain ⟨-, rfl, rfl⟩ := hlong (by omega)
        exact hlong' (by omega)

end DexOs.Exfat
