import DexOs.PageTranslation
import DexOs.FrameFirstFit

/-! The identity map of `vmm_init_identity`: which tables it makes, and how far it gets with the frames there are. -/

namespace DexOs.Paging

open DexOs.Lib DexOs.Frames

variable {v : Vmm} {root n : ℕ} {s₀ : Pmm} {S : Finset (List ℕ)}

section Tables

def tablesOf (va : ℕ) : Finset (List ℕ) := {[idxPml4 va], [idxPml4 va, idxPdp va], pathOf va}

def tablesFor (n : ℕ) : Finset (List ℕ) := insert [] ((Finset.range n).biUnion fun k => tablesOf (4096 * k))

theorem tablesFor_succ (n : ℕ) : tablesFor (n + 1) = tablesFor n ∪ tablesOf (4096 * n) := by
  rw [tablesFor, tablesFor, Finset.range_add_one, Finset.biUnion_insert, Finset.insert_union, Finset.union_comm]

theorem tablesFor_mono {n n' : ℕ} (h : n ≤ n') : tablesFor n ⊆ tablesFor n' := by
  apply Finset.insert_subset_insert
  apply Finset.biUnion_subset_biUnion_of_subset_left
  exact Finset.range_mono h

theorem indices_of_low {k : ℕ} (hk : k < 2 ^ 20) : idxPml4 (4096 * k) = 0 ∧ idxPdp (4096 * k) = k / 2 ^ 18 ∧
    idxPd (4096 * k) = k / 2 ^ 9 % 512 := by
  simp only [idxPml4, idxPdp, idxPd, and_0x1FF, Nat.shiftRight_eq_div_pow]
  omega

theorem tablesFor_low : tablesFor (2 ^ 20) = insert [] (insert [0]
    ((Finset.range 4).image (fun i => [0, i]) ∪ (Finset.range 2048).image fun j => [0, j / 512, j % 512])) := by
  ext p
  simp only [tablesFor, Finset.mem_insert, Finset.mem_biUnion, Finset.mem_range, Finset.mem_union, Finset.mem_image]
  apply or_congr_right
  constructor
  · rintro ⟨k, hk, hp⟩
    obtain ⟨h1, h2, h3⟩ := indices_of_low hk
    simp only [tablesOf, pathOf, h1, h2, h3, Finset.mem_insert, Finset.mem_singleton] at hp
    rcases hp with rfl | rfl | rfl
    · exact .inl rfl
    · exact .inr (.inl ⟨k / 2 ^ 18, by omega, rfl⟩)
    · refine .inr (.inr ⟨k / 2 ^ 9, by omega, ?_⟩)
      rw [Nat.div_div_eq_div_mul]
      rfl
  · have hmem {k : ℕ} (hk : k < 2 ^ 20) : [0] ∈ tablesOf (4096 * k) ∧ [0, k / 2 ^ 18] ∈ tablesOf (4096 * k) ∧
        [0, k / 2 ^ 18, k / 2 ^ 9 % 512] ∈ tablesOf (4096 * k) := by
      obtain ⟨h1, h2, h3⟩ := indices_of_low hk
      simp [tablesOf, pathOf, h1, h2, h3]
    rintro (rfl | ⟨i, hi, rfl⟩ | ⟨j, hj, rfl⟩)
    · exact ⟨0, by decide, (hmem (by decide)).1⟩
    · have hdiv : i * 2 ^ 18 / 2 ^ 18 = i := Nat.mul_div_cancel i (by decide)
      have h := (hmem (k := i * 2 ^ 18) (by omega)).2.1
      rw [hdiv] at h
      exact ⟨i * 2 ^ 18, by omega, h⟩
    · have hdiv : j * 2 ^ 9 / 2 ^ 9 = j := Nat.mul_div_cancel j (by decide)
      have hdiv' : j * 2 ^ 9 / 2 ^ 18 = j / 512 := by omega
      have h := (hmem (k := j * 2 ^ 9) (by omega)).2.2
      rw [hdiv, hdiv'] at h
      exact ⟨j * 2 ^ 9, by omega, h⟩

theorem card_tablesFor_low : (tablesFor (2 ^ 20)).card = 2054 := by
  have hsecond : ((Finset.range 4).image fun i => [0, i]).card = 4 := by
    rw [Finset.card_image_of_injective _ fun i j h => by simpa using h, Finset.card_range]
  have hthird : ((Finset.range 2048).image fun j => [0, j / 512, j % 512]).card = 2048 := by
    rw [Finset.card_image_of_injective, Finset.card_range]
    intro i j h
    simp only [List.cons.injEq, and_true, true_and] at h
    omega
  rw [tablesFor_low, Finset.card_insert_of_notMem (by simp), Finset.card_insert_of_notMem (by simp),
    Finset.card_union_of_disjoint, hsecond, hthird]
  rw [Finset.disjoint_left]
  simp

end Tables

section Building

structure Building (s₀ : Pmm) (root : ℕ) (S : Finset (List ℕ)) (v : Vmm) : Prop where
  tree : Tree v root
  tables : ∀ p, IsPath p → ((walk v.mem root p).isSome ↔ p ∈ S)
  drawn : Drawn s₀ S.card v.pmm

theorem Building.nextTable (h : Building s₀ root S v) (hf : s₀.Framed) {p : List ℕ} {t i : ℕ} (hp : IsPath (p ++ [i]))
    (ht : walk v.mem root p = some t) :
    ((nextTable v t i true).1 ≠ none ∧ Building s₀ root (insert (p ++ [i]) S) (nextTable v t i true).2) ∨
      ((nextTable v t i true).1 = none ∧ p ++ [i] ∉ S ∧ s₀.supply = S.card) := by
  obtain ⟨hk, hw⟩ := nextTable_spec h.tree hp ht true
  have hpath : (walk v.mem root (p ++ [i])).isSome ↔ isPresent (v.mem (slot t i)) = true := by
    rw [Option.isSome_iff_exists]
    simp only [walk_concat, ht, Option.some.injEq]
    constructor
    · rintro ⟨u, w, rfl, hpres, -⟩
      exact hpres
    · intro hpres
      exact ⟨_, t, rfl, hpres, rfl⟩
  by_cases hpres : isPresent (v.mem (slot t i)) = true
  · left
    rw [nextTable_present v true hpres rfl, Finset.insert_eq_of_mem ((h.tables _ hp).mp (hpath.mpr hpres))]
    exact ⟨by simp, h⟩
  have hnot : p ++ [i] ∉ S := fun hin => hpres (hpath.mp ((h.tables _ hp).mpr hin))
  have hcount := (h.drawn.counts hf).2.2
  have hframed := h.tree.framed
  rw [Bool.not_eq_true] at hpres
  rcases Nat.eq_zero_or_pos v.pmm.supply with hzero | hpos
  · right
    exact ⟨nextTable_full hpres (alloc_without_supply hzero), hnot, by omega⟩
  · left
    obtain ⟨k, hk', hclear, hne, haddr, -⟩ := alloc_of_supply hframed hpos
    have l : Linkable v root p t i (v.pmm.frameAddr k) := ⟨h.tree, hp, ht, hpres, k, hk', hclear, rfl⟩
    have hopen := nextTable_create hpres haddr hne
    have hnew : (Paging.nextTable v t i true).2.mem = linkTable v.mem t i (v.pmm.frameAddr k) := by
      rw [hopen, entry_eq l.aligned.2]
      rfl
    have hpmm : (Paging.nextTable v t i true).2.pmm = (pmmAllocFrames v.pmm 1).2 := by rw [hopen]
    refine ⟨by rw [hopen]; simp, hk.tree, fun q hq => ?_, ?_⟩
    · rw [hnew, Finset.mem_insert, ← h.tables q hq, Option.isSome_iff_exists, Option.isSome_iff_exists]
      simp only [l.walk_iff hq]
      constructor
      · rintro ⟨u, hu | ⟨hq', -⟩⟩
        · exact .inr ⟨u, hu⟩
        · exact .inl hq'
      · rintro (hq' | ⟨u, hu⟩)
        · exact ⟨_, .inr ⟨hq', rfl⟩⟩
        · exact ⟨u, .inl hu⟩
    · rw [hpmm, Finset.card_insert_of_notMem hnot]
      exact h.drawn.frame hpos

theorem Building.getPte (h : Building s₀ root S v) (hf : s₀.Framed) (va : ℕ) :
    ((getPte v root va true).1 ≠ none ∧ Building s₀ root (S ∪ tablesOf va) (getPte v root va true).2) ∨
      ((getPte v root va true).1 = none ∧ s₀.supply < (S ∪ tablesOf va).card) := by
  obtain ⟨hp1, hp2⟩ := pathOf_prefix va
  have hall : S ∪ tablesOf va = insert (pathOf va) (insert [idxPml4 va, idxPdp va] (insert [idxPml4 va] S)) := by
    ext p
    simp only [tablesOf, Finset.mem_union, Finset.mem_insert, Finset.mem_singleton]
    tauto
  have hmiss {S' : Finset (List ℕ)} {p : List ℕ} (hsub : S' ⊆ S ∪ tablesOf va) (hp : p ∈ S ∪ tablesOf va) (hnot : p ∉ S')
      (hsupply : s₀.supply = S'.card) : s₀.supply < (S ∪ tablesOf va).card := by
    rw [hsupply]
    apply Finset.card_lt_card
    exact ⟨hsub, fun hback => hnot (hback hp)⟩
  obtain ⟨-, hw1⟩ := nextTable_spec h.tree (p := []) hp1 rfl true
  have hb1 := h.nextTable hf (p := []) hp1 rfl
  unfold Paging.getPte
  generalize Paging.nextTable v root (idxPml4 va) true = r1 at hw1 hb1
  obtain ⟨_ | pdpt, v1⟩ := r1
  · obtain ⟨-, hnot, hsupply⟩ := hb1.resolve_left (by simp)
    refine .inr ⟨rfl, hmiss Finset.subset_union_left ?_ hnot hsupply⟩
    simp [tablesOf]
  replace hb1 := (hb1.resolve_right (by simp)).2
  dsimp only at hw1 hb1 ⊢
  rw [List.nil_append] at hw1 hb1
  obtain ⟨-, hw2⟩ := nextTable_spec hb1.tree (p := [idxPml4 va]) hp2 (hw1 pdpt rfl) true
  have hb2 := hb1.nextTable hf (p := [idxPml4 va]) hp2 (hw1 pdpt rfl)
  generalize Paging.nextTable v1 pdpt (idxPdp va) true = r2 at hw2 hb2
  obtain ⟨_ | pd, v2⟩ := r2
  · obtain ⟨-, hnot, hsupply⟩ := hb2.resolve_left (by simp)
    refine .inr ⟨rfl, hmiss ?_ ?_ hnot hsupply⟩
    · rw [hall]
      exact (Finset.subset_insert ..).trans (Finset.subset_insert ..)
    · simp [tablesOf]
  replace hb2 := (hb2.resolve_right (by simp)).2
  dsimp only at hw2 hb2 ⊢
  have hb3 := hb2.nextTable hf (p := [idxPml4 va, idxPdp va]) (pathOf_isPath va) (hw2 pd rfl)
  generalize Paging.nextTable v2 pd (idxPd va) true = r3 at hb3
  obtain ⟨_ | pt, v3⟩ := r3
  · obtain ⟨-, hnot, hsupply⟩ := hb3.resolve_left (by simp)
    refine .inr ⟨rfl, hmiss ?_ ?_ hnot hsupply⟩
    · rw [hall]
      exact Finset.subset_insert ..
    · simp [tablesOf, pathOf]
  · replace hb3 := (hb3.resolve_right (by simp)).2
    left
    rw [hall]
    exact ⟨by simp, hb3⟩

end Building

section Loop

/-- The first `n` pages are mapped to themselves, and no other page is mapped. -/
def Mapped (m : ℕ → ℕ) (root n : ℕ) : Prop :=
  ∀ k < 2 ^ 36, pte m root (4096 * k) = if k < n then 4096 * k + 3 else 0

theorem identity_entry (k : ℕ) : frameOf (4096 * k) ||| (vmmPresent ||| vmmRw) = 4096 * k + 3 := by
  have hframe : frameOf (4096 * k) = 4096 * k := by
    rw [frameOf, alignDown, Nat.mul_div_cancel_left k (by decide), Nat.mul_comm]
  rw [hframe, ← Nat.or_assoc, entry_eq ⟨k, rfl⟩]

theorem Mapped.store (hm : Mapped v.mem root n) {v' : Vmm} (hk : Keeps root v v') {pt : ℕ}
    (hpt : walk v'.mem root (pathOf (4096 * n)) = some pt) (hn : n < 2 ^ 20) :
    Mapped (v'.store (slot pt (idxPt (4096 * n))) (frameOf (4096 * n) ||| (vmmPresent ||| vmmRw))).mem root (n + 1) := by
  intro k hk'
  by_cases hkn : k = n
  · subst hkn
    rw [hk.tree.pte_store_self _ hpt, identity_entry, if_pos (Nat.lt_succ_self k)]
  · rw [hk.tree.pte_store hpt (by omega), hk.entries, hm k hk']
    split <;> split <;> omega

theorem Building.store (h : Building s₀ root S v) {va pt : ℕ} (hpt : walk v.mem root (pathOf va) = some pt) (e : ℕ) :
    Building s₀ root S (v.store (slot pt (idxPt va)) e) := by
  refine ⟨h.tree.store hpt, fun p hp => ?_, h.drawn⟩
  rw [h.tree.walk_store hpt hp]
  exact h.tables p hp

theorem identityLoop_building (hf : s₀.Framed) {n k : ℕ} (hn : k + n = 2 ^ 20) (h : Building s₀ root (tablesFor k) v)
    (hm : Mapped v.mem root k) :
    (2054 ≤ s₀.supply ∧ Building s₀ root (tablesFor (2 ^ 20)) (identityLoop root n (4096 * k) v) ∧
      Mapped (identityLoop root n (4096 * k) v).mem root (2 ^ 20)) ∨
    (s₀.supply < 2054 ∧ ∃ j < 2 ^ 20, Mapped (identityLoop root n (4096 * k) v).mem root j) := by
  induction n generalizing k v with
  | zero =>
    obtain rfl : k = 2 ^ 20 := by omega
    have hcount := (h.drawn.counts hf).2.2
    rw [card_tablesFor_low] at hcount
    exact .inl ⟨by omega, h, hm⟩
  | succ n ih =>
    obtain ⟨hk, hw⟩ := getPte_spec h.tree (4096 * k) true
    have hb := h.getPte hf (4096 * k)
    rw [← tablesFor_succ] at hb
    rw [identityLoop]
    generalize getPte v root (4096 * k) true = r at hk hw hb
    obtain ⟨_ | pte, v'⟩ := r
    · right
      obtain ⟨-, hlt⟩ := hb.resolve_left (by simp)
      have hle := Finset.card_le_card (tablesFor_mono (show k + 1 ≤ 2 ^ 20 by omega))
      rw [card_tablesFor_low] at hle
      refine ⟨by omega, k, by omega, fun j hj => ?_⟩
      exact (hk.entries _).trans (hm j hj)
    · obtain ⟨pt, hpt, rfl⟩ := hw pte rfl
      have hnext := (hb.resolve_right (by simp)).2
      exact ih (by omega) (hnext.store hpt _) (hm.store hk hpt (by omega))

theorem walk_zeroTable (m : ℕ → ℕ) {f : ℕ} {p : List ℕ} (hp : IsPath p) :
    (walk (zeroTable m f) f p).isSome ↔ p = [] := by
  cases p with
  | nil => simp [walk]
  | cons i p => simp [walk, zeroTable_slot_self m (hp.small i List.mem_cons_self), isPresent_zero]

theorem withRoot_building (hf : v.pmm.Framed) (h : 0 < v.pmm.supply) :
    Building v.pmm (pmmAllocFrames v.pmm 1).1 (tablesFor 0) (withRoot v) ∧
      Mapped (withRoot v).mem (pmmAllocFrames v.pmm 1).1 0 := by
  obtain ⟨k, -, -, hne, haddr, -⟩ := alloc_of_supply hf h
  constructor
  · refine ⟨withRoot_tree hf (by rwa [haddr]), fun p hp => ?_, Drawn.frame .start h⟩
    rw [withRoot, walk_zeroTable v.mem hp]
    simp [tablesFor]
  · intro k _
    have hnone : walk (withRoot v).mem (pmmAllocFrames v.pmm 1).1 (pathOf (4096 * k)) = none := by
      rw [← Option.not_isSome_iff_eq_none, withRoot, walk_zeroTable v.mem (pathOf_isPath _)]
      simp [pathOf]
    rw [pte, hnone, if_neg (Nat.not_lt_zero k)]

theorem vmmInitIdentity_cases (hf : v.pmm.Framed) :
    (v.pmm.supply = 0 ∧ (vmmInitIdentity v).cr3 = v.cr3) ∨
    (0 < v.pmm.supply ∧ (vmmInitIdentity v).cr3 = (pmmAllocFrames v.pmm 1).1 ∧ (pmmAllocFrames v.pmm 1).1 ≠ 0 ∧
      ((2054 ≤ v.pmm.supply ∧ Drawn v.pmm 2054 (vmmInitIdentity v).pmm ∧
        Mapped (vmmInitIdentity v).mem (vmmInitIdentity v).cr3 (2 ^ 20)) ∨
      (v.pmm.supply < 2054 ∧ ∃ j < 2 ^ 20, Mapped (vmmInitIdentity v).mem (vmmInitIdentity v).cr3 j))) := by
  rcases Nat.eq_zero_or_pos v.pmm.supply with hzero | hpos
  · left
    refine ⟨hzero, ?_⟩
    rw [vmmInitIdentity]
    dsimp only
    rw [if_pos (alloc_without_supply hzero)]
  · right
    obtain ⟨k, -, -, hne, haddr, -⟩ := alloc_of_supply hf hpos
    have hroot : (pmmAllocFrames v.pmm 1).1 ≠ 0 := by rwa [haddr]
    obtain ⟨hb, hm⟩ := withRoot_building hf hpos
    have hloop := identityLoop_building hf (n := 2 ^ 32 / 4096) (k := 0) (by decide) hb hm
    rw [vmmInitIdentity_eq hroot]
    refine ⟨hpos, rfl, hroot, ?_⟩
    rcases hloop with ⟨hge, hb', hm'⟩ | hstop
    · refine .inl ⟨hge, ?_, hm'⟩
      have hdrawn := hb'.drawn
      rw [card_tablesFor_low] at hdrawn
      exact hdrawn
    · exact .inr hstop

end Loop

section Translation

theorem translate_mapped (hne : v.cr3 ≠ 0) (hm : Mapped v.mem v.cr3 n) {a : ℕ} (ha : a < 2 ^ 48) :
    vmmVirtToPhys v a = if a / 4096 < n then some a else none := by
  have hpage : pte v.mem v.cr3 a = if a / 4096 < n then 4096 * (a / 4096) + 3 else 0 := by
    rw [← hm (a / 4096) (by omega)]
    apply pte_of_page
    omega
  rw [vmmVirtToPhys_eq, hpage]
  by_cases hlow : a / 4096 < n
  · have hpres : isPresent (4096 * (a / 4096) + 3) = true := by
      rw [isPresent_eq, decide_eq_true_eq]
      omega
    have hoff : a &&& 0xFFF = a % 4096 := Nat.and_two_pow_sub_one_eq_mod a 12
    have hjoin : 4096 * (a / 4096) ||| a % 4096 = a := by
      rw [← Nat.two_pow_add_eq_or_of_lt (i := 12) (Nat.mod_lt a (by decide)) (a / 4096)]
      exact Nat.div_add_mod a 4096
    rw [if_pos hlow, if_pos hlow, if_neg (by simp [hne, hpres]), frameOf_entry ⟨_, rfl⟩, hoff, hjoin]
  · rw [if_neg hlow, if_neg hlow, if_pos (.inr isPresent_zero)]

/-- With frame 0 reserved, an exact free count and 2054 free frames, the low 4 GiB are mapped to themselves and
nothing else is, and 2054 frames have been taken. -/
theorem identity_map (hf : v.pmm.Framed) (hacc : v.pmm.Accounted)
    (h0 : ∀ i < v.pmm.frames, v.pmm.frameAddr i = 0 → v.pmm.bitmap.test i = true)
    (hfree : 2054 ≤ (v.pmm.bitmap.clearBits v.pmm.frames).card) :
    (∀ a < 2 ^ 32, vmmVirtToPhys (vmmInitIdentity v) a = some a) ∧
    (∀ a, 2 ^ 32 ≤ a → a < 2 ^ 48 → vmmVirtToPhys (vmmInitIdentity v) a = none) ∧
    ((∀ i, v.pmm.bitmap.test i = true → (vmmInitIdentity v).pmm.bitmap.test i = true) ∧
      ((vmmInitIdentity v).pmm.bitmap.clearBits (vmmInitIdentity v).pmm.frames).card + 2054 =
        (v.pmm.bitmap.clearBits v.pmm.frames).card ∧
      (vmmInitIdentity v).pmm.free + 2054 * 4096 = v.pmm.free) ∧
    (vmmInitIdentity v).cr3 = (pmmAllocFrames v.pmm 1).1 ∧ (vmmInitIdentity v).cr3 ≠ 0 := by
  have hsupply : v.pmm.supply = (v.pmm.bitmap.clearBits v.pmm.frames).card := by
    rw [Pmm.Accounted] at hacc
    rw [supply_eq h0, hacc, Nat.mul_div_cancel_left _ (by decide), min_self]
  rcases vmmInitIdentity_cases hf with ⟨hzero, -⟩ | ⟨-, hcr3, hne, ⟨-, hdrawn, hm⟩ | ⟨hlt, -⟩⟩
  · omega
  · have hroot : (vmmInitIdentity v).cr3 ≠ 0 := by rwa [hcr3]
    obtain ⟨hcard, hbytes, -⟩ := hdrawn.counts hf
    refine ⟨fun a ha => ?_, fun a hlow ha => ?_, ⟨fun i hi => hdrawn.taken hf hi, hcard, by omega⟩, hcr3, hroot⟩
    · rw [translate_mapped hroot hm (by omega), if_pos (by omega)]
    · rw [translate_mapped hroot hm ha, if_neg (by omega)]
  · omega

def wideFrames : Pmm := ⟨[], 0x100000, 0x1100000, 0, 0, 0x1000000, fun _ => 0⟩

theorem wideFrames_framed : wideFrames.Framed := ⟨by decide, by decide, by decide⟩

theorem wideFrames_card : (wideFrames.bitmap.clearBits wideFrames.frames).card = 4096 := by
  have hfr : wideFrames.frames = 4096 := by
    rw [wideFrames_framed.frames_eq]
    rfl
  have hclear (i : ℕ) : wideFrames.bitmap.test i = false := by
    rw [Bitmap.test_eq]
    exact BitVec.getLsbD_zero
  rw [hfr, Bitmap.clearBits, Finset.filter_true_of_mem fun i _ => hclear i, Finset.card_range]

theorem wideFrames_null (i : ℕ) (_ : i < wideFrames.frames) (h : wideFrames.frameAddr i = 0) :
    wideFrames.bitmap.test i = true := absurd (frameAddr_eq_zero.mp h).1 (by decide)

theorem identity_map_wide : vmmVirtToPhys (vmmInitIdentity ⟨wideFrames, fun _ => 0, 0⟩) 0xB8000 = some 0xB8000 ∧
    vmmVirtToPhys (vmmInitIdentity ⟨wideFrames, fun _ => 0, 0⟩) 0x100000000 = none := by
  have hacc : wideFrames.Accounted := by
    rw [Pmm.Accounted, wideFrames_card]
    rfl
  obtain ⟨hlow, hhigh, -⟩ := identity_map (v := ⟨wideFrames, fun _ => 0, 0⟩) wideFrames_framed hacc wideFrames_null
    (by rw [wideFrames_card]; decide)
  exact ⟨hlow _ (by decide), hhigh _ (by decide) (by decide)⟩

/-- Either the page tables in use are the old ones, or every address below 4 GiB is mapped to itself. -/
def AllOrNothing (v : Vmm) : Prop :=
  (vmmInitIdentity v).cr3 = v.cr3 ∨ ∀ a < 2 ^ 32, vmmVirtToPhys (vmmInitIdentity v) a = some a

/-- The loop is left when the frames run out, and the tables are loaded all the same: it is all or nothing only
when there is no frame for the root or there are frames for all tables, or when the new root has the address of
the old one. -/
theorem identity_all_or_nothing_iff (hf : v.pmm.Framed) :
    AllOrNothing v ↔ v.pmm.supply = 0 ∨ 2054 ≤ v.pmm.supply ∨ (pmmAllocFrames v.pmm 1).1 = v.cr3 := by
  rcases vmmInitIdentity_cases hf with ⟨hzero, hcr3⟩ | ⟨hpos, hcr3, hne, ⟨hge, -, hm⟩ | ⟨hlt, j, hj, hm⟩⟩
  · exact iff_of_true (.inl hcr3) (.inl hzero)
  · refine iff_of_true (.inr fun a ha => ?_) (.inr (.inl hge))
    rw [translate_mapped (by rwa [hcr3]) hm (by omega), if_pos (by omega)]
  · constructor
    · rintro (hsame | hall)
      · exact .inr (.inr (hcr3.symm.trans hsame))
      · -- the page at which the loop stopped
        have hpage := hall (4096 * j) (by omega)
        rw [translate_mapped (by rwa [hcr3]) hm (by omega), if_neg (by omega)] at hpage
        simp at hpage
    · rintro (hzero | hge | hsame)
      · omega
      · omega
      · exact .inl (hcr3.trans hsame)

theorem identity_all_or_nothing_wide : AllOrNothing ⟨wideFrames, fun _ => 0, 0⟩ := by
  apply (identity_all_or_nothing_iff wideFrames_framed).mpr
  right
  left
  rw [supply_eq wideFrames_null, wideFrames_card]
  decide

def oneFrame : Pmm := ⟨[], 0x100000, 0x101000, 0, 0, 4096, fun _ => 0⟩

theorem empty_tables_are_loaded : (vmmInitIdentity ⟨oneFrame, fun _ => 0, 0⟩).cr3 = 0x100000 ∧
    vmmVirtToPhys (vmmInitIdentity ⟨oneFrame, fun _ => 0, 0⟩) 0 = none ∧
    ¬ AllOrNothing ⟨oneFrame, fun _ => 0, 0⟩ := by
  have hcr3 : (vmmInitIdentity ⟨oneFrame, fun _ => 0, 0⟩).cr3 = 0x100000 := by decide +kernel
  have hnone : vmmVirtToPhys (vmmInitIdentity ⟨oneFrame, fun _ => 0, 0⟩) 0 = none := by decide +kernel
  refine ⟨hcr3, hnone, ?_⟩
  rintro (hsame | hall)
  · rw [hcr3] at hsame
    exact absurd hsame (by decide)
  · have hzero := hall 0 (by decide)
    rw [hnone] at hzero
    simp at hzero

end Translation

end DexOs.Paging
