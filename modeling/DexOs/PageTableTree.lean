import DexOs.PageTables

/-! The tables below a root form a tree, and each walk touches its own page only. -/

namespace DexOs.Paging

open DexOs.Lib DexOs.Frames

def walk (m : ℕ → ℕ) (t : ℕ) : List ℕ → Option ℕ
  | [] => some t
  | i :: p => if isPresent (m (slot t i)) then walk m (frameOf (m (slot t i))) p else none

def pathOf (va : ℕ) : List ℕ := [idxPml4 va, idxPdp va, idxPd va]

def pte (m : ℕ → ℕ) (root va : ℕ) : ℕ :=
  match walk m root (pathOf va) with
  | none => 0
  | some pt => m (slot pt (idxPt va))

structure IsPath (p : List ℕ) : Prop where
  short : p.length ≤ 3
  small : ∀ i ∈ p, i < 512

/-- No frame serves as two tables, and every table is a frame marked allocated. -/
structure Tree (v : Vmm) (root : ℕ) : Prop where
  framed : v.pmm.Framed
  unique : ∀ p q t, IsPath p → IsPath q → walk v.mem root p = some t → walk v.mem root q = some t → p = q
  taken : ∀ p t, IsPath p → walk v.mem root p = some t →
    ∃ i < v.pmm.frames, t = v.pmm.frameAddr i ∧ v.pmm.bitmap.test i = true

theorem and_0x1FF (n : ℕ) : n &&& 0x1FF = n % 512 := Nat.and_two_pow_sub_one_eq_mod n 9

theorem pathOf_isPath (va : ℕ) : IsPath (pathOf va) := by
  refine ⟨le_refl _, ?_⟩
  simp only [pathOf, List.forall_mem_cons, idxPml4, idxPdp, idxPd, and_0x1FF]
  exact ⟨Nat.mod_lt _ (by decide), Nat.mod_lt _ (by decide), Nat.mod_lt _ (by decide), by simp⟩

theorem idxPt_lt (va : ℕ) : idxPt va < 512 := by
  rw [idxPt, and_0x1FF]
  exact Nat.mod_lt _ (by decide)

theorem page_eq_of_indices {va va' : ℕ} (hp : pathOf va = pathOf va') (hi : idxPt va = idxPt va') :
    va / 2 ^ 12 % 2 ^ 36 = va' / 2 ^ 12 % 2 ^ 36 := by
  simp only [pathOf, idxPml4, idxPdp, idxPd, idxPt, and_0x1FF, Nat.shiftRight_eq_div_pow,
    List.cons.injEq, and_true] at hp hi
  omega

theorem walk_append (m : ℕ → ℕ) (t : ℕ) (p q : List ℕ) :
    walk m t (p ++ q) = (walk m t p).bind fun u => walk m u q := by
  induction p generalizing t with
  | nil => rfl
  | cons i p ih =>
    simp only [List.cons_append, walk]
    split_ifs
    · exact ih _
    · rfl

theorem walk_concat {m : ℕ → ℕ} {t i u : ℕ} {p : List ℕ} : walk m t (p ++ [i]) = some u ↔
    ∃ w, walk m t p = some w ∧ isPresent (m (slot w i)) = true ∧ u = frameOf (m (slot w i)) := by
  rw [walk_append, Option.bind_eq_some_iff]
  refine exists_congr fun w => and_congr_right fun _ => ?_
  simp only [walk]
  split_ifs with h <;> simp [h, eq_comm]

theorem IsPath.parent {p : List ℕ} {i : ℕ} (h : IsPath (p ++ [i])) : IsPath p ∧ p.length < 3 ∧ i < 512 := by
  have hs := h.short
  rw [List.length_append, List.length_singleton] at hs
  exact ⟨⟨by omega, fun j hj => h.small j (List.mem_append_left _ hj)⟩, by omega, h.small i (by simp)⟩

variable {v : Vmm} {root : ℕ}

theorem Tree.aligned (h : Tree v root) {p : List ℕ} {t : ℕ} (hp : IsPath p)
    (ht : walk v.mem root p = some t) : 4096 ∣ t := by
  obtain ⟨i, -, rfl, -⟩ := h.taken p t hp ht
  exact h.framed.frame_aligned i

theorem slot_inj {t u i j : ℕ} (ht : 4096 ∣ t) (hu : 4096 ∣ u) (hi : i < 512) (hj : j < 512)
    (h : slot t i = slot u j) : t = u ∧ i = j := by
  simp only [slot] at h
  omega

theorem zeroTable_slot_self (m : ℕ → ℕ) {t i : ℕ} (hi : i < 512) : zeroTable m t (slot t i) = 0 := by
  rw [zeroTable, if_pos]
  simp only [slot]
  omega

theorem zeroTable_slot_of_ne (m : ℕ → ℕ) {t u i : ℕ} (ht : 4096 ∣ t) (hu : 4096 ∣ u) (hi : i < 512)
    (hne : u ≠ t) : zeroTable m t (slot u i) = m (slot u i) := by
  rw [zeroTable, if_neg]
  simp only [slot]
  omega

theorem entry_eq {f : ℕ} (hf : 4096 ∣ f) : f ||| vmmPresent ||| vmmRw = f + 3 := by
  obtain ⟨k, rfl⟩ := hf
  rw [Nat.or_assoc]
  exact (Nat.two_pow_add_eq_or_of_lt (i := 12) (b := 3) (by decide) k).symm

theorem isPresent_eq (e : ℕ) : isPresent e = decide (e % 2 = 1) := by
  rw [isPresent, vmmPresent, Nat.and_one_is_mod]
  rcases Nat.mod_two_eq_zero_or_one e with h | h <;> simp [h]

theorem isPresent_zero : isPresent 0 = false := by decide

theorem frameOf_entry {f : ℕ} (hf : 4096 ∣ f) : frameOf (f + 3) = f := by
  simp only [frameOf, alignDown]
  omega

structure Linkable (v : Vmm) (root : ℕ) (p : List ℕ) (t i f : ℕ) : Prop where
  tree : Tree v root
  path : IsPath (p ++ [i])
  table : walk v.mem root p = some t
  absent : isPresent (v.mem (slot t i)) = false
  fresh : ∃ k < v.pmm.frames, v.pmm.bitmap.test k = false ∧ f = v.pmm.frameAddr k

def linkTable (m : ℕ → ℕ) (t i f : ℕ) : ℕ → ℕ := Function.update (zeroTable m f) (slot t i) (f + 3)

namespace Linkable

variable {p : List ℕ} {t i f : ℕ}

theorem aligned (l : Linkable v root p t i f) : 4096 ∣ t ∧ 4096 ∣ f := by
  obtain ⟨k, -, -, rfl⟩ := l.fresh
  exact ⟨l.tree.aligned l.path.parent.1 l.table, l.tree.framed.frame_aligned k⟩

theorem ne_fresh (l : Linkable v root p t i f) {q : List ℕ} {u : ℕ} (hq : IsPath q)
    (hu : walk v.mem root q = some u) : u ≠ f := by
  obtain ⟨k, -, hfree, rfl⟩ := l.fresh
  rintro rfl
  obtain ⟨j, hj, he, htest⟩ := l.tree.taken q _ hq hu
  have hjk : k = j := by
    simp only [Pmm.frameAddr, frameSize_eq] at he
    omega
  rw [← hjk, hfree] at htest
  exact Bool.noConfusion htest

theorem mem_old (l : Linkable v root p t i f) {q : List ℕ} {u j : ℕ} (hq : IsPath q)
    (hu : walk v.mem root q = some u) (hj : j < 512) (h : ¬ (u = t ∧ j = i)) :
    linkTable v.mem t i f (slot u j) = v.mem (slot u j) := by
  obtain ⟨htal, hfal⟩ := l.aligned
  have hual := l.tree.aligned hq hu
  rw [linkTable, Function.update_of_ne (fun he => h (slot_inj hual htal hj l.path.parent.2.2 he)),
    zeroTable_slot_of_ne v.mem hfal hual hj (l.ne_fresh hq hu)]

theorem mem_new (l : Linkable v root p t i f) {j : ℕ} (hj : j < 512) :
    linkTable v.mem t i f (slot f j) = 0 := by
  obtain ⟨htal, hfal⟩ := l.aligned
  have hne := l.ne_fresh l.path.parent.1 l.table
  rw [linkTable, Function.update_of_ne (fun he => hne (slot_inj hfal htal hj l.path.parent.2.2 he).1.symm),
    zeroTable_slot_self v.mem hj]

theorem walk_iff (l : Linkable v root p t i f) {q : List ℕ} (hq : IsPath q) (u : ℕ) :
    walk (linkTable v.mem t i f) root q = some u ↔
      walk v.mem root q = some u ∨ (q = p ++ [i] ∧ u = f) := by
  obtain ⟨htal, hfal⟩ := l.aligned
  induction q using List.reverseRecOn generalizing u with
  | nil => simp [walk]
  | append_singleton q j ih =>
    obtain ⟨hq', -, hj⟩ := hq.parent
    rw [walk_concat, walk_concat]
    constructor
    · rintro ⟨w, hw, hpres, hu⟩
      rcases (ih hq' w).mp hw with hw' | ⟨rfl, rfl⟩
      · by_cases hslot : w = t ∧ j = i
        · obtain ⟨rfl, rfl⟩ := hslot
          rw [linkTable, Function.update_self, frameOf_entry hfal] at hu
          exact .inr ⟨by rw [l.tree.unique q p w hq' l.path.parent.1 hw' l.table], hu⟩
        · rw [l.mem_old hq' hw' hj hslot] at hpres hu
          exact .inl ⟨w, hw', hpres, hu⟩
      · rw [l.mem_new hj, isPresent_zero] at hpres
        exact Bool.noConfusion hpres
    · rintro (⟨w, hw, hpres, hu⟩ | ⟨hqj, rfl⟩)
      · have hslot : ¬ (w = t ∧ j = i) := by
          rintro ⟨rfl, rfl⟩
          rw [l.absent] at hpres
          exact Bool.noConfusion hpres
        refine ⟨w, (ih hq' w).mpr (.inl hw), ?_, ?_⟩
        · rwa [l.mem_old hq' hw hj hslot]
        · rwa [l.mem_old hq' hw hj hslot]
      · obtain ⟨rfl, hji⟩ := List.append_inj' hqj rfl
        obtain rfl := List.singleton_inj.mp hji
        refine ⟨t, (ih hq' t).mpr (.inl l.table), ?_, ?_⟩
        · rw [linkTable, Function.update_self, isPresent_eq]
          simp only [decide_eq_true_eq]
          omega
        · rw [linkTable, Function.update_self, frameOf_entry hfal]

theorem pte_eq (l : Linkable v root p t i f) (va : ℕ) :
    pte (linkTable v.mem t i f) root va = pte v.mem root va := by
  have hva := pathOf_isPath va
  have hwalk := l.walk_iff hva
  unfold pte
  cases hold : walk v.mem root (pathOf va) with
  | some u =>
    rw [(hwalk u).mpr (.inl hold)]
    -- the table has a path of length three, so it is not `t`
    refine l.mem_old hva hold (idxPt_lt va) ?_
    rintro ⟨rfl, -⟩
    have hlen := congrArg List.length (l.tree.unique _ _ u hva l.path.parent.1 hold l.table)
    have hshort := l.path.parent.2.1
    simp only [pathOf, List.length_cons, List.length_nil] at hlen
    omega
  | none =>
    cases hnew : walk (linkTable v.mem t i f) root (pathOf va) with
    | none => rfl
    | some u =>
      rcases (hwalk u).mp hnew with hu | ⟨-, rfl⟩
      · simp [hold] at hu
      · exact l.mem_new (idxPt_lt va)

theorem tree_link (l : Linkable v root p t i f) {v' : Vmm} (hmem : v'.mem = linkTable v.mem t i f)
    (hsame : SameFrame v.pmm v'.pmm)
    (hkeep : ∀ k, v.pmm.bitmap.test k = true → v'.pmm.bitmap.test k = true)
    (hmark : ∀ k, f = v.pmm.frameAddr k → v'.pmm.bitmap.test k = true) : Tree v' root := by
  refine ⟨hsame.framed l.tree.framed, fun q q' u hq hq' hu hu' => ?_, fun q u hq hu => ?_⟩
  · rw [hmem] at hu hu'
    rcases (l.walk_iff hq u).mp hu with hold | ⟨rfl, huf⟩
    · rcases (l.walk_iff hq' u).mp hu' with hold' | ⟨-, huf⟩
      · exact l.tree.unique q q' u hq hq' hold hold'
      · exact absurd huf (l.ne_fresh hq hold)
    · rcases (l.walk_iff hq' u).mp hu' with hold' | ⟨rfl, -⟩
      · exact absurd huf (l.ne_fresh hq' hold')
      · rfl
  · rw [hmem] at hu
    simp only [hsame.frames, hsame.frameAddr]
    rcases (l.walk_iff hq u).mp hu with hu | ⟨-, rfl⟩
    · obtain ⟨k, hk, he, htest⟩ := l.tree.taken q u hq hu
      exact ⟨k, hk, he, hkeep k htest⟩
    · obtain ⟨k, hk, -, he⟩ := l.fresh
      exact ⟨k, hk, he, hmark k he⟩

end Linkable

theorem Tree.walk_store (h : Tree v root) {va pt e : ℕ} (hpt : walk v.mem root (pathOf va) = some pt)
    {q : List ℕ} (hq : IsPath q) :
    walk (v.store (slot pt (idxPt va)) e).mem root q = walk v.mem root q := by
  have hptal := h.aligned (pathOf_isPath va) hpt
  induction q using List.reverseRecOn with
  | nil => rfl
  | append_singleton q j ih =>
    obtain ⟨hq', hq3, hj⟩ := hq.parent
    rw [walk_append, walk_append, ih hq']
    cases hw : walk v.mem root q with
    | none => rfl
    | some w =>
      have hne : slot w j ≠ slot pt (idxPt va) := fun he => by
        obtain ⟨rfl, -⟩ := slot_inj (h.aligned hq' hw) hptal hj (idxPt_lt va) he
        rw [h.unique q _ w hq' (pathOf_isPath va) hw hpt] at hq3
        simp [pathOf] at hq3
      simp only [Option.bind_some, walk, Vmm.store, Function.update_of_ne hne]

theorem Tree.store (h : Tree v root) {va pt e : ℕ} (hpt : walk v.mem root (pathOf va) = some pt) :
    Tree (v.store (slot pt (idxPt va)) e) root := by
  refine ⟨h.framed, fun q q' u hq hq' hu hu' => ?_, fun q u hq hu => ?_⟩
  · rw [h.walk_store hpt hq] at hu
    rw [h.walk_store hpt hq'] at hu'
    exact h.unique q q' u hq hq' hu hu'
  · rw [h.walk_store hpt hq] at hu
    exact h.taken q u hq hu

theorem Tree.pte_store (h : Tree v root) {va va' pt e : ℕ} (hpt : walk v.mem root (pathOf va) = some pt)
    (hne : va' / 2 ^ 12 % 2 ^ 36 ≠ va / 2 ^ 12 % 2 ^ 36) :
    pte (v.store (slot pt (idxPt va)) e).mem root va' = pte v.mem root va' := by
  have hva' := pathOf_isPath va'
  unfold pte
  rw [h.walk_store hpt hva']
  cases hu : walk v.mem root (pathOf va') with
  | none => rfl
  | some u =>
    refine Function.update_of_ne (fun he => hne ?_) _ _
    obtain ⟨rfl, hidx⟩ := slot_inj (h.aligned hva' hu) (h.aligned (pathOf_isPath va) hpt)
      (idxPt_lt va') (idxPt_lt va) he
    exact page_eq_of_indices (h.unique _ _ u hva' (pathOf_isPath va) hu hpt) hidx

end DexOs.Paging
