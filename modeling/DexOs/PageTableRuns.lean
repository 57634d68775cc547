import DexOs.PageTableTree
import DexOs.FrameRuns

/-! Page tables over whole runs of `vmm_map_page` and `vmm_unmap_page`. -/

namespace DexOs.Paging

open DexOs.Lib DexOs.Frames

variable {v : Vmm} {root : ℕ}

structure Keeps (root : ℕ) (v v' : Vmm) : Prop where
  tree : Tree v' root
  entries : ∀ va, pte v'.mem root va = pte v.mem root va
  cr3 : v'.cr3 = v.cr3

theorem Keeps.refl (h : Tree v root) : Keeps root v v := ⟨h, fun _ => rfl, rfl⟩

theorem Keeps.trans {v' v'' : Vmm} (h : Keeps root v v') (h' : Keeps root v' v'') : Keeps root v v'' :=
  ⟨h'.tree, fun va => (h'.entries va).trans (h.entries va), h'.cr3.trans h.cr3⟩

theorem alloc_one {s : Pmm} (hf : s.Framed) :
    SameFrame s (pmmAllocFrames s 1).2 ∧
      (∀ k, s.bitmap.test k = true → (pmmAllocFrames s 1).2.bitmap.test k = true) ∧
      ((pmmAllocFrames s 1).1 ≠ 0 → ∃ k < s.frames, s.bitmap.test k = false ∧
        (pmmAllocFrames s 1).1 = s.frameAddr k ∧ (pmmAllocFrames s 1).2.bitmap.test k = true) := by
  rcases allocBelowIndex_cases s 1 s.frames with h | ⟨start, -, hle, hclear, -, h⟩
  · rw [pmmAllocFrames, h]
    exact ⟨SameFrame.refl s, fun _ hk => hk, fun hne => absurd rfl hne⟩
  · rw [pmmAllocFrames, h]
    have hlt := hf.frame_lt (i := start) (by omega)
    have hlim := hf.limit_le
    refine ⟨⟨rfl, rfl, rfl⟩, fun k hk => ?_, fun _ => ⟨start, by omega, ?_, ?_, ?_⟩⟩
    · simp only [Bitmap.test_fill, hk, ite_self]
    · exact hclear start (le_refl _) (by omega)
    · exact Nat.mod_eq_of_lt (by omega)
    · simp [Bitmap.test_fill]

theorem Tree.marked (h : Tree v root) {s : Pmm} (hsame : SameFrame v.pmm s)
    (hkeep : ∀ k, v.pmm.bitmap.test k = true → s.bitmap.test k = true) : Tree { v with pmm := s } root := by
  refine ⟨hsame.framed h.framed, h.unique, fun p t hp ht => ?_⟩
  obtain ⟨k, hk, he, htest⟩ := h.taken p t hp ht
  exact ⟨k, by rwa [hsame.frames], by rw [hsame.frameAddr, he], hkeep k htest⟩

theorem nextTable_spec (h : Tree v root) {p : List ℕ} {t i : ℕ} (hp : IsPath (p ++ [i]))
    (ht : walk v.mem root p = some t) (create : Bool) :
    Keeps root v (nextTable v t i create).2 ∧ ∀ u, (nextTable v t i create).1 = some u →
      walk (nextTable v t i create).2.mem root (p ++ [i]) = some u := by
  unfold nextTable
  dsimp only
  split_ifs with hpres hcreate hzero
  · refine ⟨Keeps.refl h, fun u hu => ?_⟩
    exact walk_concat.mpr ⟨t, ht, hpres, (Option.some.inj hu).symm⟩
  · exact ⟨Keeps.refl h, fun u hu => by simp at hu⟩
  · obtain ⟨hsame, hkeep, -⟩ := alloc_one h.framed
    exact ⟨⟨h.marked hsame hkeep, fun _ => rfl, rfl⟩, fun u hu => by simp at hu⟩
  · obtain ⟨hsame, hkeep, hfresh⟩ := alloc_one h.framed
    obtain ⟨k, hk, hfree, haddr, htest⟩ := hfresh hzero
    have l : Linkable v root p t i (v.pmm.frameAddr k) :=
      ⟨h, hp, ht, Bool.not_eq_true _ ▸ hpres, k, hk, hfree, rfl⟩
    have hal := l.aligned.2
    rw [haddr, entry_eq hal, frameOf_entry hal]
    refine ⟨⟨l.tree_link rfl hsame hkeep fun j hj => ?_, l.pte_eq, rfl⟩, fun u hu => ?_⟩
    · rwa [← frameAddr_inj hj]
    · exact (l.walk_iff hp u).mpr (.inr ⟨rfl, (Option.some.inj hu).symm⟩)

theorem pathOf_prefix (va : ℕ) : IsPath [idxPml4 va] ∧ IsPath [idxPml4 va, idxPdp va] := by
  have h := pathOf_isPath va
  have h2 := (IsPath.parent (p := [idxPml4 va, idxPdp va]) h).1
  exact ⟨(IsPath.parent (p := [idxPml4 va]) h2).1, h2⟩

theorem getPte_spec (h : Tree v root) (va : ℕ) (create : Bool) :
    Keeps root v (getPte v root va create).2 ∧ ∀ a, (getPte v root va create).1 = some a →
      ∃ pt, walk (getPte v root va create).2.mem root (pathOf va) = some pt ∧ a = slot pt (idxPt va) := by
  obtain ⟨hp1, hp2⟩ := pathOf_prefix va
  obtain ⟨hk1, hw1⟩ := nextTable_spec h (p := []) hp1 rfl create
  unfold getPte
  generalize nextTable v root (idxPml4 va) create = r1 at hk1 hw1
  obtain ⟨_ | pdpt, v1⟩ := r1
  · exact ⟨hk1, fun a ha => by simp at ha⟩
  obtain ⟨hk2, hw2⟩ := nextTable_spec hk1.tree (p := [idxPml4 va]) hp2 (hw1 pdpt rfl) create
  dsimp only
  generalize nextTable v1 pdpt (idxPdp va) create = r2 at hk2 hw2
  obtain ⟨_ | pd, v2⟩ := r2
  · exact ⟨hk1.trans hk2, fun a ha => by simp at ha⟩
  obtain ⟨hk3, hw3⟩ := nextTable_spec hk2.tree (p := [idxPml4 va, idxPdp va]) (pathOf_isPath va)
    (hw2 pd rfl) create
  dsimp only
  generalize nextTable v2 pd (idxPd va) create = r3 at hk3 hw3
  obtain ⟨_ | pt, v3⟩ := r3
  · exact ⟨hk1.trans (hk2.trans hk3), fun a ha => by simp at ha⟩
  · exact ⟨hk1.trans (hk2.trans hk3), fun a ha => ⟨pt, hw3 pt rfl, (Option.some.inj ha).symm⟩⟩

theorem nextTable_lookup (v : Vmm) (t i : ℕ) :
    nextTable v t i false =
      (if isPresent (v.mem (slot t i)) then some (frameOf (v.mem (slot t i))) else none, v) := by
  unfold nextTable
  dsimp only
  rw [if_pos (Eq.refl false)]
  split_ifs <;> rfl

theorem getPte_lookup (v : Vmm) (root va : ℕ) :
    getPte v root va false = ((walk v.mem root (pathOf va)).map (slot · (idxPt va)), v) := by
  unfold getPte pathOf
  simp only [nextTable_lookup, walk]
  by_cases h1 : isPresent (v.mem (slot root (idxPml4 va)))
  · simp only [h1, ↓reduceIte]
    generalize frameOf (v.mem (slot root (idxPml4 va))) = pdpt
    by_cases h2 : isPresent (v.mem (slot pdpt (idxPdp va)))
    · simp only [h2, ↓reduceIte]
      generalize frameOf (v.mem (slot pdpt (idxPdp va))) = pd
      by_cases h3 : isPresent (v.mem (slot pd (idxPd va))) <;> simp [h3]
    · simp [h2]
  · simp [h1]

theorem vmmVirtToPhys_eq (v : Vmm) (virt : ℕ) : vmmVirtToPhys v virt =
    if v.cr3 = 0 ∨ isPresent (pte v.mem v.cr3 virt) = false then none
    else some (frameOf (pte v.mem v.cr3 virt) ||| (virt &&& 0xFFF)) := by
  unfold vmmVirtToPhys pte
  rw [getPte_lookup]
  by_cases h0 : v.cr3 = 0
  · simp [h0]
  · cases walk v.mem v.cr3 (pathOf virt) with
    | none => simp [h0, isPresent_zero]
    | some pt => by_cases hp : isPresent (v.mem (slot pt (idxPt virt))) <;> simp [h0, hp]

structure Confined (root va : ℕ) (v v' : Vmm) : Prop where
  tree : Tree v' root
  entries : ∀ va', va' / 2 ^ 12 % 2 ^ 36 ≠ va / 2 ^ 12 % 2 ^ 36 → pte v'.mem root va' = pte v.mem root va'
  cr3 : v'.cr3 = v.cr3

theorem Keeps.confined {v' : Vmm} (h : Keeps root v v') (va : ℕ) : Confined root va v v' :=
  ⟨h.tree, fun va' _ => h.entries va', h.cr3⟩

theorem Keeps.store {v' : Vmm} (h : Keeps root v v') {va pt : ℕ} (e : ℕ)
    (hpt : walk v'.mem root (pathOf va) = some pt) :
    Confined root va v (v'.store (slot pt (idxPt va)) e) :=
  ⟨h.tree.store hpt, fun va' hne => (h.tree.pte_store hpt hne).trans (h.entries va'), h.cr3⟩

theorem vmmMapPage_confined (h : Tree v v.cr3) (virt phys flags : ℕ) :
    Confined v.cr3 virt v (vmmMapPage v virt phys flags).2 := by
  obtain ⟨hk, hw⟩ := getPte_spec h virt true
  unfold vmmMapPage
  split_ifs
  · exact (Keeps.refl h).confined virt
  · generalize getPte v v.cr3 virt true = r at hk hw
    obtain ⟨_ | a, v'⟩ := r
    · exact hk.confined virt
    · obtain ⟨pt, hpt, rfl⟩ := hw a rfl
      exact hk.store _ hpt

theorem vmmUnmapPage_confined (h : Tree v v.cr3) (virt : ℕ) :
    Confined v.cr3 virt v (vmmUnmapPage v virt).2 := by
  obtain ⟨hk, hw⟩ := getPte_spec h virt false
  unfold vmmUnmapPage
  split_ifs
  · exact (Keeps.refl h).confined virt
  · generalize getPte v v.cr3 virt false = r at hk hw
    obtain ⟨_ | a, v'⟩ := r
    · exact hk.confined virt
    · obtain ⟨pt, hpt, rfl⟩ := hw a rfl
      exact hk.store _ hpt

theorem identityLoop_tree {pml4 : ℕ} (h : Tree v pml4) (n a : ℕ) : Tree (identityLoop pml4 n a v) pml4 := by
  induction n generalizing a v with
  | zero => exact h
  | succ n ih =>
    obtain ⟨hk, hw⟩ := getPte_spec h a true
    rw [identityLoop]
    generalize getPte v pml4 a true = r at hk hw
    obtain ⟨_ | pte, v'⟩ := r
    · exact hk.tree
    · obtain ⟨pt, hpt, rfl⟩ := hw pte rfl
      exact ih (hk.tree.store hpt) _

def withRoot (v : Vmm) : Vmm :=
  { v with pmm := (pmmAllocFrames v.pmm 1).2, mem := zeroTable v.mem (pmmAllocFrames v.pmm 1).1 }

theorem withRoot_tree (hf : v.pmm.Framed) (henough : (pmmAllocFrames v.pmm 1).1 ≠ 0) :
    Tree (withRoot v) (pmmAllocFrames v.pmm 1).1 := by
  obtain ⟨hsame, -, hfresh⟩ := alloc_one hf
  obtain ⟨k, hk, -, haddr, htest⟩ := hfresh henough
  unfold withRoot
  generalize (pmmAllocFrames v.pmm 1).1 = f at haddr
  generalize (pmmAllocFrames v.pmm 1).2 = s at hsame htest
  have honly : ∀ p t, IsPath p → walk (zeroTable v.mem f) f p = some t → p = [] ∧ t = f := by
    intro p t hp ht
    cases p with
    | nil => exact ⟨rfl, (Option.some.inj ht).symm⟩
    | cons i p =>
      rw [walk, zeroTable_slot_self v.mem (hp.small i List.mem_cons_self), isPresent_zero] at ht
      simp at ht
  refine ⟨hsame.framed hf, fun p q t hp hq h1 h2 => ?_, fun p t hp h1 => ?_⟩
  · exact (honly p t hp h1).1.trans (honly q t hq h2).1.symm
  · refine ⟨k, by rwa [hsame.frames], ?_, htest⟩
    rw [hsame.frameAddr, ← haddr]
    exact (honly p t hp h1).2

theorem vmmInitIdentity_eq (henough : (pmmAllocFrames v.pmm 1).1 ≠ 0) :
    vmmInitIdentity v = vmmLoadCr3 (identityLoop (pmmAllocFrames v.pmm 1).1 (2 ^ 32 / 4096) 0 (withRoot v))
      (pmmAllocFrames v.pmm 1).1 := by
  unfold vmmInitIdentity
  dsimp only
  rw [if_neg henough, withRoot]

theorem vmmInitIdentity_tree (hf : v.pmm.Framed) (henough : (pmmAllocFrames v.pmm 1).1 ≠ 0) :
    Tree (vmmInitIdentity v) (vmmInitIdentity v).cr3 ∧ (vmmInitIdentity v).cr3 ≠ 0 := by
  have h := identityLoop_tree (withRoot_tree hf henough) (2 ^ 32 / 4096) 0
  rw [vmmInitIdentity_eq henough]
  exact ⟨⟨h.framed, h.unique, h.taken⟩, henough⟩

inductive Call
  | map (virt phys flags : ℕ)
  | unmap (virt : ℕ)

def Call.virt : Call → ℕ
  | .map virt _ _ => virt
  | .unmap virt => virt

def Call.apply : Call → Vmm → ℤ × Vmm
  | .map virt phys flags, v => vmmMapPage v virt phys flags
  | .unmap virt, v => vmmUnmapPage v virt

theorem Call.confined (c : Call) (h : Tree v v.cr3) : Confined v.cr3 c.virt v (c.apply v).2 := by
  cases c with
  | map virt phys flags => exact vmmMapPage_confined h virt phys flags
  | unmap virt => exact vmmUnmapPage_confined h virt

def run (v : Vmm) (calls : List Call) : Vmm := calls.foldl (fun v c => (c.apply v).2) v

theorem run_tree (h : Tree v v.cr3) (calls : List Call) :
    Tree (run v calls) (run v calls).cr3 ∧ (run v calls).cr3 = v.cr3 := by
  induction calls generalizing v with
  | nil => exact ⟨h, rfl⟩
  | cons c calls ih =>
    have hc := c.confined h
    have htree : Tree (c.apply v).2 (c.apply v).2.cr3 := hc.cr3.symm ▸ hc.tree
    obtain ⟨ht, hr⟩ := ih htree
    exact ⟨ht, hr.trans hc.cr3⟩

/-- After `vmm_init_identity` and any calls, the tables below `g_cr3_phys` form a tree of allocated
frames, and one more call changes no translation outside its own page. -/
theorem tables_tree_of_run {fuel info : ℕ} {storage : Bitmap} {m : Memory} {fromUefi : Bool} {s₀ : Pmm}
    (hinit : pmmInit fuel storage m info fromUefi = some s₀) {reserved : List (ℕ × ℕ)} {live : List Alloc}
    (hr : Reach (reserveAll s₀ reserved) v.pmm live) (henough : (pmmAllocFrames v.pmm 1).1 ≠ 0)
    (calls : List Call) :
    (run (vmmInitIdentity v) calls).cr3 ≠ 0 ∧
    Tree (run (vmmInitIdentity v) calls) (run (vmmInitIdentity v) calls).cr3 ∧
    ∀ c : Call, ∀ va, va / 2 ^ 12 % 2 ^ 36 ≠ c.virt / 2 ^ 12 % 2 ^ 36 →
      vmmVirtToPhys (c.apply (run (vmmInitIdentity v) calls)).2 va =
        vmmVirtToPhys (run (vmmInitIdentity v) calls) va := by
  have hf := ((reserveAll_same s₀ reserved).trans hr.same).framed (pmmInit_framed hinit)
  obtain ⟨h0, hne⟩ := vmmInitIdentity_tree hf henough
  obtain ⟨htree, hcr3⟩ := run_tree h0 calls
  refine ⟨by rwa [hcr3], htree, fun c va hva => ?_⟩
  have hc := c.confined htree
  rw [vmmVirtToPhys_eq, vmmVirtToPhys_eq, hc.cr3, hc.entries va hva]

theorem tables_tree_of_run_small :
    ∃ v : Vmm, (pmmAllocFrames v.pmm 1).1 = 0x101000 ∧ Tree (run (vmmInitIdentity v) [.map 0x200000 0 3])
      (run (vmmInitIdentity v) [.map 0x200000 0 3]).cr3 := by
  obtain ⟨s₀, hinit, h1⟩ : ∃ s₀, pmmInit 4 (fun _ => 0) smallInfo 8 false = some s₀ ∧
      (pmmAllocFrames s₀ 1).1 = 0x101000 := by
    refine ⟨initFromMap (fun _ => 0) (.mmap [⟨0x100000, 0x10000, 1⟩]), ?_, by decide +kernel⟩
    rw [pmmInit, readMemoryMap_smallInfo]
    rfl
  have hstart : Reach (reserveAll s₀ []) s₀ [] := Reach.start
  refine ⟨⟨s₀, fun _ => 0, 0⟩, h1, ?_⟩
  exact (tables_tree_of_run hinit hstart (by rw [h1]; decide) [.map 0x200000 0 3]).2.1

end DexOs.Paging
