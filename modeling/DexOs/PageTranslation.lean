import DexOs.PageTableRuns
import Mathlib.Data.Nat.Bitwise

/-! Mapping a page and translating addresses in it again. -/

namespace DexOs.Paging

open DexOs.Lib DexOs.Frames

def vmmUs : ℕ := 4
def vmmPwt : ℕ := 8
def vmmPcd : ℕ := 16
def vmmAccessed : ℕ := 32
def vmmDirty : ℕ := 64
def vmmGlobal : ℕ := 256
def vmmNx : ℕ := 2 ^ 63

def vmmFlags : List ℕ :=
  [vmmPresent, vmmRw, vmmUs, vmmPwt, vmmPcd, vmmAccessed, vmmDirty, vmmPs, vmmGlobal, vmmNx]

def IsFlags (flags : ℕ) : Prop :=
  ∃ l, vmmPresent ∈ l ∧ l ⊆ vmmFlags ∧ flags = l.foldr (· ||| ·) 0

def Translates (v : Vmm) (virt phys : ℕ) : Prop :=
  ∀ va, va / 4096 = virt / 4096 → vmmVirtToPhys v va = some (frameOf phys ||| (va &&& 0xFFF))

def Unmapped (v : Vmm) (virt : ℕ) : Prop := ∀ va, va / 4096 = virt / 4096 → vmmVirtToPhys v va = none

structure RoundTrip (v : Vmm) (virt phys flags : ℕ) : Prop where
  map : Translates (vmmMapPage v virt phys flags).2 virt phys
  unmap : (vmmUnmapPage (vmmMapPage v virt phys flags).2 virt).1 = 0 →
    Unmapped (vmmUnmapPage (vmmMapPage v virt phys flags).2 virt).2 virt

variable {v : Vmm} {root : ℕ}

theorem indices_of_page {va virt : ℕ} (h : va / 4096 = virt / 4096) :
    pathOf va = pathOf virt ∧ idxPt va = idxPt virt := by
  simp only [pathOf, idxPml4, idxPdp, idxPd, idxPt, and_0x1FF, Nat.shiftRight_eq_div_pow,
    List.cons.injEq, and_true]
  omega

theorem pte_of_page (m : ℕ → ℕ) (root : ℕ) {va virt : ℕ} (h : va / 4096 = virt / 4096) :
    pte m root va = pte m root virt := by
  obtain ⟨hp, hi⟩ := indices_of_page h
  unfold pte
  rw [hp, hi]

theorem Tree.pte_store_self (h : Tree v root) {va pt : ℕ} (e : ℕ)
    (hpt : walk v.mem root (pathOf va) = some pt) :
    pte (v.store (slot pt (idxPt va)) e).mem root va = e := by
  unfold pte
  rw [h.walk_store hpt (pathOf_isPath va), hpt]
  exact Function.update_self _ _ _

theorem pte_vmmMapPage (h : Tree v v.cr3) {virt phys flags : ℕ}
    (hmap : (vmmMapPage v virt phys flags).1 = 0) :
    v.cr3 ≠ 0 ∧ pte (vmmMapPage v virt phys flags).2.mem v.cr3 virt =
      frameOf phys ||| (flags &&& (2 ^ 64 - 1 - vmmPs)) := by
  obtain ⟨hk, hw⟩ := getPte_spec h virt true
  unfold vmmMapPage at hmap ⊢
  split_ifs at hmap ⊢ with hz
  · simp at hmap
  · generalize getPte v v.cr3 virt true = r at hk hw hmap
    obtain ⟨_ | a, v'⟩ := r
    · simp at hmap
    · obtain ⟨pt, hpt, rfl⟩ := hw a rfl
      exact ⟨hz, hk.tree.pte_store_self _ hpt⟩

theorem pte_vmmUnmapPage (h : Tree v v.cr3) {virt : ℕ} (hunmap : (vmmUnmapPage v virt).1 = 0) :
    pte (vmmUnmapPage v virt).2.mem v.cr3 virt = 0 := by
  obtain ⟨hk, hw⟩ := getPte_spec h virt false
  unfold vmmUnmapPage at hunmap ⊢
  split_ifs at hunmap ⊢
  · simp at hunmap
  · generalize getPte v v.cr3 virt false = r at hk hw hunmap
    obtain ⟨_ | a, v'⟩ := r
    · simp at hunmap
    · obtain ⟨pt, hpt, rfl⟩ := hw a rfl
      exact hk.tree.pte_store_self 0 hpt

theorem testBit_frameOf (e i : ℕ) : (frameOf e).testBit i = (decide (12 ≤ i) && e.testBit i) := by
  have he : frameOf e = (e >>> 12) <<< 12 := by
    unfold frameOf alignDown
    rw [Nat.shiftLeft_eq, Nat.shiftRight_eq_div_pow]
  rw [he, Nat.testBit_shiftLeft, Nat.testBit_shiftRight]
  by_cases hi : 12 ≤ i
  · rw [Nat.add_sub_cancel' hi]
  · simp [hi]

theorem testBit_foldr_or (l : List ℕ) (i : ℕ) :
    (l.foldr (· ||| ·) 0).testBit i = l.any fun f => f.testBit i := by
  induction l with
  | nil => simp
  | cons f l ih => simp [Nat.testBit_or, ih]

theorem vmmFlags_bits {f : ℕ} (hf : f ∈ vmmFlags) : ∃ i, (i < 9 ∨ i = 63) ∧ f = 2 ^ i := by
  simp only [vmmFlags, List.mem_cons, List.not_mem_nil, or_false] at hf
  rcases hf with rfl | rfl | rfl | rfl | rfl | rfl | rfl | rfl | rfl | rfl
  · exact ⟨0, by decide, rfl⟩
  · exact ⟨1, by decide, rfl⟩
  · exact ⟨2, by decide, rfl⟩
  · exact ⟨3, by decide, rfl⟩
  · exact ⟨4, by decide, rfl⟩
  · exact ⟨5, by decide, rfl⟩
  · exact ⟨6, by decide, rfl⟩
  · exact ⟨7, by decide, rfl⟩
  · exact ⟨8, by decide, rfl⟩
  · exact ⟨63, by decide, rfl⟩

namespace IsFlags

variable {flags : ℕ}

theorem present (h : IsFlags flags) : flags.testBit 0 = true := by
  obtain ⟨l, hpres, -, rfl⟩ := h
  rw [testBit_foldr_or, List.any_eq_true]
  exact ⟨vmmPresent, hpres, rfl⟩

theorem bit (h : IsFlags flags) {i : ℕ} (hi : flags.testBit i = true) : i < 9 ∨ i = 63 := by
  obtain ⟨l, -, hsub, rfl⟩ := h
  rw [testBit_foldr_or, List.any_eq_true] at hi
  obtain ⟨f, hf, hbit⟩ := hi
  obtain ⟨k, hk, rfl⟩ := vmmFlags_bits (hsub hf)
  rw [Nat.testBit_two_pow, decide_eq_true_eq] at hbit
  omega

end IsFlags

theorem and_vmmNx (flags : ℕ) : flags &&& vmmNx = 0 ↔ flags.testBit 63 = false := by
  unfold vmmNx
  rw [Nat.and_two_pow]
  cases flags.testBit 63 <;> simp

theorem testBit_mask {flags i : ℕ} (hi : i < 64) (hps : i ≠ 7) :
    (flags &&& (2 ^ 64 - 1 - vmmPs)).testBit i = flags.testBit i := by
  have hmask : ∀ i < 64, i ≠ 7 → (2 ^ 64 - 1 - vmmPs).testBit i = true := by decide
  rw [Nat.testBit_and, hmask i hi hps, Bool.and_true]

theorem frameOf_entry_iff {phys flags : ℕ} (hp : phys < 2 ^ 52) (hf : IsFlags flags) (off : ℕ) :
    frameOf (frameOf phys ||| (flags &&& (2 ^ 64 - 1 - vmmPs))) ||| (off &&& 0xFFF) =
      frameOf phys ||| (off &&& 0xFFF) ↔ flags &&& vmmNx = 0 := by
  rw [and_vmmNx]
  have hhigh : phys.testBit 63 = false := Nat.testBit_lt_two_pow (lt_trans hp (by decide))
  have hoff : (0xFFF : ℕ).testBit 63 = false := by decide
  constructor
  · intro h
    have h63 := congrArg (fun e => Nat.testBit e 63) h
    have hmask : (flags &&& (2 ^ 64 - 1 - vmmPs)).testBit 63 = flags.testBit 63 := testBit_mask (by decide) (by decide)
    simp only [Nat.testBit_or, testBit_frameOf, Nat.testBit_and off, hhigh, hoff, hmask] at h63
    simpa using h63
  · intro h
    apply Nat.eq_of_testBit_eq
    intro i
    simp only [Nat.testBit_or, testBit_frameOf]
    by_cases hi : 12 ≤ i
    · have hclear : flags.testBit i = false := by
        by_contra hne
        rcases hf.bit (Bool.not_eq_false _ ▸ hne) with h9 | rfl
        · omega
        · exact hne h
      simp [hi, hclear]
    · simp [hi]

theorem vmmVirtToPhys_mapped (h : Tree v v.cr3) {virt phys flags va : ℕ} (hf : IsFlags flags)
    (hmap : (vmmMapPage v virt phys flags).1 = 0) (hva : va / 4096 = virt / 4096) :
    vmmVirtToPhys (vmmMapPage v virt phys flags).2 va =
      some (frameOf (frameOf phys ||| (flags &&& (2 ^ 64 - 1 - vmmPs))) ||| (va &&& 0xFFF)) := by
  obtain ⟨hne, hpte⟩ := pte_vmmMapPage h hmap
  have hpres : isPresent (frameOf phys ||| (flags &&& (2 ^ 64 - 1 - vmmPs))) = true := by
    have hbit : (frameOf phys ||| (flags &&& (2 ^ 64 - 1 - vmmPs))).testBit 0 = true := by
      rw [Nat.testBit_or, testBit_mask (by decide) (by decide), hf.present, Bool.or_true]
    rw [isPresent_eq]
    simpa [Nat.testBit_zero] using hbit
  rw [vmmVirtToPhys_eq, (vmmMapPage_confined h virt phys flags).cr3, pte_of_page _ _ hva, hpte, if_neg]
  rintro (hz | habs)
  · exact hne hz
  · rw [hpres] at habs
    exact Bool.noConfusion habs

theorem translates_iff (h : Tree v v.cr3) {virt phys flags : ℕ} (hp : phys < 2 ^ 52) (hf : IsFlags flags)
    (hmap : (vmmMapPage v virt phys flags).1 = 0) :
    Translates (vmmMapPage v virt phys flags).2 virt phys ↔ flags &&& vmmNx = 0 := by
  constructor
  · intro ht
    have hvirt := ht virt rfl
    rw [vmmVirtToPhys_mapped h hf hmap rfl] at hvirt
    exact (frameOf_entry_iff hp hf virt).mp (Option.some.inj hvirt)
  · intro hnx va hva
    rw [vmmVirtToPhys_mapped h hf hmap hva, (frameOf_entry_iff hp hf va).mpr hnx]

theorem unmapped_of_unmap (h : Tree v v.cr3) {virt : ℕ} (hunmap : (vmmUnmapPage v virt).1 = 0) :
    Unmapped (vmmUnmapPage v virt).2 virt := by
  intro va hva
  rw [vmmVirtToPhys_eq, (vmmUnmapPage_confined h virt).cr3, pte_of_page _ _ hva, pte_vmmUnmapPage h hunmap,
    if_pos (.inr isPresent_zero)]

theorem roundTrip_iff (h : Tree v v.cr3) {virt phys flags : ℕ} (hp : phys < 2 ^ 52) (hf : IsFlags flags)
    (hmap : (vmmMapPage v virt phys flags).1 = 0) :
    RoundTrip v virt phys flags ↔ flags &&& vmmNx = 0 := by
  have hc := vmmMapPage_confined h virt phys flags
  have htree : Tree (vmmMapPage v virt phys flags).2 (vmmMapPage v virt phys flags).2.cr3 :=
    hc.cr3.symm ▸ hc.tree
  rw [← translates_iff h hp hf hmap]
  exact ⟨fun hr => hr.map, fun ht => ⟨ht, unmapped_of_unmap htree⟩⟩

theorem run_cr3_zero (hz : v.cr3 = 0) (calls : List Call) : (run v calls).cr3 = 0 := by
  induction calls generalizing v with
  | nil => exact hz
  | cons c calls ih =>
    apply ih
    cases c with
    | map virt phys flags => simp [Call.apply, vmmMapPage, hz]
    | unmap virt => simp [Call.apply, vmmUnmapPage, hz]

theorem run_init (hf : v.pmm.Framed) (hz : v.cr3 = 0) (calls : List Call) :
    (run (vmmInitIdentity v) calls).cr3 = 0 ∨
      Tree (run (vmmInitIdentity v) calls) (run (vmmInitIdentity v) calls).cr3 := by
  by_cases henough : (pmmAllocFrames v.pmm 1).1 = 0
  · apply Or.inl
    apply run_cr3_zero
    simp [vmmInitIdentity, henough, hz]
  · obtain ⟨h0, -⟩ := vmmInitIdentity_tree hf henough
    exact .inr (run_tree h0 calls).1

def Grows (root : ℕ) (v v' : Vmm) : Prop :=
  ∀ q u, IsPath q → walk v.mem root q = some u → walk v'.mem root q = some u

theorem nextTable_grows (h : Tree v root) {p : List ℕ} {t i : ℕ} (hp : IsPath (p ++ [i]))
    (ht : walk v.mem root p = some t) (create : Bool) : Grows root v (nextTable v t i create).2 := by
  intro q u hq hu
  unfold nextTable
  dsimp only
  split_ifs with hpres hcreate hzero
  · exact hu
  · exact hu
  · exact hu
  · obtain ⟨-, -, hfresh⟩ := alloc_one h.framed
    obtain ⟨k, hk, hfree, haddr, -⟩ := hfresh hzero
    have l : Linkable v root p t i (v.pmm.frameAddr k) :=
      ⟨h, hp, ht, Bool.not_eq_true _ ▸ hpres, k, hk, hfree, rfl⟩
    rw [haddr, entry_eq l.aligned.2]
    exact (l.walk_iff hq u).mpr (.inl hu)

theorem getPte_grows (h : Tree v root) (va : ℕ) (create : Bool) :
    Grows root v (getPte v root va create).2 := by
  obtain ⟨hp1, hp2⟩ := pathOf_prefix va
  obtain ⟨hk1, hw1⟩ := nextTable_spec h (p := []) hp1 rfl create
  have hg1 := nextTable_grows h (p := []) hp1 rfl create
  unfold getPte
  generalize nextTable v root (idxPml4 va) create = r1 at hk1 hw1 hg1
  obtain ⟨_ | pdpt, v1⟩ := r1
  · exact hg1
  obtain ⟨hk2, hw2⟩ := nextTable_spec hk1.tree (p := [idxPml4 va]) hp2 (hw1 pdpt rfl) create
  have hg2 := nextTable_grows hk1.tree (p := [idxPml4 va]) hp2 (hw1 pdpt rfl) create
  dsimp only
  generalize nextTable v1 pdpt (idxPdp va) create = r2 at hk2 hw2 hg2
  obtain ⟨_ | pd, v2⟩ := r2
  · exact fun q u hq hu => hg2 q u hq (hg1 q u hq hu)
  have hg3 := nextTable_grows hk2.tree (p := [idxPml4 va, idxPdp va]) (pathOf_isPath va) (hw2 pd rfl) create
  dsimp only
  generalize nextTable v2 pd (idxPd va) create = r3 at hg3
  obtain ⟨_ | pt, v3⟩ := r3
  · exact fun q u hq hu => hg3 q u hq (hg2 q u hq (hg1 q u hq hu))
  · exact fun q u hq hu => hg3 q u hq (hg2 q u hq (hg1 q u hq hu))

theorem identityLoop_grows {pml4 : ℕ} (h : Tree v pml4) (n a : ℕ) :
    Grows pml4 v (identityLoop pml4 n a v) := by
  induction n generalizing a v with
  | zero => exact fun _ _ _ hu => hu
  | succ n ih =>
    obtain ⟨hk, hw⟩ := getPte_spec h a true
    have hg := getPte_grows h a true
    rw [identityLoop]
    generalize getPte v pml4 a true = r at hk hw hg
    obtain ⟨_ | pte, v'⟩ := r
    · exact hg
    · obtain ⟨pt, hpt, rfl⟩ := hw pte rfl
      intro q u hq hu
      apply ih (hk.tree.store hpt) _ q u hq
      rw [hk.tree.walk_store hpt hq]
      exact hg q u hq hu

theorem vmmMapPage_of_walk {virt pt : ℕ} (hne : v.cr3 ≠ 0)
    (hpt : walk v.mem v.cr3 (pathOf virt) = some pt) (phys flags : ℕ) :
    (vmmMapPage v virt phys flags).1 = 0 := by
  obtain ⟨pd, hpd, hp3, hu3⟩ := walk_concat (p := [idxPml4 virt, idxPdp virt]).mp hpt
  obtain ⟨pdpt, hpdpt, hp2, hu2⟩ := walk_concat (p := [idxPml4 virt]).mp hpd
  obtain ⟨t, ht, hp1, hu1⟩ := walk_concat (p := []).mp hpdpt
  obtain rfl : v.cr3 = t := Option.some.inj ht
  unfold vmmMapPage getPte
  rw [if_neg hne, nextTable_present v true hp1 hu1]
  dsimp only
  rw [nextTable_present v true hp2 hu2]
  dsimp only
  rw [nextTable_present v true hp3 hu3]

theorem identityLoop_first {pml4 : ℕ} (h : Tree v pml4) {n a : ℕ} (hn : 0 < n)
    (hfirst : (getPte v pml4 a true).1 ≠ none) :
    ∃ pt, walk (identityLoop pml4 n a v).mem pml4 (pathOf a) = some pt := by
  obtain ⟨n, rfl⟩ := Nat.exists_eq_succ_of_ne_zero hn.ne'
  obtain ⟨hk, hw⟩ := getPte_spec h a true
  rw [Nat.succ_eq_add_one, identityLoop]
  generalize getPte v pml4 a true = r at hk hw hfirst
  obtain ⟨_ | pte, v'⟩ := r
  · exact absurd rfl hfirst
  · obtain ⟨pt, hpt, rfl⟩ := hw pte rfl
    refine ⟨pt, ?_⟩
    apply identityLoop_grows (hk.tree.store hpt) n _ _ _ (pathOf_isPath a)
    rw [hk.tree.walk_store hpt (pathOf_isPath a), hpt]

theorem vmmMapPage_zero (hf : v.pmm.Framed) (henough : (pmmAllocFrames v.pmm 1).1 ≠ 0)
    (hfirst : (getPte (withRoot v) (pmmAllocFrames v.pmm 1).1 0 true).1 ≠ none) (phys flags : ℕ) :
    (vmmMapPage (vmmInitIdentity v) 0 phys flags).1 = 0 := by
  obtain ⟨pt, hpt⟩ := identityLoop_first (withRoot_tree hf henough) (n := 2 ^ 32 / 4096) (by decide) hfirst
  rw [vmmInitIdentity_eq henough]
  exact vmmMapPage_of_walk henough hpt phys flags

/-- For a `vmm_map_page` that succeeds in any state that `vmm_init_identity` and later calls lead to, the
address translates back unless the flags have `VMM_NX`, whose bit is above the mask of the low twelve. -/
theorem map_translate_round_trip_iff {fuel info : ℕ} {storage : Bitmap} {m : Memory} {fromUefi : Bool}
    {s₀ : Pmm} (hinit : pmmInit fuel storage m info fromUefi = some s₀) {reserved : List (ℕ × ℕ)}
    {live : List Alloc} (hr : Reach (reserveAll s₀ reserved) v.pmm live) (hz : v.cr3 = 0)
    (calls : List Call) (virt phys flags : ℕ) (hp : phys < 2 ^ 52) (hf : IsFlags flags) :
    ((vmmMapPage (run (vmmInitIdentity v) calls) virt phys flags).1 = 0 →
      (RoundTrip (run (vmmInitIdentity v) calls) virt phys flags ↔ flags &&& vmmNx = 0)) ∧
    ((vmmUnmapPage (run (vmmInitIdentity v) calls) virt).1 = 0 →
      Unmapped (vmmUnmapPage (run (vmmInitIdentity v) calls) virt).2 virt) := by
  have hframed := ((reserveAll_same s₀ reserved).trans hr.same).framed (pmmInit_framed hinit)
  rcases run_init hframed hz calls with hzero | htree
  · constructor
    · intro hmap
      simp [vmmMapPage, hzero] at hmap
    · intro hunmap
      simp [vmmUnmapPage, hzero] at hunmap
  · exact ⟨roundTrip_iff htree hp hf, unmapped_of_unmap htree⟩

theorem smallInfo_maps : ∃ s₀, pmmInit 4 (fun _ => 0) smallInfo 8 false = some s₀ ∧
    ∀ phys flags, (vmmMapPage (vmmInitIdentity ⟨s₀, fun _ => 0, 0⟩) 0 phys flags).1 = 0 := by
  have hinit : pmmInit 4 (fun _ => 0) smallInfo 8 false =
      some (initFromMap (fun _ => 0) (.mmap [⟨0x100000, 0x10000, 1⟩])) := by
    rw [pmmInit, readMemoryMap_smallInfo]
    rfl
  refine ⟨_, hinit, fun phys flags => ?_⟩
  apply vmmMapPage_zero (pmmInit_framed hinit)
  · decide +kernel
  · decide +kernel

theorem map_translate_round_trip_rw : ∃ v : Vmm, (vmmMapPage (vmmInitIdentity v) 0 0x5000 3).1 = 0 ∧
    RoundTrip (vmmInitIdentity v) 0 0x5000 3 := by
  obtain ⟨s₀, hinit, hmap⟩ := smallInfo_maps
  have hstart : Reach (reserveAll s₀ []) s₀ [] := Reach.start
  have hflags : IsFlags 3 := ⟨[vmmPresent, vmmRw], by decide, by decide, by decide⟩
  refine ⟨⟨s₀, fun _ => 0, 0⟩, hmap _ _, ?_⟩
  exact ((map_translate_round_trip_iff hinit hstart rfl [] 0 0x5000 3 (by decide) hflags).1
    (hmap _ _)).mpr (by decide)

theorem map_no_execute_translates_wrong : ∃ s₀, pmmInit 4 (fun _ => 0) smallInfo 8 false = some s₀ ∧
    (vmmMapPage (vmmInitIdentity ⟨s₀, fun _ => 0, 0⟩) 0 0x5000 (vmmPresent ||| vmmNx)).1 = 0 ∧
    vmmVirtToPhys (vmmMapPage (vmmInitIdentity ⟨s₀, fun _ => 0, 0⟩) 0 0x5000 (vmmPresent ||| vmmNx)).2 0 =
      some 0x8000000000005000 ∧
    ¬ RoundTrip (vmmInitIdentity ⟨s₀, fun _ => 0, 0⟩) 0 0x5000 (vmmPresent ||| vmmNx) := by
  obtain ⟨s₀, hinit, hmap⟩ := smallInfo_maps
  have hflags : IsFlags (vmmPresent ||| vmmNx) := ⟨[vmmPresent, vmmNx], by decide, by decide, by decide⟩
  have henough : (pmmAllocFrames s₀ 1).1 ≠ 0 := by
    intro hzero
    have h0 := hmap 0 0
    simp [vmmInitIdentity, hzero, vmmMapPage] at h0
  obtain ⟨htree, -⟩ := vmmInitIdentity_tree (v := ⟨s₀, fun _ => 0, 0⟩) (pmmInit_framed hinit) henough
  refine ⟨s₀, hinit, hmap _ _, ?_, ?_⟩
  · rw [vmmVirtToPhys_mapped htree hflags (hmap _ _) rfl]
    decide +kernel
  · rw [roundTrip_iff htree (by decide) hflags (hmap _ _)]
    decide

end DexOs.Paging
