import DexOs.FrameSupply
import Mathlib.Order.Bounds.Basic

/-! The allocators take the lowest run of free frames that is long enough and low enough. -/

namespace DexOs.Frames

open DexOs.Lib

variable {s : Pmm} {count limitIdx : ℕ}

theorem scanRun_complete {b : Bitmap} {n i run runStart r : ℕ} (hrun : run < count)
    (hstart : run = 0 ∨ runStart + run = i) (hr : i ≤ r + run) (hle : r + count ≤ i + n)
    (hclear : ∀ j, r ≤ j → j < r + count → b.test j = false) :
    ∃ r' ≤ r, scanRun b count n i run runStart = some r' := by
  induction n generalizing i run runStart with
  | zero => omega
  | succ n ih =>
    rw [scanRun]
    by_cases ht : b.test i = false
    · rw [if_pos ht]
      dsimp only
      by_cases hlast : count ≤ run + 1
      · rw [if_pos hlast]
        refine ⟨_, ?_, rfl⟩
        split <;> omega
      · rw [if_neg hlast]
        apply ih
        · omega
        · right
          split <;> omega
        · omega
        · omega
    · have hne : ¬ (r ≤ i ∧ i < r + count) := fun h => ht (hclear i h.1 h.2)
      rw [if_neg ht]
      apply ih
      · omega
      · exact .inl rfl
      · omega
      · omega

def ClearRun (b : Bitmap) (count limitIdx i : ℕ) : Prop :=
  i + count ≤ limitIdx ∧ ∀ j, i ≤ j → j < i + count → b.test j = false

theorem scanRun_eq_some {b : Bitmap} (hc : 0 < count) {i : ℕ} (hi : IsLeast {i | ClearRun b count limitIdx i} i) :
    scanRun b count limitIdx 0 0 0 = some i := by
  obtain ⟨hle, hclear⟩ := hi.1
  have hfound : ∃ r ≤ i, scanRun b count limitIdx 0 0 0 = some r :=
    scanRun_complete hc (.inl rfl) (Nat.zero_le _) (by omega) hclear
  obtain ⟨r, hri, hscan⟩ := hfound
  obtain ⟨hle', hclear'⟩ := scanRun_sound (.inl rfl) (fun j _ hj => by omega) hscan
  have hir : i ≤ r := hi.2 ⟨by omega, hclear'⟩
  rw [hscan, le_antisymm hri hir]

theorem scanRun_eq_none {b : Bitmap} (h : ∀ i, ¬ ClearRun b count limitIdx i) :
    scanRun b count limitIdx 0 0 0 = none := by
  cases hscan : scanRun b count limitIdx 0 0 0 with
  | none => rfl
  | some r =>
    obtain ⟨hle, hclear⟩ := scanRun_sound (.inl rfl) (fun j _ hj => by omega) hscan
    exact absurd ⟨by omega, hclear⟩ (h r)

def Pmm.FreeRun (s : Pmm) (count max r : ℕ) : Prop :=
  ∃ i, r = s.frameAddr i ∧ ClearRun s.bitmap count s.frames i ∧ r + count * 4096 ≤ max

def Pmm.limitIndex (s : Pmm) (max : ℕ) : ℕ :=
  min (if s.bitmapBase < max then (max - s.bitmapBase) / frameSize else 0) s.frames

theorem freeRun_iff (hc : 0 < count) {max r : ℕ} :
    s.FreeRun count max r ↔ ∃ i, r = s.frameAddr i ∧ ClearRun s.bitmap count (s.limitIndex max) i := by
  unfold Pmm.FreeRun Pmm.limitIndex ClearRun
  rw [frameSize_eq]
  apply exists_congr
  intro i
  constructor
  · rintro ⟨rfl, ⟨hle, hclear⟩, hmax⟩
    rw [Pmm.frameAddr, frameSize_eq] at hmax
    refine ⟨rfl, ?_, hclear⟩
    rw [if_pos (by omega)]
    omega
  · rintro ⟨rfl, hle, hclear⟩
    refine ⟨rfl, ⟨by omega, hclear⟩, ?_⟩
    rw [Pmm.frameAddr, frameSize_eq]
    split at hle <;> omega

theorem freeRun_isLeast (hc : 0 < count) {max r : ℕ} (hr : IsLeast {r | s.FreeRun count max r} r) :
    ∃ i, r = s.frameAddr i ∧ IsLeast {i | ClearRun s.bitmap count (s.limitIndex max) i} i := by
  obtain ⟨i, rfl, hi⟩ := (freeRun_iff hc).mp hr.1
  refine ⟨i, rfl, hi, fun j hj => ?_⟩
  have hle : s.frameAddr i ≤ s.frameAddr j := hr.2 ((freeRun_iff hc).mpr ⟨j, rfl, hj⟩)
  simp only [Pmm.frameAddr, frameSize_eq] at hle
  omega

theorem ClearRun.count_le_card {i : ℕ} (h : ClearRun s.bitmap count s.frames i) :
    count ≤ (s.bitmap.clearBits s.frames).card := by
  have hsub : Finset.Ico i (i + count) ⊆ s.bitmap.clearBits s.frames := by
    intro j hj
    rw [Finset.mem_Ico] at hj
    exact Bitmap.mem_clearBits.mpr ⟨by have := h.1; omega, h.2 j hj.1 hj.2⟩
  have hcard := Finset.card_le_card hsub
  rw [Nat.card_Ico] at hcard
  omega

theorem test_fill_frames (s : Pmm) (count i j : ℕ) : (s.bitmap.fill true count i).test j =
    (s.bitmap.test j || decide (s.frameAddr i ≤ s.frameAddr j ∧ s.frameAddr j < s.frameAddr i + count * 4096)) := by
  have hiff : (s.frameAddr i ≤ s.frameAddr j ∧ s.frameAddr j < s.frameAddr i + count * 4096) ↔ i ≤ j ∧ j < i + count := by
    simp only [Pmm.frameAddr, frameSize_eq]
    omega
  rw [Bitmap.test_fill]
  simp only [hiff]
  split
  case isTrue hj => simp [hj]
  case isFalse hj => simp [hj]

theorem allocBelowIndex_run (hb : s.bitmapBase ≤ s.bitmapLimit) (hl : s.bitmapLimit < 2 ^ 64) (h : s.Accounted)
    (hc : 0 < count) (hidx : limitIdx ≤ s.frames) {i : ℕ} (hi : IsLeast {i | ClearRun s.bitmap count limitIdx i} i) :
    allocBelowIndex s count limitIdx = (s.frameAddr i,
      { s with bitmap := s.bitmap.fill true count i, free := s.free - count * 4096 }) := by
  have hle := hi.1.1
  have hrun : ClearRun s.bitmap count s.frames i := ⟨by omega, hi.1.2⟩
  have hcard := hrun.count_le_card
  have hfr : s.frames = (s.bitmapLimit - s.bitmapBase) / 4096 := by
    rw [Pmm.frames, sub64_of_le hb, frameSize_eq]
  have hneed : count * frameSize % 2 ^ 64 = count * 4096 := by
    rw [frameSize_eq]
    omega
  rw [Pmm.Accounted] at h
  rw [allocBelowIndex, if_neg (by omega)]
  dsimp only
  rw [hneed, if_neg (by omega), scanRun_eq_some hc hi]
  dsimp only
  rw [sub64_of_le (by omega), Pmm.frameAddr, frameSize_eq, Nat.mod_eq_of_lt (by omega)]

theorem allocBelowIndex_none (h : ∀ i, ¬ ClearRun s.bitmap count limitIdx i) :
    allocBelowIndex s count limitIdx = (0, s) := by
  unfold allocBelowIndex
  rw [scanRun_eq_none h]
  dsimp only
  split_ifs <;> rfl

theorem pmmAllocFramesBelow_eq (s : Pmm) (count max : ℕ) :
    pmmAllocFramesBelow s count max = allocBelowIndex s count (s.limitIndex max) := rfl

theorem limitIndex_of_ge (hb : s.bitmapBase ≤ s.bitmapLimit) {max : ℕ} (hmax : s.bitmapLimit ≤ max) :
    s.limitIndex max = s.frames := by
  rw [Pmm.limitIndex, Pmm.frames, sub64_of_le hb, frameSize_eq]
  split <;> omega

/-- `pmm_alloc_frames_below` takes the lowest run of free frames that ends at or below the limit, and fails
without a change exactly when there is none; with the limit at the end of the bitmap or above it is
`pmm_alloc_frames`. -/
theorem allocBelow_first_fit (hb : s.bitmapBase ≤ s.bitmapLimit) (hl : s.bitmapLimit < 2 ^ 64) (h : s.Accounted)
    (h0 : ∀ i < s.frames, s.frameAddr i = 0 → s.bitmap.test i = true) (hc : 1 ≤ count) (max : ℕ) :
    (∀ r, IsLeast {r | s.FreeRun count max r} r → ∃ b,
      pmmAllocFramesBelow s count max = (r, { s with bitmap := b, free := s.free - count * 4096 }) ∧
      ∀ j, b.test j = (s.bitmap.test j || decide (r ≤ s.frameAddr j ∧ s.frameAddr j < r + count * 4096))) ∧
    (pmmAllocFramesBelow s count max = (0, s) ↔ ¬ ∃ r, s.FreeRun count max r) ∧
    (s.bitmapLimit ≤ max → pmmAllocFramesBelow s count max = pmmAllocFrames s count) := by
  have hidx : s.limitIndex max ≤ s.frames := min_le_right _ _
  have hrun (r : ℕ) (hr : IsLeast {r | s.FreeRun count max r} r) :
      ∃ i, r = s.frameAddr i ∧ i < s.frames ∧ s.bitmap.test i = false ∧ pmmAllocFramesBelow s count max =
        (r, { s with bitmap := s.bitmap.fill true count i, free := s.free - count * 4096 }) := by
    obtain ⟨i, rfl, hi⟩ := freeRun_isLeast hc hr
    have hle := hi.1.1
    exact ⟨i, rfl, by omega, hi.1.2 i (le_refl i) (by omega), allocBelowIndex_run hb hl h hc hidx hi⟩
  refine ⟨fun r hr => ?_, ⟨fun hzero hex => ?_, fun hnone => ?_⟩, fun hmax => ?_⟩
  · obtain ⟨i, rfl, -, -, halloc⟩ := hrun r hr
    exact ⟨_, halloc, test_fill_frames s count i⟩
  · -- the lowest run is handed out, and it is not at address 0
    classical
    obtain ⟨i, hri, hlt, hclear, halloc⟩ := hrun _ ⟨Nat.find_spec hex, fun r hr => Nat.find_min' hex hr⟩
    rw [hzero] at halloc
    have htaken := h0 i hlt (by rw [← hri]; exact (Prod.mk.inj halloc).1.symm)
    rw [hclear] at htaken
    exact Bool.noConfusion htaken
  · apply allocBelowIndex_none
    intro i hi
    exact hnone ⟨_, (freeRun_iff hc).mpr ⟨i, rfl, hi⟩⟩
  · rw [pmmAllocFramesBelow_eq, limitIndex_of_ge hb hmax]
    rfl

theorem allocBelow_first_fit_four : pmmAllocFramesBelow fourFrames 2 0x102000 =
    (0x100000, { fourFrames with bitmap := fourFrames.bitmap.fill true 2 0, free := 8192 }) := by
  have h0 : ∀ i < fourFrames.frames, fourFrames.frameAddr i = 0 → fourFrames.bitmap.test i = true := by
    intro i _ hi
    simp [Pmm.frameAddr, fourFrames] at hi
  have hclear (j : ℕ) : fourFrames.bitmap.test j = false := by
    rw [Bitmap.test_eq]
    exact BitVec.getLsbD_zero
  have hfr : fourFrames.frames = 4 := by
    rw [fourFrames_paged.frames_eq]
    rfl
  have hstart : fourFrames.frameAddr 0 = 0x100000 := by simp [Pmm.frameAddr, fourFrames]
  have hleast : IsLeast {r | fourFrames.FreeRun 2 0x102000 r} 0x100000 := by
    refine ⟨⟨0, hstart.symm, ⟨by rw [hfr]; decide, fun j _ _ => hclear j⟩, by decide⟩, ?_⟩
    rintro r ⟨i, rfl, -, -⟩
    exact Nat.le_add_right ..
  obtain ⟨b, halloc, hbits⟩ := (allocBelow_first_fit (by decide) (by decide) fourFrames_accounted h0
    (by decide) 0x102000).1 0x100000 hleast
  have hb : b = fourFrames.bitmap.fill true 2 0 := by
    apply Bitmap.ext_test
    intro j
    rw [hbits, test_fill_frames fourFrames 2 0 j, hstart]
  rw [halloc, hb]
  rfl

section Supply

/-- How many single frames can be allocated one after another. A free frame 0 is the first to be taken, and
its address says that there is none. -/
def Pmm.supply (s : Pmm) : ℕ :=
  if s.bitmapBase = 0 ∧ 0 < s.frames ∧ s.bitmap.test 0 = false then 0
  else min (s.bitmap.clearBits s.frames).card (s.free / 4096)

theorem frameAddr_eq_zero {i : ℕ} : s.frameAddr i = 0 ↔ s.bitmapBase = 0 ∧ i = 0 := by
  rw [Pmm.frameAddr, frameSize_eq]
  omega

theorem supply_eq (h0 : ∀ i < s.frames, s.frameAddr i = 0 → s.bitmap.test i = true) :
    s.supply = min (s.bitmap.clearBits s.frames).card (s.free / 4096) := by
  rw [Pmm.supply, if_neg]
  rintro ⟨hbase, hpos, hclear⟩
  rw [h0 0 hpos (frameAddr_eq_zero.mpr ⟨hbase, rfl⟩)] at hclear
  exact Bool.noConfusion hclear

theorem supply_pos_iff : 0 < s.supply ↔
    (∀ i < s.frames, s.frameAddr i = 0 → s.bitmap.test i = true) ∧ (∃ i < s.frames, s.bitmap.test i = false) ∧ 4096 ≤ s.free := by
  have hcard : 0 < (s.bitmap.clearBits s.frames).card ↔ ∃ i < s.frames, s.bitmap.test i = false := by
    rw [Finset.card_pos]
    constructor
    · rintro ⟨i, hi⟩
      exact ⟨i, Bitmap.mem_clearBits.mp hi⟩
    · rintro ⟨i, hi⟩
      exact ⟨i, Bitmap.mem_clearBits.mpr hi⟩
  constructor
  · intro h
    have h0 : ∀ i < s.frames, s.frameAddr i = 0 → s.bitmap.test i = true := by
      intro i hi hzero
      obtain ⟨hbase, rfl⟩ := frameAddr_eq_zero.mp hzero
      by_contra hclear
      rw [Pmm.supply, if_pos ⟨hbase, hi, Bool.not_eq_true _ ▸ hclear⟩] at h
      exact absurd h (lt_irrefl 0)
    rw [supply_eq h0] at h
    exact ⟨h0, hcard.mp (by omega), by omega⟩
  · rintro ⟨h0, hclear, hfree⟩
    have := hcard.mpr hclear
    rw [supply_eq h0]
    omega

theorem alloc_of_supply (hf : s.Framed) (h : 0 < s.supply) :
    ∃ k < s.frames, s.bitmap.test k = false ∧ s.frameAddr k ≠ 0 ∧ (pmmAllocFrames s 1).1 = s.frameAddr k ∧
      (pmmAllocFrames s 1).2.bitmap = s.bitmap.set k ∧ (pmmAllocFrames s 1).2.free + 4096 = s.free := by
  obtain ⟨h0, ⟨i, hi, hclear⟩, hfree⟩ := supply_pos_iff.mp h
  have hfound : ∃ k ≤ i, scanRun s.bitmap 1 s.frames 0 0 0 = some k :=
    scanRun_one hclear (Nat.zero_le _) (by omega)
  obtain ⟨k, hki, hscan⟩ := hfound
  have htest := (scanRun_sound (.inl rfl) (fun j _ hj => by omega) hscan).2 k (le_refl _) (by omega)
  have hlt := hf.frame_lt (i := k) (by omega)
  have hlim := hf.limit_le
  refine ⟨k, by omega, htest, fun hzero => ?_, ?_⟩
  · rw [h0 k (by omega) hzero] at htest
    exact Bool.noConfusion htest
  · rw [pmmAllocFrames, allocBelowIndex, if_neg Nat.one_ne_zero]
    dsimp only
    rw [frameSize_eq, if_neg (by omega), hscan]
    dsimp only
    rw [Pmm.frameAddr, frameSize_eq] at hlt ⊢
    rw [sub64_of_le (by omega), Nat.mod_eq_of_lt (show s.bitmapBase + k * 4096 < 2 ^ 64 by omega)]
    exact ⟨rfl, rfl, by omega⟩

theorem alloc_without_supply (h : s.supply = 0) : (pmmAllocFrames s 1).1 = 0 := by
  rcases allocBelowIndex_cases s 1 s.frames with hnone | ⟨start, -, hle, hclear, hfree, hsome⟩
  · rw [pmmAllocFrames, hnone]
  · -- a frame is taken although the supply is empty: it is frame 0
    rw [frameSize_eq] at hfree
    have hnull : ¬ ∀ i < s.frames, s.frameAddr i = 0 → s.bitmap.test i = true := by
      intro h0
      have hpos := supply_pos_iff.mpr ⟨h0, ⟨start, by omega, hclear start (le_refl _) (by omega)⟩, by omega⟩
      omega
    push Not at hnull
    obtain ⟨i, hi, hzero, htest⟩ := hnull
    obtain ⟨hbase, rfl⟩ := frameAddr_eq_zero.mp hzero
    have hfound : ∃ r ≤ 0, scanRun s.bitmap 1 s.frames 0 0 0 = some r :=
      scanRun_one (Bool.eq_false_iff.mpr htest) (le_refl 0) (by omega)
    obtain ⟨r, hr, hscan⟩ := hfound
    obtain rfl := Nat.le_zero.mp hr
    rw [pmmAllocFrames, allocBelowIndex, if_neg Nat.one_ne_zero]
    dsimp only
    rw [frameSize_eq, if_neg (by omega), hscan, hbase]
    dsimp only
    rw [Nat.zero_mul, Nat.add_zero, Nat.zero_mod]

inductive Drawn (s₀ : Pmm) : ℕ → Pmm → Prop
  | start : Drawn s₀ 0 s₀
  | frame {n : ℕ} {s : Pmm} : Drawn s₀ n s → 0 < s.supply → Drawn s₀ (n + 1) (pmmAllocFrames s 1).2

theorem supply_step (hf : s.Framed) (h : 0 < s.supply) :
    ((pmmAllocFrames s 1).2.bitmap.clearBits (pmmAllocFrames s 1).2.frames).card + 1 = (s.bitmap.clearBits s.frames).card ∧
      (pmmAllocFrames s 1).2.free + 4096 = s.free ∧ (pmmAllocFrames s 1).2.supply + 1 = s.supply := by
  obtain ⟨h0, -, -⟩ := supply_pos_iff.mp h
  obtain ⟨k, hk, hclear, -, -, hbits, hfree⟩ := alloc_of_supply hf h
  have hsame : SameFrame s (pmmAllocFrames s 1).2 := allocBelowIndex_same ..
  generalize (pmmAllocFrames s 1).2 = s' at hbits hfree hsame ⊢
  have hmem : k ∈ s.bitmap.clearBits s.frames := Bitmap.mem_clearBits.mpr ⟨hk, hclear⟩
  have hpos := Finset.card_pos.mpr ⟨k, hmem⟩
  have hcard := Finset.card_erase_of_mem hmem
  have h0' : ∀ i < s'.frames, s'.frameAddr i = 0 → s'.bitmap.test i = true := by
    intro i hi hzero
    rw [hsame.frames] at hi
    rw [hsame.frameAddr] at hzero
    rw [hbits, Bitmap.test_set, h0 i hi hzero, Bool.true_or]
  rw [supply_eq h0, supply_eq h0', hbits, hsame.frames, Bitmap.clearBits_set]
  omega

theorem Drawn.same {s₀ : Pmm} {n : ℕ} (h : Drawn s₀ n s) : SameFrame s₀ s := by
  induction h with
  | start => exact SameFrame.refl s₀
  | frame _ _ ih => exact ih.trans (allocBelowIndex_same ..)

theorem Drawn.counts {s₀ : Pmm} (hf : s₀.Framed) {n : ℕ} (h : Drawn s₀ n s) :
    (s.bitmap.clearBits s.frames).card + n = (s₀.bitmap.clearBits s₀.frames).card ∧
      s.free + 4096 * n = s₀.free ∧ s.supply + n = s₀.supply := by
  induction h with
  | start => exact ⟨rfl, rfl, rfl⟩
  | frame h hpos ih =>
    have hstep := supply_step (h.same.framed hf) hpos
    omega

theorem Drawn.taken {s₀ : Pmm} (hf : s₀.Framed) {n : ℕ} (h : Drawn s₀ n s) {i : ℕ} (hi : s₀.bitmap.test i = true) :
    s.bitmap.test i = true := by
  induction h with
  | start => exact hi
  | frame h hpos ih =>
    obtain ⟨k, -, -, -, -, hbits, -⟩ := alloc_of_supply (h.same.framed hf) hpos
    rw [hbits, Bitmap.test_set, ih, Bool.true_or]

end Supply

end DexOs.Frames
