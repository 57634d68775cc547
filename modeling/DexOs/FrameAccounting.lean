import DexOs.FrameSpec

/-! The free count and the free frames, over runs of the frame allocator. -/

namespace DexOs.Frames

open DexOs.Lib

variable {s : Pmm} {d : ℕ}

structure Pmm.Paged (s : Pmm) : Prop where
  base_aligned : 4096 ∣ s.bitmapBase
  limit_aligned : 4096 ∣ s.bitmapLimit
  base_le : s.bitmapBase ≤ s.bitmapLimit
  limit_lt : s.bitmapLimit < 2 ^ 64

/-- The free count exceeds the bytes in free frames by `d`. -/
def Pmm.Surplus (s : Pmm) (d : ℕ) : Prop := s.free = 4096 * (s.bitmap.clearBits s.frames).card + d

theorem SameFrame.paged {s s' : Pmm} (h : SameFrame s s') (hp : s.Paged) : s'.Paged :=
  ⟨h.base ▸ hp.base_aligned, h.limit ▸ hp.limit_aligned, by rw [h.base, h.limit]; exact hp.base_le, h.limit ▸ hp.limit_lt⟩

theorem Pmm.Paged.frames_eq (hp : s.Paged) : s.frames = (s.bitmapLimit - s.bitmapBase) / 4096 := by
  rw [Pmm.frames, sub64_of_le hp.base_le, frameSize_eq]

theorem Pmm.Paged.frames_bound (hp : s.Paged) : 4096 * s.frames < 2 ^ 64 := by
  have h1 := hp.frames_eq
  have h2 := hp.limit_lt
  omega

theorem Pmm.Paged.frame_lt (hp : s.Paged) {i : ℕ} (hi : i < s.frames) : s.frameAddr i + 4096 ≤ s.bitmapLimit := by
  have hfr := hp.frames_eq
  have := hp.base_le
  rw [Pmm.frameAddr, frameSize_eq]
  omega

theorem card_clearBits_le (b : Bitmap) (n : ℕ) : (b.clearBits n).card ≤ n :=
  (Finset.card_filter_le ..).trans_eq (Finset.card_range n)

theorem Pmm.Surplus.set (h : s.Surplus d) {i : ℕ} (hi : i < s.frames) (ht : s.bitmap.test i = false) :
    Pmm.Surplus { s with bitmap := s.bitmap.set i, free := sub64 s.free frameSize } d := by
  have hmem : i ∈ s.bitmap.clearBits s.frames := Bitmap.mem_clearBits.mpr ⟨hi, ht⟩
  have hcard := Finset.card_erase_of_mem hmem
  have hpos := Finset.card_pos.mpr ⟨i, hmem⟩
  rw [Pmm.Surplus] at h
  change sub64 s.free frameSize = 4096 * ((s.bitmap.set i).clearBits s.frames).card + d
  rw [Bitmap.clearBits_set, hcard, frameSize_eq, sub64_of_le (by omega)]
  omega

theorem Pmm.Surplus.clear (h : s.Surplus 0) (hp : s.Paged) {i : ℕ} (hi : i < s.frames) (ht : s.bitmap.test i = true) :
    Pmm.Surplus { s with bitmap := s.bitmap.clear i, free := (s.free + frameSize) % 2 ^ 64 } 0 := by
  have hnot : i ∉ s.bitmap.clearBits s.frames := by
    rw [Bitmap.mem_clearBits, ht]
    simp
  have hcard := Finset.card_insert_of_notMem hnot
  have hle := card_clearBits_le (s.bitmap.clear i) s.frames
  have hbound := hp.frames_bound
  rw [Bitmap.clearBits_clear _ hi] at hle
  rw [Pmm.Surplus] at h
  change (s.free + frameSize) % 2 ^ 64 = 4096 * ((s.bitmap.clear i).clearBits s.frames).card + 0
  rw [Bitmap.clearBits_clear _ hi, frameSize_eq, Nat.mod_eq_of_lt (by omega)]
  omega

theorem reserveFrames_surplus {n a : ℕ} (h : s.Surplus d)
    (hi : ∀ k < n, s.addrToIndex (a + k * frameSize) < s.frames) : (reserveFrames n a s).Surplus d := by
  induction n generalizing a s with
  | zero => exact h
  | succ n ih =>
    have hidx : s.addrToIndex a < s.frames := by simpa using hi 0 (by omega)
    have hnext : ∀ k < n, s.addrToIndex (a + frameSize + k * frameSize) < s.frames := by
      intro k hk
      have := hi (k + 1) (by omega)
      rwa [Nat.add_mul, Nat.one_mul, Nat.add_comm (k * frameSize), ← Nat.add_assoc] at this
    rw [reserveFrames]
    split
    case isTrue ht => exact ih h hnext
    case isFalse ht =>
      apply ih
      · exact h.set hidx (Bool.not_eq_true _ ▸ ht)
      · exact hnext

theorem pmmReserve_surplus (hp : s.Paged) (h : s.Surplus d) (paddr size : ℕ) : (pmmReserve s paddr size).Surplus d := by
  have hb := hp.base_aligned
  have hw := hp.limit_aligned
  have hfr := hp.frames_eq
  have hc2 := clamp_snd_le s paddr size
  have hc1 := clamp_fst hb paddr size
  have hge : s.bitmapBase ≤ (s.clamp paddr size).1 := le_max_right _ _
  rw [pmmReserve]
  generalize s.clamp paddr size = c at hc1 hc2 hge ⊢
  apply reserveFrames_surplus h
  intro k hk
  rw [addrToIndex_of_ge (by omega), hfr]
  simp only [Pmm.frameAddr, frameSize_eq] at hk hc1 ⊢
  omega

theorem freeLoop_surplus {n i : ℕ} (hp : s.Paged) (h : s.Surplus 0) : (freeLoop n i s).Surplus 0 := by
  induction n generalizing i s with
  | zero => exact h
  | succ n ih =>
    rw [freeLoop]
    split
    case isTrue => exact h
    case isFalse hi =>
      split
      case isTrue ht =>
        apply ih
        · exact SameFrame.paged (s := s) ⟨rfl, rfl, rfl⟩ hp
        · exact h.clear hp (by omega) ht
      case isFalse => exact ih hp h

theorem pmmFreeFrames_surplus (hp : s.Paged) (h : s.Surplus 0) (paddr count : ℕ) :
    (pmmFreeFrames s paddr count).Surplus 0 := by
  rw [pmmFreeFrames]
  split
  case isTrue => exact h
  case isFalse => exact freeLoop_surplus hp h

theorem Pmm.Surplus.take (h : s.Surplus d) (hp : s.Paged) {start count : ℕ} (hle : start + count ≤ s.frames)
    (hclear : ∀ j, start ≤ j → j < start + count → s.bitmap.test j = false) :
    Pmm.Surplus { s with
      bitmap := s.bitmap.fill true count start
      free := sub64 s.free (count * frameSize % 2 ^ 64) } d := by
  have hsub : Finset.Ico start (start + count) ⊆ s.bitmap.clearBits s.frames := by
    intro j hj
    rw [Finset.mem_Ico] at hj
    exact Bitmap.mem_clearBits.mpr ⟨by omega, hclear j hj.1 hj.2⟩
  have hcard := Finset.card_sdiff_of_subset hsub
  have hge := Finset.card_le_card hsub
  have hbound := hp.frames_bound
  rw [Nat.card_Ico] at hcard hge
  rw [Pmm.Surplus] at h
  change sub64 s.free (count * frameSize % 2 ^ 64) = 4096 * ((s.bitmap.fill true count start).clearBits s.frames).card + d
  rw [Bitmap.clearBits_fill, hcard, frameSize_eq, Nat.mod_eq_of_lt (by omega), sub64_of_le (by omega)]
  omega

theorem allocBelowIndex_surplus (hp : s.Paged) (h : s.Surplus d) {count limitIdx : ℕ} (hl : limitIdx ≤ s.frames) :
    (allocBelowIndex s count limitIdx).2.Surplus d := by
  rcases allocBelowIndex_cases s count limitIdx with hnone | ⟨start, -, hle, hclear, -, hsome⟩
  · rw [hnone]
    exact h
  · rw [hsome]
    exact h.take hp (by omega) hclear

theorem freeLoop_fields (n i : ℕ) (s : Pmm) : ∃ b f, freeLoop n i s = { s with bitmap := b, free := f } := by
  induction n generalizing i s with
  | zero => exact ⟨_, _, rfl⟩
  | succ n ih =>
    rw [freeLoop]
    split
    case isTrue => exact ⟨_, _, rfl⟩
    case isFalse =>
      split
      case isTrue =>
        obtain ⟨b, f, h⟩ := ih (i + 1) { s with bitmap := s.bitmap.clear i, free := (s.free + frameSize) % 2 ^ 64 }
        exact ⟨b, f, h⟩
      case isFalse => exact ih (i + 1) s

theorem alloc_free (hp : s.Paged) (h : s.Surplus 0) {count limitIdx : ℕ} (hl : limitIdx ≤ s.frames) :
    allocBelowIndex s count limitIdx = (0, s) ∨
      pmmFreeFrames (allocBelowIndex s count limitIdx).2 (allocBelowIndex s count limitIdx).1 count = s := by
  rcases allocBelowIndex_cases s count limitIdx with hnone | ⟨start, hc, hle, hclear, -, hsome⟩
  · exact .inl hnone
  · right
    have hsur := h.take hp (show start + count ≤ s.frames by omega) hclear
    have hend := hp.frame_lt (i := start) (by omega)
    have hlim := hp.limit_lt
    have hbase : s.bitmapBase ≤ s.frameAddr start := Nat.le_add_right ..
    rw [hsome, Nat.mod_eq_of_lt (a := s.frameAddr start) (by omega)]
    dsimp only
    generalize hf : sub64 s.free (count * frameSize % 2 ^ 64) = f at hsur
    rw [pmmFreeFrames, if_neg (by dsimp only; omega)]
    change freeLoop count (s.addrToIndex (s.frameAddr start)) _ = s
    rw [addrToIndex_frameAddr]
    -- both states have the same bits, and the same count for them
    have hpaged : Pmm.Paged { s with bitmap := s.bitmap.fill true count start, free := f } :=
      SameFrame.paged (s := s) ⟨rfl, rfl, rfl⟩ hp
    have hback := freeLoop_surplus (n := count) (i := start) hpaged hsur
    have hbits : (freeLoop count start { s with bitmap := s.bitmap.fill true count start, free := f }).bitmap = s.bitmap := by
      apply Bitmap.ext_test
      intro j
      have hroom : start + count ≤ Pmm.frames { s with bitmap := s.bitmap.fill true count start, free := f } :=
        hle.trans hl
      rw [freeLoop_test hroom]
      dsimp only
      rw [Bitmap.test_fill]
      split
      case isTrue hj => simp [hj, hclear j hj.1 hj.2]
      case isFalse hj => simp [hj]
    obtain ⟨b, f', hfields⟩ := freeLoop_fields count start { s with bitmap := s.bitmap.fill true count start, free := f }
    rw [hfields] at hbits hback ⊢
    dsimp only at hbits
    subst hbits
    rw [Pmm.Surplus] at h hback
    have hfree : f' = s.free := hback.trans h.symm
    rw [hfree]

inductive Op
  | reserve (paddr size : ℕ)
  | alloc (count : ℕ)
  | allocBelow (count maxPhysExclusive : ℕ)
  | free (paddr count : ℕ)

def opStep (s : Pmm) : Op → Pmm
  | .reserve paddr size => pmmReserve s paddr size
  | .alloc count => (pmmAllocFrames s count).2
  | .allocBelow count maxPhysExclusive => (pmmAllocFramesBelow s count maxPhysExclusive).2
  | .free paddr count => pmmFreeFrames s paddr count

/-- The free count is the number of bytes in free frames. -/
def Pmm.Accounted (s : Pmm) : Prop := s.free = 4096 * (s.bitmap.clearBits s.frames).card

theorem accounted_iff : s.Accounted ↔ s.Surplus 0 := Iff.rfl

theorem opStep_same (s : Pmm) (op : Op) : SameFrame s (opStep s op) := by
  cases op with
  | reserve paddr size => exact pmmReserve_same s paddr size
  | alloc count => exact allocBelowIndex_same ..
  | allocBelow count maxPhysExclusive => exact allocBelowIndex_same ..
  | free paddr count => exact pmmFreeFrames_same s paddr count

theorem opStep_accounted (hp : s.Paged) (h : s.Accounted) (op : Op) : (opStep s op).Accounted := by
  rw [accounted_iff] at h ⊢
  cases op with
  | reserve paddr size => exact pmmReserve_surplus hp h paddr size
  | alloc count => exact allocBelowIndex_surplus hp h (le_refl _)
  | allocBelow count maxPhysExclusive => exact allocBelowIndex_surplus hp h (min_le_right _ _)
  | free paddr count => exact pmmFreeFrames_surplus hp h paddr count

theorem run_same (s₀ : Pmm) (ops : List Op) : SameFrame s₀ (ops.foldl opStep s₀) := by
  induction ops generalizing s₀ with
  | nil => exact SameFrame.refl s₀
  | cons op ops ih => exact (opStep_same s₀ op).trans (ih _)

theorem run_accounted {s₀ : Pmm} (hp : s₀.Paged) (h : s₀.Accounted) (ops : List Op) :
    (ops.foldl opStep s₀).Paged ∧ (ops.foldl opStep s₀).Accounted := by
  induction ops generalizing s₀ with
  | nil => exact ⟨hp, h⟩
  | cons op ops ih => exact ih ((opStep_same s₀ op).paged hp) (opStep_accounted hp h op)

/-- After every run of calls with any arguments the free count is the number of bytes in free frames, and
freeing a run that has just been allocated restores the state. -/
theorem free_count_exact {s₀ : Pmm} (hp : s₀.Paged) (h : s₀.Accounted) (ops : List Op) :
    (ops.foldl opStep s₀).Accounted ∧ (ops.foldl opStep s₀).free ≤ s₀.bitmapLimit - s₀.bitmapBase ∧
      (∀ count, pmmAllocFrames (ops.foldl opStep s₀) count = (0, ops.foldl opStep s₀) ∨
        pmmFreeFrames (pmmAllocFrames (ops.foldl opStep s₀) count).2 (pmmAllocFrames (ops.foldl opStep s₀) count).1
          count = ops.foldl opStep s₀) ∧
      ∀ count maxPhysExclusive,
        pmmAllocFramesBelow (ops.foldl opStep s₀) count maxPhysExclusive = (0, ops.foldl opStep s₀) ∨
          pmmFreeFrames (pmmAllocFramesBelow (ops.foldl opStep s₀) count maxPhysExclusive).2
            (pmmAllocFramesBelow (ops.foldl opStep s₀) count maxPhysExclusive).1 count = ops.foldl opStep s₀ := by
  obtain ⟨hp', h'⟩ := run_accounted hp h ops
  refine ⟨h', ?_, fun count => alloc_free hp' h' (le_refl _), fun count _ => alloc_free hp' h' (min_le_right _ _)⟩
  have hsame := run_same s₀ ops
  have hle := card_clearBits_le (ops.foldl opStep s₀).bitmap (ops.foldl opStep s₀).frames
  have hfr := hp'.frames_eq
  rw [hsame.base, hsame.limit] at hfr
  rw [Pmm.Accounted] at h'
  omega

def fourFrames : Pmm := ⟨[], 0x100000, 0x104000, 0, 0, 16384, fun _ => 0⟩

theorem fourFrames_paged : fourFrames.Paged := ⟨by decide, by decide, by decide, by decide⟩

theorem fourFrames_accounted : fourFrames.Accounted := by
  rw [Pmm.Accounted, fourFrames_paged.frames_eq]
  decide

theorem free_count_exact_four :
    (List.foldl opStep fourFrames [.alloc 2, .free 0x100000 1, .free 0x100000 5, .reserve 0x103fff 1]).Accounted :=
  (free_count_exact fourFrames_paged fourFrames_accounted _).1

end DexOs.Frames
