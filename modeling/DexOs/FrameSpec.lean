import DexOs.FrameAllocator

/-! One specification for each operation of the frame allocator, on bit indices. -/

namespace DexOs.Frames

open DexOs.Lib

def Pmm.frameAddr (s : Pmm) (i : ℕ) : ℕ := s.bitmapBase + i * frameSize

structure Pmm.Framed (s : Pmm) : Prop where
  base_aligned : 4096 ∣ s.bitmapBase
  base_le : s.bitmapBase ≤ s.bitmapLimit
  limit_le : s.bitmapLimit ≤ 2 ^ 32

structure SameFrame (s s' : Pmm) : Prop where
  regions : s'.regions = s.regions
  base : s'.bitmapBase = s.bitmapBase
  limit : s'.bitmapLimit = s.bitmapLimit

theorem SameFrame.refl (s : Pmm) : SameFrame s s := ⟨rfl, rfl, rfl⟩

theorem SameFrame.trans {s t u : Pmm} (h : SameFrame s t) (h' : SameFrame t u) : SameFrame s u :=
  ⟨h'.regions.trans h.regions, h'.base.trans h.base, h'.limit.trans h.limit⟩

theorem SameFrame.frameAddr {s s' : Pmm} (h : SameFrame s s') (i : ℕ) :
    s'.frameAddr i = s.frameAddr i := by rw [Pmm.frameAddr, Pmm.frameAddr, h.base]

theorem SameFrame.frames {s s' : Pmm} (h : SameFrame s s') : s'.frames = s.frames := by
  rw [Pmm.frames, Pmm.frames, h.base, h.limit]

theorem SameFrame.framed {s s' : Pmm} (h : SameFrame s s') (hf : s.Framed) : s'.Framed :=
  ⟨h.base ▸ hf.base_aligned, by rw [h.base, h.limit]; exact hf.base_le, h.limit ▸ hf.limit_le⟩

variable {s : Pmm}

theorem Pmm.Framed.frames_eq (hf : s.Framed) :
    s.frames = (s.bitmapLimit - s.bitmapBase) / 4096 := by
  rw [Pmm.frames, sub64_of_le hf.base_le, frameSize_eq]

theorem Pmm.Framed.frame_lt (hf : s.Framed) {i : ℕ} (hi : i < s.frames) :
    s.frameAddr i + 4096 ≤ s.bitmapLimit := by
  rw [hf.frames_eq] at hi
  have := hf.base_le
  simp only [Pmm.frameAddr, frameSize_eq]
  omega

theorem Pmm.Framed.frame_aligned (hf : s.Framed) (i : ℕ) : 4096 ∣ s.frameAddr i := by
  have := hf.base_aligned
  simp only [Pmm.frameAddr, frameSize_eq]
  omega

theorem addrToIndex_of_ge {a : ℕ} (h : s.bitmapBase ≤ a) :
    s.addrToIndex a = (a - s.bitmapBase) / 4096 := by
  rw [Pmm.addrToIndex, sub64_of_le h, frameSize_eq]

theorem addrToIndex_frameAddr (s : Pmm) (i : ℕ) : s.addrToIndex (s.frameAddr i) = i := by
  rw [addrToIndex_of_ge (by simp [Pmm.frameAddr])]
  simp only [Pmm.frameAddr, frameSize_eq]
  omega

theorem clamp_fst (hb : 4096 ∣ s.bitmapBase) (paddr size : ℕ) :
    (s.clamp paddr size).1 = s.frameAddr (((s.clamp paddr size).1 - s.bitmapBase) / 4096) := by
  simp only [Pmm.clamp, Pmm.frameAddr, alignDown, frameSize_eq]
  omega

theorem clamp_snd_le (s : Pmm) (paddr size : ℕ) : (s.clamp paddr size).2 ≤ s.bitmapLimit :=
  min_le_right _ _

theorem markRange_same (s : Pmm) (paddr size : ℕ) (used : Bool) :
    SameFrame s (markRange s paddr size used) := by
  unfold markRange
  dsimp only
  split_ifs <;> exact ⟨rfl, rfl, rfl⟩

theorem markRange_test (hf : s.Framed) {paddr size : ℕ} (hs : 0 < size) (used : Bool) (i : ℕ) :
    (markRange s paddr size used).bitmap.test i =
      if (s.clamp paddr size).1 ≤ s.frameAddr i ∧ s.frameAddr i + 4096 ≤ (s.clamp paddr size).2
      then used else s.bitmap.test i := by
  have hl := hf.limit_le
  have hc2 := clamp_snd_le s paddr size
  have hc1 := clamp_fst hf.base_aligned paddr size
  have hge : s.bitmapBase ≤ (s.clamp paddr size).1 := le_max_right _ _
  unfold markRange
  rw [if_neg (show ¬ size = 0 by omega)]
  dsimp only
  generalize s.clamp paddr size = c at *
  by_cases hc : c.2 ≤ c.1
  · rw [if_pos hc, if_neg (show ¬ (c.1 ≤ s.frameAddr i ∧ s.frameAddr i + 4096 ≤ c.2) by omega)]
  · rw [if_neg hc]
    dsimp only
    rw [Bitmap.test_fill, addrToIndex_of_ge hge, addrToIndex_of_ge (by omega)]
    have hiff : ((c.1 - s.bitmapBase) / 4096 ≤ i ∧ i < (c.1 - s.bitmapBase) / 4096 +
        ((c.2 - s.bitmapBase) / 4096 - (c.1 - s.bitmapBase) / 4096)) ↔
        (c.1 ≤ s.frameAddr i ∧ s.frameAddr i + 4096 ≤ c.2) := by
      simp only [Pmm.frameAddr, frameSize_eq] at hc1 ⊢
      omega
    simp only [hiff]

theorem reserveFrames_same (n a : ℕ) (s : Pmm) : SameFrame s (reserveFrames n a s) := by
  induction n generalizing a s with
  | zero => exact SameFrame.refl s
  | succ n ih =>
    rw [reserveFrames]
    refine SameFrame.trans ?_ (ih _ _)
    split_ifs <;> exact ⟨rfl, rfl, rfl⟩

theorem reserveFrames_test (n k i : ℕ) (s : Pmm) :
    (reserveFrames n (s.frameAddr k) s).bitmap.test i =
      (s.bitmap.test i || decide (k ≤ i ∧ i < k + n)) := by
  induction n generalizing k s with
  | zero =>
    have hn : decide (k ≤ i ∧ i < k + 0) = false := decide_eq_false (by omega)
    rw [reserveFrames, hn, Bool.or_false]
  | succ n ih =>
    have hnext : s.frameAddr k + frameSize = s.frameAddr (k + 1) := by
      simp only [Pmm.frameAddr, Nat.add_mul, Nat.one_mul, Nat.add_assoc]
    have hsplit : (k ≤ i ∧ i < k + (n + 1)) ↔ k = i ∨ (k + 1 ≤ i ∧ i < k + 1 + n) := by omega
    rw [reserveFrames]
    simp only [addrToIndex_frameAddr, hnext]
    split_ifs with ht
    · rw [ih]
      by_cases hki : k = i
      · subst hki; simp [ht]
      · simp [hsplit, hki]
    · have h' := ih (k + 1) { s with bitmap := s.bitmap.set k, free := sub64 s.free frameSize }
      refine h'.trans ?_
      by_cases hki : k = i
      · subst hki; simp
      · simp [hsplit, hki]

theorem pmmReserve_same (s : Pmm) (paddr size : ℕ) : SameFrame s (pmmReserve s paddr size) :=
  reserveFrames_same _ _ s

theorem pmmReserve_test (hf : s.Framed) (paddr size i : ℕ) :
    (pmmReserve s paddr size).bitmap.test i = (s.bitmap.test i ||
      decide ((s.clamp paddr size).1 ≤ s.frameAddr i ∧ s.frameAddr i < (s.clamp paddr size).2)) := by
  have hl := hf.limit_le
  have hc2 := clamp_snd_le s paddr size
  have hc1 := clamp_fst hf.base_aligned paddr size
  have hge : s.bitmapBase ≤ (s.clamp paddr size).1 := le_max_right _ _
  unfold pmmReserve
  dsimp only
  generalize s.clamp paddr size = c at *
  by_cases hc : c.2 ≤ c.1
  · have h0 : (c.2 - c.1 + (frameSize - 1)) / frameSize = 0 := by simp only [frameSize_eq]; omega
    have hn : ¬ (c.1 ≤ s.frameAddr i ∧ s.frameAddr i < c.2) := by omega
    rw [h0]
    simp [reserveFrames, hn]
  · have key := reserveFrames_test ((c.2 - c.1 + (frameSize - 1)) / frameSize)
      ((c.1 - s.bitmapBase) / 4096) i s
    rw [← hc1] at key
    rw [key]
    have hiff : ((c.1 - s.bitmapBase) / 4096 ≤ i ∧
        i < (c.1 - s.bitmapBase) / 4096 + (c.2 - c.1 + (frameSize - 1)) / frameSize) ↔
        (c.1 ≤ s.frameAddr i ∧ s.frameAddr i < c.2) := by
      simp only [Pmm.frameAddr, frameSize_eq] at hc1 ⊢
      omega
    simp only [hiff]

theorem freeLoop_same (n i : ℕ) (s : Pmm) : SameFrame s (freeLoop n i s) := by
  induction n generalizing i s with
  | zero => exact SameFrame.refl s
  | succ n ih =>
    rw [freeLoop]
    split_ifs
    · exact SameFrame.refl s
    · refine SameFrame.trans ?_ (ih _ _)
      exact ⟨rfl, rfl, rfl⟩
    · exact ih _ _

theorem freeLoop_test {n i : ℕ} (h : i + n ≤ s.frames) (j : ℕ) :
    (freeLoop n i s).bitmap.test j = (s.bitmap.test j && !decide (i ≤ j ∧ j < i + n)) := by
  induction n generalizing i s with
  | zero =>
    have hn : decide (i ≤ j ∧ j < i + 0) = false := decide_eq_false (by omega)
    rw [freeLoop, hn, Bool.not_false, Bool.and_true]
  | succ n ih =>
    have hsplit : (i ≤ j ∧ j < i + (n + 1)) ↔ i = j ∨ (i + 1 ≤ j ∧ j < i + 1 + n) := by omega
    rw [freeLoop, if_neg (by omega)]
    split_ifs with ht
    · have h' := ih (s := { s with bitmap := s.bitmap.clear i, free := (s.free + frameSize) % 2 ^ 64 })
        (i := i + 1) (by change i + 1 + n ≤ s.frames; omega)
      refine h'.trans ?_
      by_cases hij : i = j
      · subst hij; simp
      · simp [hsplit, hij]
    · rw [ih (by omega)]
      by_cases hij : i = j
      · subst hij; simp [ht]
      · simp [hsplit, hij]

theorem scanRun_sound {b : Bitmap} {count n i run runStart r : ℕ}
    (hrun : run = 0 ∨ runStart + run = i) (hclear : ∀ j, runStart ≤ j → j < runStart + run → b.test j = false)
    (hr : scanRun b count n i run runStart = some r) :
    r + count ≤ i + n ∧ ∀ j, r ≤ j → j < r + count → b.test j = false := by
  induction n generalizing i run runStart with
  | zero => simp [scanRun] at hr
  | succ n ih =>
    rw [scanRun] at hr
    dsimp only at hr
    split_ifs at hr with ht hcount h0 h0
    · obtain rfl := Option.some.inj hr
      refine ⟨by omega, fun j hj hj' => ?_⟩
      rwa [show j = i by omega]
    · obtain rfl := Option.some.inj hr
      refine ⟨by omega, fun j hj hj' => ?_⟩
      by_cases hji : j = i
      · rwa [hji]
      · exact hclear j hj (by omega)
    · have hrest := ih (by omega) (fun j hj hj' => by rwa [show j = i by omega]) hr
      exact ⟨by omega, hrest.2⟩
    · have hrest := ih (by omega) (fun j hj hj' => ?_) hr
      · exact ⟨by omega, hrest.2⟩
      · by_cases hji : j = i
        · rwa [hji]
        · exact hclear j hj (by omega)
    · have hrest := ih (.inl rfl) (fun j hj hj' => by omega) hr
      exact ⟨by omega, hrest.2⟩

theorem allocBelowIndex_cases (s : Pmm) (count limitIdx : ℕ) :
    allocBelowIndex s count limitIdx = (0, s) ∨
      ∃ start, 0 < count ∧ start + count ≤ limitIdx ∧
        (∀ j, start ≤ j → j < start + count → s.bitmap.test j = false) ∧
        count * frameSize % 2 ^ 64 ≤ s.free ∧
        allocBelowIndex s count limitIdx = (s.frameAddr start % 2 ^ 64,
          { s with bitmap := s.bitmap.fill true count start,
                   free := sub64 s.free (count * frameSize % 2 ^ 64) }) := by
  unfold allocBelowIndex
  dsimp only
  split_ifs with h0 hfree
  · exact .inl rfl
  · exact .inl rfl
  · cases hr : scanRun s.bitmap count limitIdx 0 0 0 with
    | none => exact .inl rfl
    | some start =>
      have hc : 0 < count := Nat.pos_of_ne_zero h0
      obtain ⟨hle, hclear⟩ := scanRun_sound (.inl rfl) (fun j _ hj => by omega) hr
      exact .inr ⟨start, hc, by omega, hclear, by omega, rfl⟩

theorem allocBelowIndex_same (s : Pmm) (count limitIdx : ℕ) :
    SameFrame s (allocBelowIndex s count limitIdx).2 := by
  rcases allocBelowIndex_cases s count limitIdx with h | ⟨_, _, _, _, _, h⟩
  · rw [h]
    exact SameFrame.refl s
  · rw [h]
    exact ⟨rfl, rfl, rfl⟩

theorem pmmFreeFrames_same (s : Pmm) (paddr count : ℕ) : SameFrame s (pmmFreeFrames s paddr count) := by
  unfold pmmFreeFrames
  split_ifs
  · exact SameFrame.refl s
  · exact freeLoop_same _ _ s

end DexOs.Frames
