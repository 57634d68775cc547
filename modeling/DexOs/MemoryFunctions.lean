import DexOs.BlockDevice
import DexOs.Lib.Rows

/-! `memcpy` and `memmove` of `mem.c`. -/

namespace DexOs

open DexOs.Lib

def memcpy (m : Memory) (dst src n : ℕ) : ℕ × Memory := (dst, moveCells src dst n m)

def memmove (m : Memory) (dst src n : ℕ) : ℕ × Memory :=
  if dst = src ∨ n = 0 then (dst, m)
  else if dst < src then (dst, moveCells src dst n m)
  else (dst, moveCellsDown src dst n m)

variable {dst src n : ℕ}

theorem memmove_apply (m : Memory) (dst src n a : ℕ) :
    (memmove m dst src n).2 a = if dst ≤ a ∧ a < dst + n then m (src + (a - dst)) else m a := by
  unfold memmove
  by_cases htriv : dst = src ∨ n = 0
  · rw [if_pos htriv]
    split_ifs with ha
    · rcases htriv with rfl | rfl
      · rw [Nat.add_sub_cancel' ha.1]
      · omega
    · rfl
  rw [if_neg htriv]
  by_cases hlt : dst < src
  · rw [if_pos hlt]
    exact moveCells_apply (.inl hlt.le) m a
  · rw [if_neg hlt]
    exact moveCellsDown_apply (Nat.le_of_not_lt hlt) n m a

/-- The bytes behind `src` are copied as they were before the call, however the ranges overlap. -/
theorem memmove_copies (m : Memory) (dst src n : ℕ) :
    (memmove m dst src n).1 = dst ∧ peek (memmove m dst src n).2 dst n = peek m src n ∧
      ∀ a, a < dst ∨ dst + n ≤ a → (memmove m dst src n).2 a = m a := by
  refine ⟨?_, ?_, ?_⟩
  · unfold memmove
    split_ifs <;> rfl
  · apply List.map_congr_left
    intro i hi
    rw [List.mem_range] at hi
    rw [memmove_apply, if_pos (by omega), Nat.add_sub_cancel_left]
  · intro a ha
    rw [memmove_apply, if_neg (by omega)]

theorem memcpy_eq_memmove (h : dst ≤ src ∨ src + n ≤ dst) (m : Memory) : memcpy m dst src n = memmove m dst src n := by
  apply Prod.ext
  · exact (memmove_copies m dst src n).1.symm
  · funext a
    rw [memmove_apply]
    exact moveCells_apply h m a

end DexOs
