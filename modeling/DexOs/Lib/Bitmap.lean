import Mathlib.Data.Finset.Card
import Mathlib.Data.Finset.Range
import Mathlib.Order.Interval.Finset.Nat

/-! Bits stored in a byte array. -/

namespace DexOs.Lib

abbrev Bitmap := ℕ → BitVec 8

namespace Bitmap

def test (b : Bitmap) (i : ℕ) : Bool := (b (i >>> 3) >>> (i &&& 7)) &&& 1#8 != 0#8

def set (b : Bitmap) (i : ℕ) : Bitmap :=
  Function.update b (i >>> 3) (b (i >>> 3) ||| 1#8 <<< (i &&& 7))

def clear (b : Bitmap) (i : ℕ) : Bitmap :=
  Function.update b (i >>> 3) (b (i >>> 3) &&& ~~~(1#8 <<< (i &&& 7)))

theorem and_seven (i : ℕ) : i &&& 7 = i % 8 := Nat.and_two_pow_sub_one_eq_mod i 3

theorem shift_three (i : ℕ) : i >>> 3 = i / 8 := Nat.shiftRight_eq_div_pow i 3

theorem test_eq (b : Bitmap) (i : ℕ) : b.test i = (b (i / 8)).getLsbD (i % 8) := by
  have key : ∀ x : BitVec 8, ∀ k : Fin 8, ((x >>> k.1) &&& 1#8 != 0#8) = x.getLsbD k.1 := by decide +kernel
  rw [test, and_seven, shift_three]
  exact key _ ⟨i % 8, by omega⟩

theorem getLsbD_one_shiftLeft (i j : ℕ) :
    (1#8 <<< (i % 8)).getLsbD (j % 8) = decide (i % 8 = j % 8) := by
  have key : ∀ k l : Fin 8, (1#8 <<< k.1).getLsbD l.1 = decide (k.1 = l.1) := by decide
  exact key ⟨i % 8, by omega⟩ ⟨j % 8, by omega⟩

@[simp] theorem test_set (b : Bitmap) (i j : ℕ) : (b.set i).test j = (b.test j || decide (i = j)) := by
  rw [test_eq, test_eq, set, and_seven, shift_three]
  by_cases hb : j / 8 = i / 8
  · rw [hb, Function.update_self, BitVec.getLsbD_or, getLsbD_one_shiftLeft]
    congr 2
    exact propext ⟨fun h => by omega, fun h => by omega⟩
  · rw [Function.update_of_ne hb]
    have hne : i ≠ j := fun h => hb (by rw [h])
    simp [hne]

@[simp] theorem test_clear (b : Bitmap) (i j : ℕ) :
    (b.clear i).test j = (b.test j && decide (i ≠ j)) := by
  rw [test_eq, test_eq, clear, and_seven, shift_three]
  by_cases hb : j / 8 = i / 8
  · have hlt : j % 8 < 8 := Nat.mod_lt _ (by decide)
    rw [hb, Function.update_self, BitVec.getLsbD_and, BitVec.getLsbD_not, getLsbD_one_shiftLeft]
    have hiff : (i % 8 = j % 8) ↔ i = j := ⟨fun h => by omega, fun h => by omega⟩
    simp [hlt, hiff]
  · rw [Function.update_of_ne hb]
    have hne : i ≠ j := fun h => hb (by rw [h])
    simp [hne]

def fill (v : Bool) : ℕ → ℕ → Bitmap → Bitmap
  | 0, _, b => b
  | n + 1, i, b => fill v n (i + 1) (if v then b.set i else b.clear i)

theorem test_fill (v : Bool) (n i : ℕ) (b : Bitmap) (j : ℕ) :
    (fill v n i b).test j = if i ≤ j ∧ j < i + n then v else b.test j := by
  induction n generalizing i b with
  | zero => simp only [fill]; rw [if_neg (by omega)]
  | succ n ih =>
    rw [fill, ih]
    by_cases hij : i = j
    · subst hij
      cases v <;> simp
    · by_cases hr : i + 1 ≤ j ∧ j < i + 1 + n
      · rw [if_pos hr, if_pos (show i ≤ j ∧ j < i + (n + 1) by omega)]
      · rw [if_neg hr, if_neg (show ¬ (i ≤ j ∧ j < i + (n + 1)) by omega)]
        cases v <;> simp [hij]

def clearBits (b : Bitmap) (n : ℕ) : Finset ℕ := (Finset.range n).filter fun i => b.test i = false

theorem mem_clearBits {b : Bitmap} {n i : ℕ} : i ∈ b.clearBits n ↔ i < n ∧ b.test i = false := by
  simp [clearBits]

theorem clearBits_set (b : Bitmap) (n i : ℕ) : (b.set i).clearBits n = (b.clearBits n).erase i := by
  ext j
  simp only [mem_clearBits, test_set, Finset.mem_erase, Bool.or_eq_false_iff, decide_eq_false_iff_not]
  constructor
  · rintro ⟨h1, h2, h3⟩
    exact ⟨Ne.symm h3, h1, h2⟩
  · rintro ⟨h1, h2, h3⟩
    exact ⟨h2, h3, Ne.symm h1⟩

theorem clearBits_clear (b : Bitmap) {n i : ℕ} (hi : i < n) : (b.clear i).clearBits n = insert i (b.clearBits n) := by
  ext j
  rw [mem_clearBits, test_clear, Finset.mem_insert, mem_clearBits]
  by_cases hj : j = i
  · simp [hj, hi]
  · simp [hj, Ne.symm hj]

theorem clearBits_fill (b : Bitmap) (n count i : ℕ) :
    (fill true count i b).clearBits n = b.clearBits n \ Finset.Ico i (i + count) := by
  ext j
  rw [mem_clearBits, test_fill, Finset.mem_sdiff, mem_clearBits, Finset.mem_Ico]
  split
  case isTrue h => simp [h]
  case isFalse h => simp [h]

theorem ext_test {b b' : Bitmap} (h : ∀ i, b.test i = b'.test i) : b = b' := by
  funext k
  apply BitVec.eq_of_getLsbD_eq
  intro j hj
  have hk := h (8 * k + j)
  rw [test_eq, test_eq] at hk
  rwa [show (8 * k + j) / 8 = k by omega, show (8 * k + j) % 8 = j by omega] at hk

end Bitmap

end DexOs.Lib
