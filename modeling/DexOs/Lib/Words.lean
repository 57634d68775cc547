import Mathlib.Algebra.Order.Ring.Nat
import Mathlib.Tactic.Common

/-! Unsigned 64-bit arithmetic on natural numbers. -/

namespace DexOs.Lib

@[irreducible] def sub64 (a b : ℕ) : ℕ := if b ≤ a then a - b else a + 2 ^ 64 - b

@[irreducible] def alignUp (x a : ℕ) : ℕ := (x + (a - 1)) % 2 ^ 64 / a * a

@[irreducible] def alignDown (x a : ℕ) : ℕ := x / a * a

theorem sub64_of_le {a b : ℕ} (h : b ≤ a) : sub64 a b = a - b := by
  unfold sub64
  rw [if_pos h]

theorem alignUp_dvd (x a : ℕ) : a ∣ alignUp x a := by
  unfold alignUp
  exact Nat.dvd_mul_left a _

theorem le_alignUp {x a : ℕ} (ha : 0 < a) (hx : x + (a - 1) < 2 ^ 64) : x ≤ alignUp x a := by
  unfold alignUp
  rw [Nat.mod_eq_of_lt hx]
  have hdiv := Nat.div_add_mod (x + (a - 1)) a
  have hmod := Nat.mod_lt (x + (a - 1)) ha
  rw [Nat.mul_comm] at hdiv
  omega

theorem alignUp_le_of_wrap {x a : ℕ} (hx : 2 ^ 64 ≤ x + (a - 1)) (hlt : x + (a - 1) < 2 ^ 65) :
    alignUp x a ≤ x + (a - 1) - 2 ^ 64 := by
  unfold alignUp
  have hmod : (x + (a - 1)) % 2 ^ 64 = x + (a - 1) - 2 ^ 64 := by omega
  rw [hmod]
  exact Nat.div_mul_le_self _ a

theorem alignDown_le (x a : ℕ) : alignDown x a ≤ x := by
  unfold alignDown
  exact Nat.div_mul_le_self x a

end DexOs.Lib
