import Mathlib.Logic.Function.Basic
import Mathlib.Order.Nat
import Mathlib.Tactic.Common

/-! Printing on an endless tape that is cut into rows of `w` cells. The cursor moves right by printing only, and
left inside a row only. -/

namespace DexOs.Lib

structure Tape (α : Type) where
  cells : ℕ → α
  pos : ℕ

namespace Tape

variable {α : Type} {w : ℕ}

def print (t : Tape α) (x : α) : Tape α := ⟨Function.update t.cells t.pos x, t.pos + 1⟩

def back (w : ℕ) (t : Tape α) : Tape α := ⟨t.cells, if t.pos % w = 0 then t.pos else t.pos - 1⟩

def printAll (t : Tape α) (xs : List α) : Tape α := xs.foldl print t

def backs (w : ℕ) : ℕ → Tape α → Tape α
  | 0, t => t
  | n + 1, t => backs w n (back w t)

@[simp] theorem printAll_pos (t : Tape α) (xs : List α) : (t.printAll xs).pos = t.pos + xs.length := by
  induction xs generalizing t with
  | nil => rfl
  | cons x xs ih =>
    change ((t.print x).printAll xs).pos = _
    rw [ih, List.length_cons]
    change t.pos + 1 + xs.length = _
    omega

theorem printAll_cells_before (t : Tape α) (xs : List α) {p : ℕ} (h : p < t.pos) : (t.printAll xs).cells p = t.cells p := by
  induction xs generalizing t with
  | nil => rfl
  | cons x xs ih =>
    change ((t.print x).printAll xs).cells p = _
    rw [ih _ (Nat.lt_succ_of_lt h)]
    exact Function.update_of_ne h.ne _ _

theorem printAll_cells_after (t : Tape α) (xs : List α) {p : ℕ} (h : t.pos + xs.length ≤ p) :
    (t.printAll xs).cells p = t.cells p := by
  induction xs generalizing t with
  | nil => rfl
  | cons x xs ih =>
    rw [List.length_cons] at h
    change ((t.print x).printAll xs).cells p = _
    rw [ih _ (by change t.pos + 1 + xs.length ≤ p; omega)]
    exact Function.update_of_ne (by omega) _ _

theorem printAll_cells (t : Tape α) {xs : List α} {k : ℕ} {x : α} (h : xs[k]? = some x) :
    (t.printAll xs).cells (t.pos + k) = x := by
  induction xs generalizing t k with
  | nil => simp at h
  | cons y xs ih =>
    change ((t.print y).printAll xs).cells _ = _
    cases k with
    | zero =>
      obtain rfl : y = x := by simpa using h
      rw [printAll_cells_before _ _ (Nat.lt_succ_self _)]
      exact Function.update_self _ _ _
    | succ k =>
      have hk := ih (t.print y) (k := k) (by simpa using h)
      rw [← hk]
      congr 1
      change t.pos + (k + 1) = t.pos + 1 + k
      omega

@[simp] theorem backs_cells (w n : ℕ) (t : Tape α) : (backs w n t).cells = t.cells := by
  induction n generalizing t with
  | zero => rfl
  | succ n ih => rw [backs, ih, back]

theorem backs_pos (hw : 0 < w) (n : ℕ) (t : Tape α) : (backs w n t).pos = max (t.pos - n) (w * (t.pos / w)) := by
  induction n generalizing t with
  | zero =>
    rw [backs, Nat.sub_zero, max_eq_left (Nat.mul_div_le _ _)]
  | succ n ih =>
    rw [backs, ih, back]
    have hdiv := Nat.div_add_mod t.pos w
    have hmod := Nat.mod_lt t.pos hw
    dsimp only
    split
    case isTrue h0 =>
      rw [h0, Nat.add_zero] at hdiv
      rw [hdiv, max_eq_right (Nat.sub_le _ _), max_eq_right (Nat.sub_le _ _)]
    case isFalse h0 =>
      have hrow : (t.pos - 1) / w = t.pos / w := by
        rw [Nat.mul_comm] at hdiv
        rw [Nat.div_eq_iff hw]
        omega
      rw [hrow, Nat.sub_sub, Nat.add_comm 1 n]

end Tape

end DexOs.Lib
