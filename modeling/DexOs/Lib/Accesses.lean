import Mathlib.Tactic.Common
import Mathlib.Data.List.Infix

/-! Histories of memory accesses, the newest access first. -/

namespace DexOs.Lib

inductive Access (α β : Type)
  | write (addr : α) (val : β)
  | read (addr : α) (val : β)

variable {α β : Type} [DecidableEq α]

def lastWrite : List (Access α β) → α → Option β
  | [], _ => none
  | .write a v :: h, addr => if a = addr then some v else lastWrite h addr
  | .read _ _ :: h, addr => lastWrite h addr

/-- Every read of an address that had been written has returned the value last written there. -/
def Consistent : List (Access α β) → Prop
  | [] => True
  | .write _ _ :: h => Consistent h
  | .read a v :: h => (∀ w, lastWrite h a = some w → v = w) ∧ Consistent h

variable {h h' : List (Access α β)} {a addr : α} {v w : β}

@[simp] theorem lastWrite_write_self : lastWrite (.write a v :: h) a = some v := if_pos rfl

@[simp] theorem lastWrite_write_ne (hne : a ≠ addr) : lastWrite (.write a v :: h) addr = lastWrite h addr := if_neg hne

@[simp] theorem lastWrite_read : lastWrite (.read a v :: h) addr = lastWrite h addr := rfl

theorem Consistent.suffix (hc : Consistent h') (hs : h <:+ h') : Consistent h := by
  induction h' with
  | nil =>
    rw [List.suffix_nil.mp hs]
    trivial
  | cons x h' ih =>
    rcases List.suffix_cons_iff.mp hs with heq | hrest
    · rwa [heq]
    · cases x with
      | write a v => exact ih hc hrest
      | read a v => exact ih hc.2 hrest

theorem Consistent.read_eq (hc : Consistent (.read a v :: h)) (hw : lastWrite h a = some w) : v = w := hc.1 w hw

end DexOs.Lib
