import Mathlib.Data.List.Nodup
import Mathlib.Data.List.Infix

/-! Two searches of one list: when they find the same element. -/

namespace DexOs.Lib

variable {α β : Type}

theorem find_zipIdx (p : α → Bool) (l : List α) (j : ℕ) :
    l.find? p = ((l.zipIdx j).find? fun x => p x.1).map Prod.fst := by
  induction l generalizing j with
  | nil => rfl
  | cons a l ih =>
    rw [List.zipIdx_cons, List.find?_cons, List.find?_cons, ih (j + 1)]
    cases p a <;> rfl

theorem find_take_zipIdx (p : α → Bool) (n : ℕ) (l : List α) (j : ℕ) :
    (l.take n).find? p = ((l.zipIdx j).find? fun x => decide (x.2 < j + n) && p x.1).map Prod.fst := by
  induction l generalizing j n with
  | nil => rw [List.take_nil]; rfl
  | cons a l ih =>
    rw [List.zipIdx_cons, List.find?_cons]
    cases n with
    | zero =>
      have hnone : (l.zipIdx (j + 1)).find? (fun x => decide (x.2 < j) && p x.1) = none := by
        rw [List.find?_eq_none]
        intro x hx
        have hle := List.le_snd_of_mem_zipIdx hx
        simp
        omega
      simp [hnone]
    | succ n =>
      have hrest := ih n (j + 1)
      rw [show j + 1 + n = j + (n + 1) by omega] at hrest
      rw [List.take_succ_cons, List.find?_cons, hrest]
      simp only [show j < j + (n + 1) by omega, decide_true, Bool.true_and]
      cases p a <;> rfl

theorem find_eq_iff (f : α → β) {l : List α} (hnodup : (l.map f).Nodup) (p q : α → Bool) :
    (l.find? p).map f = (l.find? q).map f ↔
      ∀ x, l.find? (fun x => p x || q x) = some x → p x = true ∧ q x = true := by
  induction l with
  | nil => simp
  | cons a l ih =>
    rw [List.map_cons, List.nodup_cons] at hnodup
    have hfresh (r : α → Bool) : (l.find? r).map f ≠ some (f a) := by
      intro h
      obtain ⟨b, hb, hf⟩ := Option.map_eq_some_iff.mp h
      exact hnodup.1 (hf ▸ List.mem_map_of_mem (List.mem_of_find?_eq_some hb))
    rw [List.find?_cons, List.find?_cons, List.find?_cons]
    cases hp : p a with
    | true =>
      cases hq : q a with
      | true =>
        refine iff_of_true rfl ?_
        intro x hx
        obtain rfl := Option.some.inj hx
        exact ⟨hp, hq⟩
      | false =>
        refine iff_of_false (fun h => hfresh q h.symm) ?_
        intro h
        have hboth := (h a rfl).2
        rw [hq] at hboth
        cases hboth
    | false =>
      cases hq : q a with
      | true =>
        refine iff_of_false (hfresh p) ?_
        intro h
        have hboth := (h a rfl).1
        rw [hp] at hboth
        cases hboth
      | false => exact ih hnodup.2

end DexOs.Lib
