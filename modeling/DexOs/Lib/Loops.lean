import Mathlib.Tactic.Common

/-! Loops with a condition that may not end: a run of at most `fuel` tests. -/

namespace DexOs.Lib

variable {σ : Type}

/-- `while (cond) body`. The result is `none` when the condition still holds after `fuel` tests, or when the body does
not end. -/
def whileLoop (cond : σ → Prop) [DecidablePred cond] (body : σ → Option σ) : ℕ → σ → Option σ
  | 0, _ => none
  | fuel + 1, s => if cond s then (body s).bind (whileLoop cond body fuel) else some s

theorem whileLoop_turns (cond : σ → Prop) [DecidablePred cond] (body : σ → Option σ) {n fuel : ℕ} {s : σ}
    (I : ℕ → σ → Prop) (h0 : I 0 s)
    (hturn : ∀ k t, k < n → I k t → cond t ∧ ∃ t', body t = some t' ∧ I (k + 1) t') (hstop : ∀ t, I n t → ¬ cond t)
    (hfuel : n < fuel) : ∃ t, whileLoop cond body fuel s = some t ∧ I n t := by
  induction n generalizing I s fuel with
  | zero =>
    obtain ⟨fuel, rfl⟩ := Nat.exists_eq_succ_of_ne_zero (Nat.ne_zero_of_lt hfuel)
    refine ⟨s, ?_, h0⟩
    rw [Nat.succ_eq_add_one, whileLoop, if_neg (hstop s h0)]
  | succ n ih =>
    obtain ⟨fuel, rfl⟩ := Nat.exists_eq_succ_of_ne_zero (Nat.ne_zero_of_lt hfuel)
    obtain ⟨hcond, s', hbody, h1⟩ := hturn 0 s (Nat.succ_pos n) h0
    obtain ⟨t, hrun, ht⟩ := ih (fun k => I (k + 1)) h1 (fun k t hk => hturn (k + 1) t (Nat.succ_lt_succ hk)) hstop
      (Nat.lt_of_succ_lt_succ hfuel)
    refine ⟨t, ?_, ht⟩
    rw [Nat.succ_eq_add_one, whileLoop, if_pos hcond, hbody, Option.bind_some]
    exact hrun

end DexOs.Lib
