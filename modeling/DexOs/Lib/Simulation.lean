import DexOs.Lib.Wp
import Mathlib.Logic.Function.Basic

/-! Two programs that run in step on different states, for good or until the second one breaks away. -/

namespace DexOs.Lib

variable {ω ω' ε α β γ δ : Type}

/-- Which states belong together, and in which states the second program has broken away. From there on nothing is
asked of it, but that it does not come back. -/
structure Tie (ω ω' : Type) where
  rel : ω → ω' → Prop
  broken : ω' → Prop

def Tie.tight (R : ω → ω' → Prop) : Tie ω ω' := ⟨R, fun _ => False⟩

variable {T : Tie ω ω'} {P : α → β → Prop} {Q : γ → δ → Prop}

def InStep (R : ω → ω' → Prop) (P : α → β → Prop) : Except ε (α × ω) → Except ε (β × ω') → Prop
  | .ok r, .ok s => P r.1 s.1 ∧ R r.2 s.2
  | .ok _, .error _ => False
  | .error _, .ok _ => False
  | .error e, .error e' => e = e'

def Away (T : Tie ω ω') (P : α → β → Prop) : Except ε (β × ω') → Prop
  | .ok s => T.broken s.2 ∧ ∃ a, P a s.1
  | .error _ => ∃ v, T.broken v

/-- From related states the programs stay in step until the second one breaks away. -/
structure Simulates (T : Tie ω ω') (P : α → β → Prop) (x : Prog ω ε α) (y : Prog ω' ε β) : Prop where
  step : ∀ w v, T.rel w v → Away T P (y v) ∨ InStep T.rel P (x w) (y v)
  away : ∀ v, T.broken v → Away T P (y v)

abbrev Matches (T : Tie ω ω') (x : Prog ω ε α) (y : Prog ω' ε α) : Prop := Simulates T Eq x y

variable {x : Prog ω ε α} {y : Prog ω' ε β} {f : α → Prog ω ε γ} {g : β → Prog ω' ε δ}

theorem simulates_pure {a : α} {b : β} (h : P a b) : Simulates T P (pure a : Prog ω ε α) (pure b) :=
  ⟨fun _ _ hr => .inr ⟨h, hr⟩, fun _ hv => ⟨hv, a, h⟩⟩

theorem matches_pure (a : α) : Matches T (pure a : Prog ω ε α) (pure a) := simulates_pure rfl

theorem simulates_throw (e : ε) : Simulates T P (throw e : Prog ω ε α) (throw e) :=
  ⟨fun _ _ _ => .inr rfl, fun v hv => ⟨v, hv⟩⟩

theorem away_bind {v : ω'} (h : Away T P (y v)) (hg : ∀ a b, P a b → ∀ v, T.broken v → Away T Q (g b v)) :
    Away T Q ((y >>= g) v) := by
  change Away T Q (y v >>= fun p => g p.1 p.2)
  cases hrun : y v with
  | error e =>
    rw [hrun] at h
    exact h
  | ok s =>
    rw [hrun] at h
    obtain ⟨hbroken, a, hab⟩ := h
    exact hg a s.1 hab s.2 hbroken

theorem Simulates.bind (hx : Simulates T P x y) (hf : ∀ a b, P a b → Simulates T Q (f a) (g b)) :
    Simulates T Q (x >>= f) (y >>= g) := by
  constructor
  case away => exact fun v hv => away_bind (hx.away v hv) fun a b hab => (hf a b hab).away
  case step =>
    intro w v hr
    rcases hx.step w v hr with haway | h
    · exact .inl (away_bind haway fun a b hab => (hf a b hab).away)
    change Away T Q (y v >>= fun p => g p.1 p.2) ∨
      InStep T.rel Q (x w >>= fun p => f p.1 p.2) (y v >>= fun p => g p.1 p.2)
    cases hrun : x w with
    | error e =>
      cases hrun' : y v with
      | error e' =>
        rw [hrun, hrun'] at h
        exact .inr h
      | ok s =>
        rw [hrun, hrun'] at h
        exact h.elim
    | ok r =>
      cases hrun' : y v with
      | error e' =>
        rw [hrun, hrun'] at h
        exact h.elim
      | ok s =>
        rw [hrun, hrun'] at h
        exact (hf r.1 s.1 h.1).step r.2 s.2 h.2

theorem Matches.bind {y : Prog ω' ε α} {g : α → Prog ω' ε γ} (hx : Matches T x y)
    (hf : ∀ a, Matches T (f a) (g a)) : Matches T (x >>= f) (y >>= g) := by
  apply Simulates.bind hx
  rintro a _ rfl
  exact hf a

theorem matches_ite {c : Prop} {i j : Decidable c} {x x' : Prog ω ε α} {y y' : Prog ω' ε α} (hx : c → Matches T x y)
    (hy : ¬ c → Matches T x' y') : Matches T (@ite _ c i x x') (@ite _ c j y y') := by
  by_cases hc : c
  · simp only [if_pos hc]
    exact hx hc
  · simp only [if_neg hc]
    exact hy hc

theorem Simulates.option {x : Prog ω ε (Option α)} {y : Prog ω' ε (Option β)} {f : Option α → Prog ω ε γ}
    {g : Option β → Prog ω' ε δ} (hx : Simulates T (Option.Rel P) x y) (hnone : Simulates T Q (f none) (g none))
    (hsome : ∀ a b, P a b → Simulates T Q (f (some a)) (g (some b))) : Simulates T Q (x >>= f) (y >>= g) := by
  apply hx.bind
  intro r s hr
  cases hr with
  | none => exact hnone
  | some hab => exact hsome _ _ hab

theorem Simulates.inStep {R : ω → ω' → Prop} (h : Simulates (.tight R) P x y) {w : ω} {v : ω'} (hr : R w v) :
    InStep R P (x w) (y v) := by
  rcases h.step w v hr with haway | hstep
  · exfalso
    cases hrun : y v with
    | error e =>
      rw [hrun] at haway
      exact haway.elim fun _ hb => hb
    | ok s =>
      rw [hrun] at haway
      exact haway.1
  · exact hstep

theorem Simulates.ok {R : ω → ω' → Prop} {w w₁ : ω} {v : ω'} {a : α} (h : Simulates (.tight R) P x y) (hr : R w v)
    (hrun : x w = .ok (a, w₁)) : ∃ b v₁, y v = .ok (b, v₁) ∧ P a b ∧ R w₁ v₁ := by
  have ho := h.inStep hr
  cases hrun' : y v with
  | error e =>
    rw [hrun, hrun'] at ho
    exact ho.elim
  | ok s =>
    rw [hrun, hrun'] at ho
    exact ⟨s.1, s.2, rfl, ho⟩

theorem Simulates.error {R : ω → ω' → Prop} {w : ω} {v : ω'} {e : ε} (h : Simulates (.tight R) P x y) (hr : R w v)
    (hrun : x w = .error e) : y v = .error e := by
  have ho := h.inStep hr
  cases hrun' : y v with
  | error e' =>
    rw [hrun, hrun'] at ho
    exact congrArg _ ho.symm
  | ok s =>
    rw [hrun, hrun'] at ho
    exact ho.elim

theorem Simulates.back {w : ω} {v v₁ : ω'} {b : β} (h : Simulates T P x y) (hr : T.rel w v) (hrun : y v = .ok (b, v₁))
    (hstay : ¬ T.broken v₁) : ∃ a w₁, x w = .ok (a, w₁) ∧ P a b ∧ T.rel w₁ v₁ := by
  rcases h.step w v hr with haway | ho
  · rw [hrun] at haway
    exact absurd haway.1 hstay
  · cases hrun' : x w with
    | error e =>
      rw [hrun, hrun'] at ho
      exact ho.elim
    | ok r =>
      rw [hrun, hrun'] at ho
      exact ⟨r.1, r.2, rfl, ho⟩

theorem Simulates.unbroken {v v₁ : ω'} {b : β} (h : Simulates T P x y) (hrun : y v = .ok (b, v₁))
    (hstay : ¬ T.broken v₁) : ¬ T.broken v := by
  intro hbroken
  have haway := h.away v hbroken
  rw [hrun] at haway
  exact hstay haway.1

theorem related_update {ι : Type} [DecidableEq ι] {A B : ι → Type} {R : ∀ i, A i → B i → Prop} {s : ∀ i, A i}
    {t : ∀ i, B i} (h : ∀ i, R i (s i) (t i)) {k : ι} {a : A k} {b : B k} (hk : R k a b) (i : ι) :
    R i (Function.update s k a i) (Function.update t k b i) := by
  rcases eq_or_ne i k with rfl | hi
  · rwa [Function.update_self, Function.update_self]
  · rw [Function.update_of_ne hi, Function.update_of_ne hi]
    exact h i

end DexOs.Lib
