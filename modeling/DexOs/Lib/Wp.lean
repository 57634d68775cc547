import Mathlib.Tactic.Common

/-! Total correctness of programs that carry a state and may stop with an error. -/

namespace DexOs.Lib

abbrev Prog (ω ε : Type) := StateT ω (Except ε)

variable {ω ε α β : Type} {w : ω}

/-- The program ends without an error, with a result and a state that satisfy `Q`. -/
def Wp (x : Prog ω ε α) (w : ω) (Q : α → ω → Prop) : Prop := ∃ a w', x w = .ok (a, w') ∧ Q a w'

theorem wp_pure {a : α} {Q : α → ω → Prop} (h : Q a w) : Wp (pure a : Prog ω ε α) w Q := ⟨a, w, rfl, h⟩

theorem bind_run {x : Prog ω ε α} {f : α → Prog ω ε β} {a : α} {w' : ω} (h : x w = .ok (a, w')) :
    (x >>= f) w = f a w' := by
  change (x w >>= fun p => f p.1 p.2) = _
  rw [h]
  rfl

theorem bind_ok {x : Prog ω ε α} {f : α → Prog ω ε β} {r : β × ω} (h : (x >>= f) w = .ok r) :
    ∃ a w', x w = .ok (a, w') ∧ f a w' = .ok r := by
  change (x w >>= fun p => f p.1 p.2) = _ at h
  cases hrun : x w with
  | error e =>
    rw [hrun] at h
    cases h
  | ok p =>
    rw [hrun] at h
    exact ⟨p.1, p.2, rfl, h⟩

theorem wp_bind {x : Prog ω ε α} {f : α → Prog ω ε β} {R : α → ω → Prop} {Q : β → ω → Prop}
    (hx : Wp x w R) (hf : ∀ a w', R a w' → Wp (f a) w' Q) : Wp (x >>= f) w Q := by
  obtain ⟨a, w', hrun, hr⟩ := hx
  obtain ⟨b, w'', hrun', hq⟩ := hf a w' hr
  exact ⟨b, w'', (bind_run hrun).trans hrun', hq⟩

theorem wp_of_bind {x : Prog ω ε α} {f : α → Prog ω ε β} {Q : β → ω → Prop} (h : Wp (x >>= f) w Q) :
    Wp x w fun a w' => Wp (f a) w' Q := by
  obtain ⟨b, w', hrun, hq⟩ := h
  obtain ⟨a, w1, hx, hf⟩ := bind_ok hrun
  exact ⟨a, w1, hx, b, w', hf, hq⟩

theorem Wp.mono {x : Prog ω ε α} {R Q : α → ω → Prop} (hx : Wp x w R) (h : ∀ a w', R a w' → Q a w') :
    Wp x w Q := by
  obtain ⟨a, w', hrun, hr⟩ := hx
  exact ⟨a, w', hrun, h a w' hr⟩

theorem Wp.post {x : Prog ω ε α} {Q : α → ω → Prop} {a : α} {w' : ω} (hx : Wp x w Q)
    (hrun : x w = .ok (a, w')) : Q a w' := by
  obtain ⟨b, v, hrun', hq⟩ := hx
  rw [hrun, Except.ok.injEq, Prod.mk.injEq] at hrun'
  obtain ⟨rfl, rfl⟩ := hrun'
  exact hq

theorem Wp.and {x : Prog ω ε α} {P Q : α → ω → Prop} (hx : Wp x w P) (hy : Wp x w Q) :
    Wp x w fun a w' => P a w' ∧ Q a w' := by
  obtain ⟨a, w', hrun, hp⟩ := hx
  exact ⟨a, w', hrun, hp, hy.post hrun⟩

theorem Wp.run {x : Prog ω ε α} {Q : α → ω → Prop} (hx : Wp x w Q) :
    Wp x w fun a w' => x w = .ok (a, w') ∧ Q a w' := by
  obtain ⟨a, w', hrun, hq⟩ := hx
  exact ⟨a, w', hrun, hrun, hq⟩

theorem Wp.congr {x : Prog ω ε α} {R Q Q' : α → ω → Prop} (hx : Wp x w R)
    (h : ∀ a w', R a w' → (Q a w' ↔ Q' a w')) : Wp x w Q ↔ Wp x w Q' := by
  obtain ⟨a, w', hrun, hr⟩ := hx
  have hiff := h a w' hr
  constructor
  · intro hq
    exact ⟨a, w', hrun, hiff.mp (hq.post hrun)⟩
  · intro hq
    exact ⟨a, w', hrun, hiff.mpr (hq.post hrun)⟩

theorem Wp.iff {x : Prog ω ε α} {R Q : α → ω → Prop} {p : Prop} (hx : Wp x w R)
    (h : ∀ a w', R a w' → (Q a w' ↔ p)) : Wp x w Q ↔ p := by
  obtain ⟨a, w', hrun, hr⟩ := hx
  rw [← h a w' hr]
  constructor
  · intro hq
    exact hq.post hrun
  · intro hq
    exact ⟨a, w', hrun, hq⟩

def test (x : Prog ω ε α) (w : ω) (p : α → ω → Bool) : Bool :=
  match x w with
  | .ok (a, w') => p a w'
  | .error _ => false

theorem wp_of_test {x : Prog ω ε α} {p : α → ω → Bool} (h : test x w p = true) :
    Wp x w fun a w' => p a w' = true := by
  unfold test at h
  split at h
  next a w' hrun => exact ⟨a, w', hrun, h⟩
  next => cases h

section Ends

variable {x : Prog ω ε α} {E E' : ε → Prop}

/-- The program ends with a result and a state that satisfy `Q`, or with an error that satisfies `E`. -/
def Ends (x : Prog ω ε α) (w : ω) (E : ε → Prop) (Q : α → ω → Prop) : Prop :=
  match x w with
  | .ok (a, w') => Q a w'
  | .error e => E e

theorem ends_true (x : Prog ω ε α) (w : ω) : Ends x w (fun _ => True) fun _ _ => True := by
  unfold Ends
  cases x w with
  | ok r => trivial
  | error e => trivial

theorem ends_bind {f : α → Prog ω ε β} {R : α → ω → Prop} {Q : β → ω → Prop} (hx : Ends x w E R)
    (hf : ∀ a w', R a w' → Ends (f a) w' E Q) : Ends (x >>= f) w E Q := by
  have hbind : (x >>= f) w = (x w >>= fun p => f p.1 p.2) := rfl
  unfold Ends at hx ⊢
  rw [hbind]
  cases hrun : x w with
  | error e =>
    rw [hrun] at hx
    exact hx
  | ok r =>
    rw [hrun] at hx
    exact hf r.1 r.2 hx

theorem Ends.mono {R Q : α → ω → Prop} (hx : Ends x w E R) (hE : ∀ e, E e → E' e)
    (h : ∀ a w', R a w' → Q a w') : Ends x w E' Q := by
  unfold Ends at hx ⊢
  cases hrun : x w with
  | error e =>
    rw [hrun] at hx
    exact hE e hx
  | ok r =>
    rw [hrun] at hx
    exact h r.1 r.2 hx

theorem Ends.post {Q : α → ω → Prop} {a : α} {w' : ω} (hx : Ends x w E Q) (hrun : x w = .ok (a, w')) : Q a w' := by
  unfold Ends at hx
  rw [hrun] at hx
  exact hx

theorem Wp.ends {Q : α → ω → Prop} (hx : Wp x w Q) : Ends x w E Q := by
  obtain ⟨a, w', hrun, hq⟩ := hx
  unfold Ends
  rw [hrun]
  exact hq

theorem Ends.wp {Q : α → ω → Prop} (hx : Ends x w (fun _ => False) Q) : Wp x w Q := by
  unfold Ends at hx
  cases hrun : x w with
  | error e =>
    rw [hrun] at hx
    exact hx.elim
  | ok r =>
    rw [hrun] at hx
    exact ⟨r.1, r.2, hrun, hx⟩

end Ends

section Extends

variable {x y : Prog ω ε α}

def Extends (x y : Prog ω ε α) : Prop := ∀ w r, x w = .ok r → y w = .ok r

theorem Extends.refl (x : Prog ω ε α) : Extends x x := fun _ _ h => h

theorem extends_bind {f g : α → Prog ω ε β} (hx : Extends x y) (hf : ∀ a, Extends (f a) (g a)) :
    Extends (x >>= f) (y >>= g) := by
  intro w r h
  obtain ⟨a, w', hrun, hrest⟩ := bind_ok h
  rw [bind_run (hx w _ hrun)]
  exact hf a w' r hrest

theorem Extends.wp {Q : α → ω → Prop} (h : Extends x y) (hx : Wp x w Q) : Wp y w Q := by
  obtain ⟨a, w', hrun, hq⟩ := hx
  exact ⟨a, w', h w _ hrun, hq⟩

end Extends

end DexOs.Lib
