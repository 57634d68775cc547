import Mathlib.Algebra.Group.Basic
import DexOs.Lib.Wp

/-! Programs that take and give back resources. The resources form a commutative monoid, and a triple holds
next to every resource that the program does not touch. -/

namespace DexOs.Lib

variable {ω ε α β M : Type} [AddCommMonoid M] {owes : M → ω → Prop} {E E' : ε → Prop}
  {x : Prog ω ε α} {f : α → Prog ω ε β} {G F : M} {T : α → M} {S : β → M} {Q Q' : α → Prop} {P : β → Prop}

/-- Started with the resources `G`, the program ends with the resources `T a` and a result `a` that satisfies
`Q`, or with an error that satisfies `E`. -/
def Triple (owes : M → ω → Prop) (E : ε → Prop) (G : M) (x : Prog ω ε α) (T : α → M) (Q : α → Prop) : Prop :=
  ∀ F w, owes (G + F) w → Ends x w E fun a w' => Q a ∧ owes (T a + F) w'

/-- The program gives back all that it takes, and takes nothing that was there. -/
def Neutral (owes : M → ω → Prop) (E : ε → Prop) (x : Prog ω ε α) (Q : α → Prop) : Prop :=
  Triple owes E 0 x (fun _ => 0) Q

theorem triple_pure {a : α} (hG : G = T a) (hq : Q a) : Triple owes E G (pure a) T Q := by
  intro F w hw
  rw [hG] at hw
  exact ⟨hq, hw⟩

theorem neutral_pure {a : α} (hq : Q a) : Neutral owes E (pure a) Q := triple_pure rfl hq

theorem triple_bind (hx : Triple owes E G x T Q) (hf : ∀ a, Q a → Triple owes E (T a) (f a) S P) :
    Triple owes E G (x >>= f) S P := by
  intro F w hw
  apply ends_bind (hx F w hw)
  intro a w' h
  exact hf a h.1 F w' h.2

theorem Triple.frame (hx : Triple owes E G x T Q) (F : M) : Triple owes E (G + F) x (fun a => T a + F) Q := by
  intro F' w hw
  rw [add_assoc] at hw
  apply (hx (F + F') w hw).mono (fun _ he => he)
  intro a w' hr
  rw [add_assoc]
  exact hr

theorem Neutral.next (hx : Neutral owes E x Q) (G : M) : Triple owes E G x (fun _ => G) Q := by
  have h := Triple.frame hx G
  rw [zero_add] at h
  exact h

theorem Neutral.bind (hx : Neutral owes E x Q) (hf : ∀ a, Q a → Triple owes E G (f a) S P) :
    Triple owes E G (x >>= f) S P := triple_bind (hx.next G) hf

theorem Neutral.ends {w : ω} (hx : Neutral owes E x Q) (hw : owes 0 w) :
    Ends x w E fun a w' => Q a ∧ owes 0 w' := by
  rw [← add_zero (0 : M)] at hw
  apply (hx 0 w hw).mono (fun _ he => he)
  intro a w' h
  rw [add_zero] at h
  exact h

end DexOs.Lib
