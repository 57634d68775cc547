import DexOs.Lib.Wp
import Mathlib.Order.Defs.Unbundled

/-! What a program leaves alone, whatever it returns and whether or not it ends. -/

namespace DexOs.Lib

variable {ω ε α β : Type} {R : ω → ω → Prop} {x : Prog ω ε α} {f : α → Prog ω ε β}

/-- Every run that ends goes from a state to a related one. -/
def Within (R : ω → ω → Prop) (x : Prog ω ε α) : Prop := ∀ w a w', x w = .ok (a, w') → R w w'

theorem within_pure [Std.Refl R] (a : α) : Within R (pure a : Prog ω ε α) := by
  intro w b w' h
  cases h
  exact Std.Refl.refl w

theorem Within.bind [IsTrans ω R] (hx : Within R x) (hf : ∀ a, Within R (f a)) : Within R (x >>= f) := by
  intro w b w' h
  obtain ⟨a, w1, hrun, hrest⟩ := bind_ok h
  exact IsTrans.trans w w1 w' (hx w a w1 hrun) (hf a w1 b w' hrest)

theorem within_bind_of [IsTrans ω R] {P : α → Prop} (hx : ∀ w, Wp x w fun a w' => R w w' ∧ P a)
    (hf : ∀ a, P a → Within R (f a)) : Within R (x >>= f) := by
  intro w b w' h
  obtain ⟨a, w1, hrun, hrest⟩ := bind_ok h
  obtain ⟨hr, hp⟩ := (hx w).post hrun
  exact IsTrans.trans w w1 w' hr (hf a hp w1 b w' hrest)

theorem within_of_wp (h : ∀ w, Wp x w fun _ w' => R w w') : Within R x := fun w _ _ hrun => (h w).post hrun

end DexOs.Lib
