import Mathlib.Data.List.Infix

/-! Runs of a step function that are watched: a property of every state that is reached, and a condition on every
step. -/

namespace DexOs.Lib

variable {σ γ : Type*}

theorem forall_state_iff_forall_step (step : σ → γ → σ) (P : σ → Prop) (ok : σ → γ → Prop) {s₀ : σ} (h0 : P s₀)
    (hstep : ∀ s c, P s → (P (step s c) ↔ ok s c)) (cs : List γ) :
    (∀ p, p <+: cs → P (p.foldl step s₀)) ↔ ∀ p c, p ++ [c] <+: cs → ok (p.foldl step s₀) c := by
  constructor
  · intro hall p c hp
    have hafter := hall (p ++ [c]) hp
    rw [List.foldl_append] at hafter
    exact (hstep _ c (hall p ((List.prefix_append p [c]).trans hp))).mp hafter
  · intro hok p
    induction p using List.reverseRecOn with
    | nil => exact fun _ => h0
    | append_singleton p c ih =>
      intro hp
      rw [List.foldl_append]
      exact (hstep _ c (ih ((List.prefix_append p [c]).trans hp))).mpr (hok p c hp)

end DexOs.Lib
