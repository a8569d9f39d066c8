import Mathlib.Logic.Relation

namespace Simulation
set_option autoImplicit true

variable {step : α → α → Prop} {step' : β → β → Prop} {R : α → β → Prop}

/-- A step from related states is answered by a run of any length to related states. -/
def Forward (step : α → α → Prop) (step' : β → β → Prop) (R : α → β → Prop) : Prop :=
  ∀ a a' b, R a b → step a a' → ∃ b', Relation.ReflTransGen step' b b' ∧ R a' b'

/-- Whole runs are answered by whole runs. -/
theorem Forward.run (h : Forward step step' R) (hr : R a b)
    (ha : Relation.ReflTransGen step a a') :
    ∃ b', Relation.ReflTransGen step' b b' ∧ R a' b' := by
  induction ha with
  | refl => exact ⟨b, .refl, hr⟩
  | tail _ hs ih =>
    obtain ⟨c, hc, hrc⟩ := ih
    obtain ⟨d, hd, hrd⟩ := h _ _ c hrc hs
    exact ⟨d, hc.trans hd, hrd⟩

end Simulation
