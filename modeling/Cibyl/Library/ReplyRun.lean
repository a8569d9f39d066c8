import Mathlib.Logic.Basic

namespace Cibyl
set_option autoImplicit true

/-- The replies of a machine to a sequence of calls, and the state they leave. -/
def replyRun (step : σ → κ → ρ × σ) : σ → List κ → List ρ × σ
  | s, [] => ([], s)
  | s, c :: cs =>
    let r := step s c
    let rs := replyRun step r.2 cs
    (r.1 :: rs.1, rs.2)

/-- Every call of the run meets `P` in the state that it is made in. -/
def EachCall (step : σ → κ → ρ × σ) (P : σ → κ → Prop) : σ → List κ → Prop
  | _, [] => True
  | s, c :: cs => P s c ∧ EachCall step P (step s c).2 cs

instance EachCall.decide (step : σ → κ → ρ × σ) (P : σ → κ → Prop) [∀ s c, Decidable (P s c)] :
    (s : σ) → (cs : List κ) → Decidable (EachCall step P s cs)
  | _, [] => instDecidableTrue
  | s, c :: cs =>
    have := EachCall.decide step P (step s c).2 cs
    inferInstanceAs (Decidable (P s c ∧ EachCall step P (step s c).2 cs))

theorem EachCall.and {step : σ → κ → ρ × σ} {P Q : σ → κ → Prop} (hp : EachCall step P s cs)
    (hq : EachCall step Q s cs) : EachCall step (fun s c => P s c ∧ Q s c) s cs := by
  induction cs generalizing s with
  | nil => trivial
  | cons c cs ih => exact ⟨⟨hp.1, hq.1⟩, ih hp.2 hq.2⟩

/-- A machine whose calls are answered as another one answers them is not told from it by a run of
such calls. -/
theorem replyRun_refines {step : σ → κ → ρ × σ} {spec : τ → κ → ρ × τ} {R : σ → τ → Prop}
    {P : σ → κ → Prop}
    (hs : ∀ s t c, R s t → P s c → (step s c).1 = (spec t c).1 ∧ R (step s c).2 (spec t c).2)
    (cs : List κ) (h : R s t) (hc : EachCall step P s cs) :
    (replyRun step s cs).1 = (replyRun spec t cs).1 ∧
      R (replyRun step s cs).2 (replyRun spec t cs).2 := by
  induction cs generalizing s t with
  | nil => exact ⟨rfl, h⟩
  | cons c cs ih =>
    obtain ⟨hr, hn⟩ := hs s t c h hc.1
    obtain ⟨hrs, hn⟩ := ih hn hc.2
    exact ⟨congrArg₂ List.cons hr hrs, hn⟩

/-- A relation that each call keeps holds behind a run. -/
theorem replyRun_keeps {step : σ → κ → ρ × σ} {spec : τ → κ → ρ × τ} {R : σ → τ → Prop}
    {P : σ → κ → Prop} (hs : ∀ s t c, R s t → P s c → R (step s c).2 (spec t c).2)
    (cs : List κ) (h : R s t) (hc : EachCall step P s cs) :
    R (replyRun step s cs).2 (replyRun spec t cs).2 := by
  induction cs generalizing s t with
  | nil => exact h
  | cons c cs ih => exact ih (hs s t c h hc.1) hc.2

end Cibyl
