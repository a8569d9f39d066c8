import Mathlib.Logic.Basic

namespace Cibyl
set_option autoImplicit true

/-- How a turn of a loop ends: before the next one, behind the loop, or out of the method. -/
inductive Turn (s α : Type) where
  | next (x : s)
  | leave (x : s)
  | ret (a : α)

/-- How a loop ends. -/
inductive Exit (s α : Type) where
  | leave (x : s)
  | ret (a : α)

/-- A loop of fewer than `fuel` turns that go on, over a state and with exceptions. -/
def boundedLoop (turn : s → σ → Except ε (Turn s α) × σ) :
    Nat → s → σ → Except ε (Option (Exit s α)) × σ
  | 0, _, m => (.ok none, m)
  | fuel + 1, x, m =>
    match turn x m with
    | (.ok (.next x), m) => boundedLoop turn fuel x m
    | (.ok (.leave x), m) => (.ok (some (.leave x)), m)
    | (.ok (.ret a), m) => (.ok (some (.ret a)), m)
    | (.error e, m) => (.error e, m)

/-- What follows a loop. Without an end of the loop there is none of it. -/
def Exit.andThen (r : Except ε (Option (Exit s α)) × σ)
    (k : s → σ → Except ε (Option α) × σ) : Except ε (Option α) × σ :=
  match r with
  | (.ok (some (.leave x)), m) => k x m
  | (.ok (some (.ret a)), m) => (.ok (some a), m)
  | (.ok none, m) => (.ok none, m)
  | (.error e, m) => (.error e, m)

/-- What a turn has to establish: the invariant and progress, or what holds behind the loop. -/
def Turn.Ensures (I : s → σ → Prop) (Q : Exit s α → σ → Prop) (μ : s → Nat) (x : s) :
    Turn s α → σ → Prop
  | .next y, m => I y m ∧ μ y < μ x
  | .leave y, m => Q (.leave y) m
  | .ret a, m => Q (.ret a) m

theorem boundedLoop_next {turn : s → σ → Except ε (Turn s α) × σ}
    (h : turn x m = (.ok (.next y), m')) (fuel : Nat) :
    boundedLoop turn (fuel + 1) x m = boundedLoop turn fuel y m' := by
  rw [boundedLoop, h]

theorem boundedLoop_leave {turn : s → σ → Except ε (Turn s α) × σ}
    (h : turn x m = (.ok (.leave y), m')) (fuel : Nat) :
    boundedLoop turn (fuel + 1) x m = (.ok (some (.leave y)), m') := by
  rw [boundedLoop, h]

variable {I : s → σ → Prop} {Q : Exit s α → σ → Prop} {μ : s → Nat}

/-- A loop whose turns keep an invariant and make progress comes to an end. -/
theorem boundedLoop_ends {turn : s → σ → Except ε (Turn s α) × σ}
    (step : ∀ x m, I x m → ∃ t m', turn x m = (.ok t, m') ∧ t.Ensures I Q μ x m')
    (h : I x m) (hf : μ x < fuel) :
    ∃ r m', boundedLoop turn fuel x m = (.ok (some r), m') ∧ Q r m' := by
  induction fuel generalizing x m with
  | zero => exact absurd hf (Nat.not_lt_zero _)
  | succ fuel ih =>
    obtain ⟨t, m', ht, he⟩ := step x m h
    rw [boundedLoop, ht]
    cases t with
    | next y => exact ih he.1 (Nat.lt_of_lt_of_le he.2 (Nat.le_of_lt_succ hf))
    | leave y => exact ⟨_, m', rfl, he⟩
    | ret a => exact ⟨_, m', rfl, he⟩

end Cibyl
