import Mathlib.Data.Option.Basic
import Mathlib.Data.List.Basic

namespace OptionFold
set_option autoImplicit true

variable {f : σ → α → Option σ} {xs : List α} {I Q : σ → Prop}

theorem foldlM_cons_some (h : (x :: xs).foldlM f s = some s') :
    ∃ s₁, f s x = some s₁ ∧ xs.foldlM f s₁ = some s' := by
  rw [List.foldlM_cons] at h
  exact Option.bind_eq_some_iff.mp h

/-- What every step keeps, a run keeps. -/
theorem foldlM_keeps (hI : ∀ s x s', x ∈ xs → I s → f s x = some s' → I s') (h : I s)
    (hr : xs.foldlM f s = some s') : I s' := by
  induction xs generalizing s with
  | nil =>
    cases hr
    exact h
  | cons x xs ih =>
    obtain ⟨s₁, hx, hr⟩ := foldlM_cons_some hr
    exact ih (fun s y s' hy => hI s y s' (List.mem_cons_of_mem _ hy))
      (hI s x s₁ (List.mem_cons_self ..) h hx) hr

/-- A run of steps that do not fail under an invariant they keep. -/
theorem foldlM_isSome (hI : ∀ s x s', x ∈ xs → I s → f s x = some s' → I s')
    (hf : ∀ s x, x ∈ xs → I s → (f s x).isSome = true) (h : I s) :
    (xs.foldlM f s).isSome = true := by
  induction xs generalizing s with
  | nil => exact rfl
  | cons x xs ih =>
    obtain ⟨s₁, hx⟩ := Option.isSome_iff_exists.mp (hf s x (List.mem_cons_self ..) h)
    have h₁ := hI s x s₁ (List.mem_cons_self ..) h hx
    rw [List.foldlM_cons, hx]
    exact ih (fun s y s' hy => hI s y s' (List.mem_cons_of_mem _ hy))
      (fun s y hy => hf s y (List.mem_cons_of_mem _ hy)) h₁

/-- What one of the steps establishes and the others keep holds after the run. -/
theorem foldlM_reaches (hI : ∀ s x s', x ∈ xs → I s → f s x = some s' → I s') (hx : x ∈ xs)
    (he : ∀ s s', I s → f s x = some s' → Q s')
    (hQ : ∀ s y s', y ∈ xs → f s y = some s' → Q s → Q s') (h : I s)
    (hr : xs.foldlM f s = some s') : Q s' := by
  induction xs generalizing s with
  | nil => cases hx
  | cons y xs ih =>
    obtain ⟨s₁, hy, hr₁⟩ := foldlM_cons_some hr
    have hQ' : ∀ s z s', z ∈ xs → f s z = some s' → Q s → Q s' :=
      fun s z s' hz => hQ s z s' (List.mem_cons_of_mem _ hz)
    rcases List.mem_cons.mp hx with rfl | hx
    · exact foldlM_keeps (fun s z s' hz hq hs => hQ' s z s' hz hs hq) (he s s₁ h hy) hr₁
    · exact ih (fun s z s' hz => hI s z s' (List.mem_cons_of_mem _ hz)) hx hQ'
        (hI s y s₁ (List.mem_cons_self ..) h hy) hr₁

end OptionFold
