import Mathlib.Data.List.Basic
import Mathlib.Logic.Relation

namespace Labelled
set_option autoImplicit true

/-- The code after the first line that defines the label `l`. -/
def find [DecidableEq L] (labelOf : ι → Option L) (l : L) : List ι → Option (List ι)
  | [] => none
  | i :: c => if labelOf i = some l then some c else find labelOf l c

section

variable [DecidableEq L] {labelOf : ι → Option L}

theorem find_of_label (h : labelOf i = some l) (c : List ι) :
    find labelOf l (i :: c) = some c := if_pos h

theorem find_of_ne (h : labelOf i ≠ some l) (c : List ι) :
    find labelOf l (i :: c) = find labelOf l c := if_neg h

theorem find_append (h : ∀ i ∈ c, labelOf i ≠ some l) (d : List ι) :
    find labelOf l (c ++ d) = find labelOf l d := by
  induction c with
  | nil => rfl
  | cons i c ih =>
    rw [List.cons_append, find_of_ne (h i (List.mem_cons_self ..))]
    exact ih (fun j hj => h j (List.mem_cons_of_mem _ hj))

theorem find_append_label (h : ∀ i ∈ c, labelOf i ≠ some l) (hi : labelOf i = some l)
    (d : List ι) : find labelOf l (c ++ i :: d) = some d := by
  rw [find_append h, find_of_label hi]

/-- What a jump continues with is the rest of the code after some line. -/
theorem find_suffix (h : find labelOf l c = some d) : d <:+ c := by
  induction c with
  | nil => cases h
  | cons i c ih =>
    by_cases hi : labelOf i = some l
    · rw [find_of_label hi] at h
      cases h
      exact List.suffix_cons _ _
    · rw [find_of_ne hi] at h
      exact (ih h).trans (List.suffix_cons i c)

theorem find_isSome (h : ∃ i ∈ c, labelOf i = some l) : ∃ d, find labelOf l c = some d := by
  induction c with
  | nil =>
    obtain ⟨i, hi, _⟩ := h
    cases hi
  | cons i c ih =>
    by_cases hi : labelOf i = some l
    · exact ⟨c, find_of_label hi c⟩
    · rw [find_of_ne hi]
      obtain ⟨j, hj, hl⟩ := h
      rcases List.mem_cons.mp hj with rfl | hj
      · exact absurd hl hi
      · exact ih ⟨j, hj, hl⟩

/-- A label that the first part of the code defines is found there. -/
theorem find_append_of_mem (h : ∃ i ∈ c, labelOf i = some l) (d : List ι) :
    ∃ c', find labelOf l (c ++ d) = some (c' ++ d) := by
  induction c with
  | nil =>
    obtain ⟨i, hi, _⟩ := h
    cases hi
  | cons i c ih =>
    rw [List.cons_append]
    by_cases hi : labelOf i = some l
    · exact ⟨c, find_of_label hi _⟩
    · rw [find_of_ne hi]
      obtain ⟨j, hj, hl⟩ := h
      rcases List.mem_cons.mp hj with rfl | hj
      · exact absurd hl hi
      · exact ih ⟨j, hj, hl⟩

end

end Labelled
