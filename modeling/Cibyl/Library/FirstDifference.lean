import Mathlib.Logic.Function.Basic
import Mathlib.Order.Defs.LinearOrder
import Mathlib.Tactic.Common

namespace Cibyl
set_option autoImplicit true

variable {α : Type} {final : α → Prop} {f g : Nat → α}

/-- Up to `i` the sequences agree and do not come to an end. -/
def AgreeTo (final : α → Prop) (f g : Nat → α) (i : Nat) : Prop :=
  ∀ j < i, f j = g j ∧ ¬ final (f j)

/-- The sequences first differ at `i`. -/
def FirstDifference (final : α → Prop) (f g : Nat → α) (i : Nat) : Prop :=
  AgreeTo final f g i ∧ f i ≠ g i

theorem AgreeTo.succ (h : AgreeTo final f g i) (he : f i = g i) (hf : ¬ final (f i)) :
    AgreeTo final f g (i + 1) := by
  intro j hj
  rcases Nat.lt_succ_iff_lt_or_eq.mp hj with hlt | rfl
  · exact h j hlt
  · exact ⟨he, hf⟩

theorem FirstDifference.not_lt (h : FirstDifference final f g i) (ha : AgreeTo final f g n) :
    ¬ i < n := by
  intro hi
  exact h.2 (ha i hi).1

theorem FirstDifference.unique (h : FirstDifference final f g i)
    (h' : FirstDifference final f g j) :
    i = j := by
  rcases Nat.lt_trichotomy i j with hlt | he | hgt
  · exact absurd hlt (h.not_lt h'.1)
  · exact he
  · exact absurd hgt (h'.not_lt h.1)

/-- Sequences that come to an end together do not differ. -/
theorem AgreeTo.not_firstDifference (h : AgreeTo final f g i) (he : f i = g i) (hf : final (f i)) :
    ¬ FirstDifference final f g j := by
  intro hd
  rcases Nat.lt_trichotomy j i with hlt | rfl | hgt
  · exact hd.not_lt h hlt
  · exact hd.2 he
  · exact (hd.1 i hgt).2 hf

/-- The sign of `r` tells how `x` and `y` are ordered. -/
structure SignOf (x y r : Int) : Prop where
  neg : x < y → r < 0
  zero : x = y → r = 0
  pos : y < x → 0 < r

theorem SignOf.lt_iff (h : SignOf x y r) : x < y ↔ r < 0 := by
  refine ⟨h.neg, fun hr => ?_⟩
  rcases Int.lt_trichotomy x y with hlt | he | hgt
  · exact hlt
  · exact absurd (h.zero he) (Int.ne_of_lt hr)
  · exact absurd (h.pos hgt) (Int.not_lt.mpr (Int.le_of_lt hr))

theorem SignOf.congr (h : SignOf x y r) (hne : x ≠ y) (hne' : x' ≠ y') (he : x' < y' ↔ x < y) :
    SignOf x' y' r where
  neg := fun hlt => h.neg (he.mp hlt)
  zero := fun heq => absurd heq hne'
  pos := fun hgt => by
    rcases Int.lt_trichotomy x y with hlt | heq | hgt'
    · exact absurd (he.mpr hlt) (Int.not_lt.mpr (Int.le_of_lt hgt))
    · exact absurd heq hne
    · exact h.pos hgt'

/-- The sign of `r` orders the sequences by their first difference among the places `within`. -/
structure Orders (key : α → Int) (final : α → Prop) (f g : Nat → α) (within : Nat → Prop)
    (r : Int) : Prop where
  differ : ∀ i, within i → FirstDifference final f g i → SignOf (key (f i)) (key (g i)) r
  same : (∀ i, within i → ¬ FirstDifference final f g i) → r = 0

variable {key key' : α → Int} {within within' : Nat → Prop}

theorem Orders.of_difference (hd : FirstDifference final f g i) (hi : within i)
    (h : SignOf (key (f i)) (key (g i)) r) : Orders key final f g within r where
  differ := fun _ _ hj => hd.unique hj ▸ h
  same := fun hn => absurd hd (hn i hi)

theorem Orders.of_same (h : ∀ i, within i → ¬ FirstDifference final f g i) :
    Orders key final f g within 0 where
  differ := fun i hi hd => absurd hd (h i hi)
  same := fun _ => rfl

/-- When an order by one key among some places is an order by another key among more. -/
theorem Orders.iff_of_narrow (h : Orders key' final f g within' r) (hk : Function.Injective key)
    (hk' : Function.Injective key') (hw : ∀ i, within' i → within i) :
    Orders key final f g within r ↔ ∀ i, within i → FirstDifference final f g i →
      within' i ∧ (key (f i) < key (g i) ↔ key' (f i) < key' (g i)) := by
  constructor
  · intro ho i hi hd
    have hs := ho.differ i hi hd
    by_cases hi' : within' i
    · exact ⟨hi', hs.lt_iff.trans (h.differ i hi' hd).lt_iff.symm⟩
    · have hr : r = 0 := h.same fun j hj hdj => hi' (hdj.unique hd ▸ hj)
      rcases Int.lt_trichotomy (key (f i)) (key (g i)) with hlt | he | hgt
      · exact absurd hr (Int.ne_of_lt (hs.neg hlt))
      · exact absurd (hk he) hd.2
      · exact absurd hr (Int.ne_of_gt (hs.pos hgt))
  · intro hc
    by_cases hd : ∃ i, within i ∧ FirstDifference final f g i
    · obtain ⟨i, hi, hd⟩ := hd
      obtain ⟨hi', he⟩ := hc i hi hd
      exact .of_difference hd hi
        ((h.differ i hi' hd).congr (fun e => hd.2 (hk' e)) (fun e => hd.2 (hk e)) he)
    · have hr : r = 0 := h.same fun i hi hdi => hd ⟨i, hw i hi, hdi⟩
      exact hr ▸ .of_same fun i hi hdi => hd ⟨i, hi, hdi⟩

end Cibyl
