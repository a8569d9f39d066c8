import Mathlib.Data.Set.Finite.Basic
import Mathlib.Data.Set.Card
import Mathlib.Logic.Hydra
import Mathlib.Logic.Relation

namespace Cibyl
set_option autoImplicit true

namespace Worklist

open Relation

variable {α : Type} {dep : α → α → Prop} {a b x y : α}

/-- The other things that a thing depends on. -/
def Below (dep : α → α → Prop) (y x : α) : Prop := dep x y ∧ y ≠ x

instance : Std.Irrefl (Below dep) := ⟨fun _ h => h.2 rfl⟩

/-- No two different things that are reached depend on each other. -/
def Acyclic (dep : α → α → Prop) (x : α) : Prop :=
  ∀ y z, ReflTransGen dep x y → ReflTransGen dep y z → ReflTransGen dep z y → y = z

theorem Acyclic.below (h : Acyclic dep x) (hd : dep x y) : Acyclic dep y :=
  fun z w hz => h z w (.head hd hz)

/-- A path to another thing has a first step away. -/
theorem exists_step (h : ReflTransGen dep a b) (hne : a ≠ b) :
    ∃ c, dep a c ∧ c ≠ a ∧ ReflTransGen dep c b := by
  induction h using ReflTransGen.head_induction_on with
  | refl => exact (hne rfl).elim
  | head hd hr ih =>
    rename_i a c
    by_cases hc : c = a
    · exact hc ▸ ih (hc.symm ▸ hne)
    · exact ⟨c, hd, hc, hr⟩

/-- A thing above a cycle depends on another one above a cycle. -/
theorem exists_next (h : ¬ Acyclic dep x) : ∃ y, Below dep y x ∧ ¬ Acyclic dep y := by
  simp only [Acyclic, not_forall] at h
  obtain ⟨y, z, hxy, hyz, hzy, hne⟩ := h
  by_cases hx : x = y
  · subst hx
    obtain ⟨c, hd, hc, hcz⟩ := exists_step hyz hne
    exact ⟨c, ⟨hd, hc⟩, fun ha => hne (ha x z (hcz.trans hzy) hyz hzy)⟩
  · obtain ⟨c, hd, hc, hcy⟩ := exists_step hxy hx
    exact ⟨c, ⟨hd, hc⟩, fun ha => hne (ha y z hcy hyz hzy)⟩

/-- Where finitely many things have dependencies, there is no infinite way down without a cycle. -/
theorem acc_below (hfin : {x | ∃ y, dep x y}.Finite) (h : Acyclic dep x) : Acc (Below dep) x := by
  -- the things with dependencies that are still reached become fewer
  have key (n : Nat) : ∀ x, Acyclic dep x →
      {z | ReflTransGen dep x z ∧ ∃ y, dep z y}.ncard < n → Acc (Below dep) x := by
    induction n with
    | zero => exact fun x _ hn => (Nat.not_lt_zero _ hn).elim
    | succ n ih =>
      intro x h hn
      refine ⟨x, fun y hy => ih y (h.below hy.1) ?_⟩
      refine Nat.lt_of_lt_of_le (Set.ncard_lt_ncard ⟨?_, fun hsub => ?_⟩ ?_) (Nat.le_of_lt_succ hn)
      · exact fun z hz => ⟨.head hy.1 hz.1, hz.2⟩
      · obtain ⟨hyx, -⟩ := hsub ⟨.refl, y, hy.1⟩
        exact hy.2 (h x y .refl (.single hy.1) hyx).symm
      · exact hfin.subset fun z hz => hz.2
  exact key _ x h (Nat.lt_succ_self _)

/-- Taking out a thing, once or more often, and putting in what is below it. -/
theorem cutExpand_of_add {s s' t : Multiset α} (k : Nat) (ht : ∀ y ∈ t, Below dep y x)
    (h : s' + (k + 1) • {x} = s + t) : TransGen (CutExpand (Below dep)) s' s := by
  induction k generalizing s' with
  | zero =>
    rw [Nat.zero_add, one_nsmul] at h
    exact .single ⟨t, x, ht, h⟩
  | succ k ih =>
    have hcut : CutExpand (Below dep) s' (s' + {x}) := ⟨0, x, nofun, (add_zero _).symm⟩
    refine .head hcut (ih ?_)
    rw [← h, succ_nsmul' _ (k + 1), add_assoc]

end Worklist

end Cibyl
