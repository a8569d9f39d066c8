import Mathlib.Order.Lattice
import Mathlib.Data.List.Chain
import Mathlib.Data.List.Pairwise

/-- The intervals from `lo x` up to `hi x`, highest first, fill up what is between two points. -/
inductive Tiles {α τ : Type} [LinearOrder α] (lo hi : τ → α) : α → α → List τ → Prop where
  | nil (a : α) : Tiles lo hi a a []
  | cons {a : α} {x : τ} {l : List τ} (h : lo x < hi x) (ht : Tiles lo hi a (lo x) l) :
    Tiles lo hi a (hi x) (x :: l)

namespace Tiles

variable {α τ : Type} [LinearOrder α] {lo hi : τ → α} {a b c u v : α} {x y : τ} {l l' k : List τ}

theorem cons_iff : Tiles lo hi a b (x :: l) ↔ hi x = b ∧ lo x < hi x ∧ Tiles lo hi a (lo x) l := by
  constructor
  · intro h
    cases h with
    | cons h ht => exact ⟨rfl, h, ht⟩
  · rintro ⟨rfl, h, ht⟩
    exact .cons h ht

theorem nil_iff : Tiles lo hi a b [] ↔ a = b := by
  constructor
  · intro h
    cases h
    rfl
  · rintro rfl
    exact .nil a

theorem le (h : Tiles lo hi a b l) : a ≤ b := by
  induction h with
  | nil => exact le_refl _
  | cons h _ ih => exact ih.trans h.le

theorem append_iff : Tiles lo hi a b (l ++ k) ↔ ∃ c, Tiles lo hi c b l ∧ Tiles lo hi a c k := by
  induction l generalizing b with
  | nil =>
    simp only [List.nil_append, nil_iff]
    constructor
    · intro h
      exact ⟨b, rfl, h⟩
    · rintro ⟨c, rfl, h⟩
      exact h
  | cons x l ih =>
    simp only [List.cons_append, cons_iff, ih]
    constructor
    · rintro ⟨hb, hx, c, hl, hk⟩
      exact ⟨c, ⟨hb, hx, hl⟩, hk⟩
    · rintro ⟨c, ⟨hb, hx, hl⟩, hk⟩
      exact ⟨hb, hx, c, hl, hk⟩

theorem append (hl : Tiles lo hi c b l) (hk : Tiles lo hi a c k) : Tiles lo hi a b (l ++ k) :=
  append_iff.mpr ⟨c, hl, hk⟩

/-- The tiles around one of them. -/
theorem around (h : Tiles lo hi a b (l ++ x :: k)) :
    Tiles lo hi (hi x) b l ∧ lo x < hi x ∧ Tiles lo hi a (lo x) k := by
  obtain ⟨c, hl, hk⟩ := append_iff.mp h
  obtain ⟨rfl, hx, hk⟩ := cons_iff.mp hk
  exact ⟨hl, hx, hk⟩

theorem middle (hl : Tiles lo hi (hi x) b l) (hx : lo x < hi x) (hk : Tiles lo hi a (lo x) k) :
    Tiles lo hi a b (l ++ x :: k) := hl.append (.cons hx hk)

theorem mem (h : Tiles lo hi a b l) (hx : x ∈ l) : a ≤ lo x ∧ lo x < hi x ∧ hi x ≤ b := by
  obtain ⟨l, k, rfl⟩ := List.append_of_mem hx
  obtain ⟨hl, hlt, hk⟩ := h.around
  exact ⟨hk.le, hlt, hl.le⟩

/-- A tile lies below those in front of it. -/
theorem pairwise (h : Tiles lo hi a b l) : l.Pairwise (fun x y => hi y ≤ lo x) := by
  induction h with
  | nil => exact .nil
  | cons _ ht ih => exact List.pairwise_cons.mpr ⟨fun y hy => (ht.mem hy).2.2, ih⟩

/-- Two tiles have nothing in common. -/
theorem disjoint (h : Tiles lo hi a b l) (hx : x ∈ l) (hy : y ∈ l) (hne : x ≠ y) :
    hi y ≤ lo x ∨ hi x ≤ lo y := by
  have hsymm : Std.Symm (fun x y => hi y ≤ lo x ∨ hi x ≤ lo y) := ⟨fun _ _ h => h.symm⟩
  have hp : l.Pairwise (fun x y => hi y ≤ lo x ∨ hi x ≤ lo y) := h.pairwise.imp Or.inl
  exact hp.forall hx hy hne

theorem nodup (h : Tiles lo hi a b l) : l.Nodup := by
  refine List.Pairwise.imp_of_mem (fun {x y} _ hy hxy he => ?_) h.pairwise
  exact absurd (h.mem hy).2.1 (he ▸ hxy).not_gt

/-- What the tiles of `p` leave open is a tile, when no two of them meet there. -/
theorem gap {p : τ → Prop} (h : Tiles lo hi a b l) (hc : l.IsChain (fun x y => ¬ (p x ∧ p y)))
    (hu : a ≤ u) (huv : u < v) (hv : v ≤ b)
    (hp : ∀ x ∈ l, ¬ p x → hi x ≤ u ∨ v ≤ lo x) : ∃ x ∈ l, p x ∧ lo x ≤ u ∧ v ≤ hi x := by
  induction h generalizing v with
  | nil => exact absurd (hu.trans_lt huv) hv.not_gt
  | @cons x l hx ht ih =>
    have hpl : ∀ y ∈ l, ¬ p y → hi y ≤ u ∨ v ≤ lo y :=
      fun y hy => hp y (List.mem_cons_of_mem _ hy)
    rcases le_or_gt v (lo x) with hvx | hvx
    · obtain ⟨y, hy, hpy⟩ := ih hc.tail huv hvx hpl
      exact ⟨y, List.mem_cons_of_mem _ hy, hpy⟩
    · have hpx : p x := by
        by_contra hn
        rcases hp x (List.mem_cons_self ..) hn with h | h
        · exact absurd (huv.trans_le hv) h.not_gt
        · exact absurd hvx h.not_gt
      rcases le_or_gt (lo x) u with hxu | hxu
      · exact ⟨x, List.mem_cons_self .., hpx, hxu, hv⟩
      · -- the interval goes on below `x`, whose neighbour is then open too
        cases l with
        | nil => exact absurd hxu (nil_iff.mp ht ▸ hu).not_gt
        | cons y l =>
          obtain ⟨hyx, hy, -⟩ := cons_iff.mp ht
          have hpy : p y := by
            by_contra hn
            rcases hpl y (List.mem_cons_self ..) hn with h | h
            · exact absurd (hyx ▸ hxu) h.not_gt
            · exact absurd ((hyx ▸ hy).trans hvx) h.not_gt
          exact absurd ⟨hpx, hpy⟩ (List.isChain_cons_cons.mp hc).1

end Tiles
