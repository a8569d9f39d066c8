import Mathlib.Data.List.Basic

namespace BinarySearch
set_option autoImplicit true

/-- The halving search of C's `bsearch` from `l` up to `u`; `cmp` compares the key with an
element. -/
def searchIn (cmp : α → Int) (xs : List α) (l u : Nat) : Option Nat :=
  if _h : l < u then
    match xs[(l + u) / 2]? with
    | none => none
    | some x =>
      if cmp x < 0 then searchIn cmp xs l ((l + u) / 2)
      else if cmp x > 0 then searchIn cmp xs ((l + u) / 2 + 1) u
      else some ((l + u) / 2)
  else none
termination_by u - l

def bsearch (cmp : α → Int) (xs : List α) : Option Nat := searchIn cmp xs 0 xs.length

/-- The key lies behind the elements it is greater than and before those it is less than. -/
def Ascending (cmp : α → Int) (xs : List α) : Prop :=
  xs.Pairwise (fun x y => (cmp x < 0 → cmp y < 0) ∧ (0 < cmp y → 0 < cmp x))

section

variable {cmp : α → Int} {xs : List α}

theorem searchIn_some (h : searchIn cmp xs l u = some i) : ∃ x, xs[i]? = some x ∧ cmp x = 0 := by
  induction l, u using searchIn.induct cmp xs with
  | case1 l u hlu hx =>
    rw [searchIn, dif_pos hlu, hx] at h
    cases h
  | case2 l u hlu x hx hc ih =>
    rw [searchIn, dif_pos hlu, hx] at h
    dsimp only at h
    rw [if_pos hc] at h
    exact ih h
  | case3 l u hlu x hx hc hc' ih =>
    rw [searchIn, dif_pos hlu, hx] at h
    dsimp only at h
    rw [if_neg hc, if_pos hc'] at h
    exact ih h
  | case4 l u hlu x hx hc hc' =>
    rw [searchIn, dif_pos hlu, hx] at h
    dsimp only at h
    rw [if_neg hc, if_neg hc'] at h
    cases h
    exact ⟨x, hx, by omega⟩
  | case5 l u hlu =>
    rw [searchIn, dif_neg hlu] at h
    cases h

/-- An element that compares equal stays between the bounds. -/
theorem searchIn_isSome (hs : Ascending cmp xs) (hl : l ≤ i) (hi : i < u)
    (hx : xs[i]? = some x) (h : cmp x = 0) (hu : u ≤ xs.length) :
    (searchIn cmp xs l u).isSome = true := by
  have hlt {a b : Nat} {y z : α} (hab : a < b) (ha : xs[a]? = some y) (hb : xs[b]? = some z) :
      (cmp y < 0 → cmp z < 0) ∧ (0 < cmp z → 0 < cmp y) := by
    obtain ⟨ha', rfl⟩ := List.getElem?_eq_some_iff.mp ha
    obtain ⟨hb', rfl⟩ := List.getElem?_eq_some_iff.mp hb
    exact List.pairwise_iff_getElem.mp hs a b ha' hb' hab
  induction l, u using searchIn.induct cmp xs with
  | case1 l u hlu hn =>
    have hb := List.getElem?_eq_none_iff.mp hn
    omega
  | case2 l u hlu y hy hc ih =>
    rw [searchIn, dif_pos hlu, hy]
    dsimp only
    rw [if_pos hc]
    refine ih hl ?_ (by omega)
    by_contra hge
    rcases Nat.eq_or_lt_of_le (Nat.not_lt.mp hge) with he | hlt'
    · rw [he, hx] at hy
      cases hy
      omega
    · have hneg := (hlt hlt' hy hx).1 hc
      omega
  | case3 l u hlu y hy hc hc' ih =>
    rw [searchIn, dif_pos hlu, hy]
    dsimp only
    rw [if_neg hc, if_pos hc']
    refine ih ?_ hi hu
    by_contra hge
    rcases Nat.eq_or_lt_of_le (Nat.le_of_lt_succ (Nat.not_le.mp hge)) with he | hlt'
    · rw [← he, hx] at hy
      cases hy
      omega
    · have hpos := (hlt hlt' hx hy).2 hc'
      omega
  | case4 l u hlu y hy hc hc' =>
    rw [searchIn, dif_pos hlu, hy]
    dsimp only
    rw [if_neg hc, if_neg hc']
    exact rfl
  | case5 l u hlu => omega

/-- The search finds an element exactly where one compares equal. -/
theorem bsearch_isSome_iff (hs : Ascending cmp xs) :
    (bsearch cmp xs).isSome = true ↔ ∃ x ∈ xs, cmp x = 0 := by
  constructor
  · intro h
    obtain ⟨i, hi⟩ := Option.isSome_iff_exists.mp h
    obtain ⟨x, hx, hc⟩ := searchIn_some hi
    exact ⟨x, List.mem_of_getElem? hx, hc⟩
  · rintro ⟨x, hx, hc⟩
    obtain ⟨i, hi⟩ := List.mem_iff_getElem?.mp hx
    obtain ⟨hlt, -⟩ := List.getElem?_eq_some_iff.mp hi
    exact searchIn_isSome hs (Nat.zero_le i) hlt hi hc (Nat.le_refl _)

/-- Where no element compares equal nothing is found. -/
theorem bsearch_eq_none (h : ∀ x ∈ xs, cmp x ≠ 0) : bsearch cmp xs = none := by
  cases hb : bsearch cmp xs with
  | none => rfl
  | some i =>
    obtain ⟨x, hx, hc⟩ := searchIn_some hb
    exact absurd hc (h x (List.mem_of_getElem? hx))

end

end BinarySearch
