import Mathlib.Data.List.Basic

namespace Cibyl
set_option autoImplicit true

/-- A pointer in an array. -/
inductive Slot (α : Type) where
  | uninit
  | null
  | ptr (x : α)
  deriving DecidableEq, Repr

/-- An array of pointers. An access outside its bounds is `none`. -/
abbrev CArray (α : Type) := List (Slot α)

namespace CArray

variable {α : Type}

/-- What the pointer at `i` points to. -/
def read (a : CArray α) (i : Nat) : Option α :=
  match a[i]? with
  | some (.ptr x) => some x
  | _ => none

def store (a : CArray α) (i : Nat) (s : Slot α) : Option (CArray α) :=
  if i < a.length then some (a.set i s) else none

/-- `memset` of `n` pointers to zero. -/
def zero (a : CArray α) (off n : Nat) : Option (CArray α) :=
  if off + n ≤ a.length then
    some (a.take off ++ List.replicate n .null ++ a.drop (off + n))
  else none

def realloc (a : CArray α) (n : Nat) : CArray α :=
  a.take n ++ List.replicate (n - a.length) .uninit

def malloc (n : Nat) : CArray α := List.replicate n .uninit

/-- The loop that looks for an index from `i` on, `n` at most, where `p` holds. -/
def search (p : α → Bool) (a : CArray α) : Nat → Nat → Option (Option Nat)
  | 0, _ => some none
  | n + 1, i =>
    match read a i with
    | none => none
    | some x => if p x then some (some i) else search p a n (i + 1)

/-- An array of `cap` pointers: to `xs`, and the others null. -/
def filled (xs : List α) (cap : Nat) : CArray α :=
  xs.map .ptr ++ List.replicate (cap - xs.length) .null

theorem filled_length (h : xs.length ≤ cap) : (filled xs cap : CArray α).length = cap := by
  rw [filled, List.length_append, List.length_map, List.length_replicate]
  omega

theorem filled_get (xs : List α) (cap i : Nat) : (filled xs cap)[i]? =
    if h : i < xs.length then some (.ptr xs[i]) else if i < cap then some .null else none := by
  rw [filled, List.getElem?_append, List.length_map]
  split
  · next h => rw [List.getElem?_map, List.getElem?_eq_getElem h, Option.map_some]
  · next h =>
    rw [List.getElem?_replicate]
    exact if_congr (by omega) rfl rfl

@[simp] theorem read_filled (xs : List α) (cap i : Nat) : read (filled xs cap) i = xs[i]? := by
  rw [read, filled_get]
  by_cases h : i < xs.length
  · rw [dif_pos h, List.getElem?_eq_getElem h]
  · rw [dif_neg h, List.getElem?_eq_none (Nat.le_of_not_lt h)]
    by_cases hc : i < cap
    · rw [if_pos hc]
    · rw [if_neg hc]

theorem store_filled {xs : List α} (h : i < xs.length) (hc : xs.length ≤ cap) (x : α) :
    store (filled xs cap) i (.ptr x) = some (filled (xs.set i x) cap) := by
  have hi : i < (xs.map Slot.ptr).length := by rwa [List.length_map]
  rw [store, if_pos (by rw [filled_length hc]; omega), filled, filled, List.set_append_left _ _ hi,
    List.map_set, List.length_set]

theorem store_filled_next {xs : List α} (h : xs.length < cap) (x : α) :
    store (filled xs cap) xs.length (.ptr x) = some (filled (xs ++ [x]) cap) := by
  obtain ⟨n, hn⟩ := Nat.exists_eq_add_of_lt h
  have h₁ : cap - xs.length = n + 1 := by omega
  have h₂ : cap - (xs ++ [x]).length = n := by
    rw [List.length_append, List.length_singleton]
    omega
  rw [store, if_pos (by rw [filled_length (Nat.le_of_lt h)]; exact h), filled, filled, h₁, h₂,
    List.set_append_right _ _ (Nat.le_of_eq (List.length_map _)), List.length_map, Nat.sub_self,
    List.replicate_succ, List.set_cons_zero, List.map_append, List.append_assoc]
  rfl

/-- A larger block, zeroed from somewhere behind the pointers on. -/
theorem zero_realloc {xs : List α} (h : xs.length ≤ off) (ho : off ≤ cap) (hc : cap ≤ n)
    (hn : off + k = n) : zero (realloc (filled xs cap) n) off k = some (filled xs n) := by
  have hlen : (filled xs cap).length = cap := filled_length (Nat.le_trans h ho)
  have hr : realloc (filled xs cap) n = filled xs cap ++ List.replicate (n - cap) .uninit := by
    rw [realloc, hlen, List.take_of_length_le (Nat.le_trans (Nat.le_of_eq hlen) hc)]
  have hrl : (realloc (filled xs cap) n).length = n := by
    rw [hr, List.length_append, List.length_replicate, hlen]
    omega
  have hmap : (xs.map Slot.ptr).length ≤ off := by rwa [List.length_map]
  have htake : (filled xs cap).take off = xs.map .ptr ++
    List.replicate (off - xs.length) .null := by
    rw [filled, List.take_append, List.take_of_length_le hmap, List.length_map,
      List.take_replicate, Nat.min_eq_left (by omega)]
  rw [zero, if_pos (by rw [hrl]; omega), List.drop_of_length_le (by rw [hrl]; omega),
    List.append_nil, hr, List.take_append_of_le_length (by rw [hlen]; exact ho), htake, filled,
    List.append_assoc, List.replicate_append_replicate]
  exact congrArg some (congrArg (List.map Slot.ptr xs ++ List.replicate · Slot.null) (by omega))

theorem zero_malloc (n : Nat) : zero (malloc n : CArray α) 0 n = some (filled [] n) := by
  have hlen : (malloc n : CArray α).length = n := List.length_replicate
  rw [zero, if_pos (by rw [hlen]; omega), List.drop_of_length_le (by rw [hlen]; omega)]
  exact congrArg some (List.append_nil _)

theorem search_filled_from (p : α → Bool) (pre xs : List α) (cap : Nat) :
    search p (filled (pre ++ xs) cap) xs.length pre.length =
      some ((xs.findIdx? p).map (· + pre.length)) := by
  induction xs generalizing pre with
  | nil => rfl
  | cons x xs ih =>
    have hx : (pre ++ x :: xs)[pre.length]? = some x := by
      rw [List.getElem?_append_right (Nat.le_refl _), Nat.sub_self]
      rfl
    rw [List.length_cons, search, read_filled, hx, List.findIdx?_cons]
    dsimp only
    split
    · rw [Option.map_some, Nat.zero_add]
    · have hi := ih (pre ++ [x])
      rw [List.append_assoc, List.length_append, List.length_singleton] at hi
      rw [List.singleton_append] at hi
      rw [hi, Option.map_map]
      refine congrArg some (congrArg (Option.map · _) ?_)
      funext i
      exact (Nat.add_right_comm i 1 pre.length).symm

/-- The search over the pointers of the array is that over the list of what they point to. -/
theorem search_filled (p : α → Bool) (xs : List α) (cap : Nat) :
    search p (filled xs cap) xs.length 0 = some (xs.findIdx? p) := by
  have h := search_filled_from p [] xs cap
  rw [List.nil_append] at h
  exact h.trans (congrArg some Option.map_id')

end CArray

end Cibyl
