import Cibyl.JumpTable

namespace Cibyl
set_option autoImplicit true

open CibylElf (Sorted)
open BinarySearch (Ascending bsearch bsearch_isSome_iff searchIn_some)

/-- A class: its methods, of which the last have several functions. -/
structure JavaClass where
  methods : List JavaMethod
  nMultiFunctionMethods : Nat

namespace JavaClass

/-- `methods`, `last_idx` and `n_multiFunctionMethods` in the loop of the constructor. -/
structure Arranged (α : Type) where
  methods : List α
  lastIdx : Nat
  nMultiFunctionMethods : Nat

section

variable (multi : α → Bool)

/-- The inner loop: `last_idx` goes down over the methods with several functions. -/
def skipMulti (methods : List α) : Nat → Nat → Nat × Nat
  | 0, n => (0, n)
  | lastIdx + 1, n =>
    if (methods[lastIdx + 1]?).any multi then skipMulti methods lastIdx (n + 1)
    else (lastIdx + 1, n)

/-- The turns of the outer loop from `i` on. -/
def arrangeLoop : Nat → Nat → Arranged α → Option (Arranged α)
  | 0, _, s => some s
  | rest + 1, i, s => do
    let mt ← s.methods[i]?
    let (lastIdx, n) := skipMulti multi s.methods s.lastIdx s.nMultiFunctionMethods
    let last ← s.methods[lastIdx]?
    if lastIdx = 0 ∨ i = lastIdx then some ⟨s.methods, lastIdx, n⟩
    else if multi last then none
    else if multi mt then
      arrangeLoop rest (i + 1) ⟨(s.methods.set i last).set lastIdx mt, lastIdx, n⟩
    else arrangeLoop rest (i + 1) ⟨s.methods, lastIdx, n⟩

/-- The methods with several functions are put last, and counted. -/
def arrange (methods : List α) : Option (Arranged α) :=
  arrangeLoop multi methods.length 0 ⟨methods, methods.length - 1, 0⟩

end

def methodCmp (a b : JavaMethod) : Int := (a.address - b.address).toInt

def methodSearchCmp (key : Word) (b : JavaMethod) : Int :=
  if b.address.toNat ≤ key.toNat ∧ key.toNat ≤ (b.address + BitVec.ofNat 32 b.size).toNat then 0
  else if key.toNat < b.address.toNat then -1
  else 1

/-- How many methods are sorted. -/
def nSorted (c : JavaClass) : Nat := c.methods.length - c.nMultiFunctionMethods

/-- What the constructor may leave of the methods it is given. -/
def Made (part : List JavaMethod) (c : JavaClass) : Prop :=
  part ≠ [] ∧ ∃ s, arrange JavaMethod.hasMultipleFunctions part = some s ∧
    ∃ sorted, Sorted methodCmp (s.methods.take (part.length - s.nMultiFunctionMethods)) sorted ∧
      c = ⟨sorted ++ s.methods.drop (part.length - s.nMultiFunctionMethods),
        s.nMultiFunctionMethods⟩

/-- The index that `getMethodByAddress` finds. -/
def methodIndex (c : JavaClass) (addr : Word) : Option Nat :=
  match bsearch (methodSearchCmp addr) (c.methods.take c.nSorted) with
  | some i => some i
  | none => ((c.methods.drop c.nSorted).findIdx? (fun mt =>
      (mt.getFunctionByAddress addr).isSome)).map (c.nSorted + ·)

def getMethodByAddress (c : JavaClass) (addr : Word) : Option JavaMethod :=
  (c.methodIndex addr).bind (fun idx => c.methods[idx]?)

/-- The inner loop of `allocateClasses`: the methods of the next class, and those that are left. -/
def takeClass (classSizeLimit : Nat) : Nat → List JavaMethod → List JavaMethod × List JavaMethod
  | _, [] => ([], [])
  | size, mt :: methods =>
    if size < classSizeLimit then
      let r := takeClass classSizeLimit (size + mt.bytecodeSize) methods
      (mt :: r.1, r.2)
    else ([], mt :: methods)

/-- The parts of the methods, one for each class; a class of no methods ends the program. -/
def allocateParts (classSizeLimit : Nat) : Nat → List JavaMethod → Option (List (List JavaMethod))
  | _, [] => some []
  | 0, _ => none
  | fuel + 1, methods =>
    let r := takeClass classSizeLimit 0 methods
    if r.1 = [] then none
    else (allocateParts classSizeLimit fuel r.2).map (r.1 :: ·)

/-- The class of the call table finds no method. -/
def callTableClass (_ : Word) : Option JavaMethod := none

/-- The lookup of the controller. -/
def lookup (classes : List JavaClass) (addr : Word) : Option JavaMethod :=
  (classes.map getMethodByAddress ++ [callTableClass]).findSome? (fun f => f addr)

section

variable (multi : α → Bool)

/-- The methods of one function, and only these, stand before `k`. -/
def Split (k : Nat) (methods : List α) : Prop :=
  ∀ j mt, methods[j]? = some mt → (multi mt = false ↔ j < k)

/-- How many methods have one function. -/
def singles (methods : List α) : Nat := methods.countP (fun mt => !multi mt)

/-- There is a method of one function and, where there are several, one stands at the place that
the last of them gets. -/
def Arrangeable (methods : List α) : Prop :=
  singles multi methods = 1 ∨
    1 < singles multi methods ∧
      ∃ mt, methods[singles multi methods - 1]? = some mt ∧ multi mt = false

end

section

variable {multi : α → Bool} {xs : List α} {s : Arranged α} {mt last : α}

theorem skipMulti_spec (multi : α → Bool) (methods : List α) (lastIdx n : Nat) :
    (skipMulti multi methods lastIdx n).1 ≤ lastIdx ∧
      (skipMulti multi methods lastIdx n).1 + (skipMulti multi methods lastIdx n).2 =
        lastIdx + n ∧
      (∀ j, (skipMulti multi methods lastIdx n).1 < j → j ≤ lastIdx →
        ∀ mt, methods[j]? = some mt → multi mt = true) ∧
      ((skipMulti multi methods lastIdx n).1 ≠ 0 →
        ∀ mt, methods[(skipMulti multi methods lastIdx n).1]? = some mt → multi mt = false) := by
  induction lastIdx generalizing n with
  | zero =>
    rw [skipMulti]
    exact ⟨Nat.le_refl _, rfl, fun j h h' => absurd h (by omega), fun h => absurd rfl h⟩
  | succ lastIdx ih =>
    rw [skipMulti]
    split
    · next h =>
      obtain ⟨hle, hsum, hskip, hstop⟩ := ih (n + 1)
      refine ⟨by omega, by omega, fun j hj hj' mt hmt => ?_, hstop⟩
      rcases Nat.eq_or_lt_of_le hj' with rfl | hj'
      · rwa [hmt] at h
      · exact hskip j hj (by omega) mt hmt
    · next h =>
      refine ⟨Nat.le_refl _, rfl, fun j hj hj' => absurd hj (by omega), fun _ mt hmt => ?_⟩
      rw [hmt] at h
      simpa using h

theorem split_iff : Split multi k xs ↔
    (∀ x ∈ xs.take k, multi x = false) ∧ ∀ x ∈ xs.drop k, multi x = true := by
  constructor
  · refine fun h => ⟨fun x hx => ?_, fun x hx => ?_⟩
    · obtain ⟨j, hj⟩ := List.mem_iff_getElem?.mp hx
      rw [List.getElem?_take] at hj
      split at hj
      · next hlt => exact (h j x hj).mpr hlt
      · cases hj
    · obtain ⟨j, hj⟩ := List.mem_iff_getElem?.mp hx
      rw [List.getElem?_drop] at hj
      refine Bool.eq_true_of_not_eq_false fun hf => ?_
      have := (h (k + j) x hj).mp hf
      omega
  · rintro ⟨hfront, hback⟩ j x hx
    rcases Nat.lt_or_ge j k with hj | hj
    · have hmem : x ∈ xs.take k :=
        List.mem_of_getElem? (i := j) (by rw [List.getElem?_take, if_pos hj, hx])
      exact iff_of_true (hfront x hmem) hj
    · have hmem : x ∈ xs.drop k := by
        refine List.mem_of_getElem? (i := j - k) ?_
        rw [List.getElem?_drop, Nat.add_sub_cancel' hj, hx]
      rw [hback x hmem]
      exact iff_of_false nofun (Nat.not_lt.mpr hj)

/-- Where the methods are split, the place of the split is their number. -/
theorem Split.singles_eq (h : Split multi k xs) (hk : k ≤ xs.length) : singles multi xs = k := by
  induction xs generalizing k with
  | nil => exact (Nat.le_zero.mp hk).symm
  | cons x xs ih =>
    have hx := h 0 x rfl
    rw [singles, List.countP_cons]
    cases k with
    | zero =>
      have hx' : multi x = true := by simpa using hx
      have hs : Split multi 0 xs := fun j mt hj => h (j + 1) mt hj |>.trans (by omega)
      have hi := ih hs (Nat.zero_le _)
      rw [singles] at hi
      rw [hi, hx']
      rfl
    | succ k =>
      have hx' : multi x = false := hx.mpr (Nat.zero_lt_succ _)
      have hs : Split multi k xs := fun j mt hj => h (j + 1) mt hj |>.trans (by omega)
      have hi := ih hs (Nat.le_of_succ_le_succ hk)
      rw [singles] at hi
      rw [hi, hx']
      rfl

theorem singles_perm (h : xs.Perm ys) : singles multi xs = singles multi ys := h.countP_eq _

theorem getElem?_swap {x y : α} (hi : xs[i]? = some x) (hj : xs[j]? = some y) (k : Nat) :
    ((xs.set i y).set j x)[k]? = if k = j then some x else if k = i then some y else xs[k]? := by
  obtain ⟨hi, -⟩ := List.getElem?_eq_some_iff.mp hi
  obtain ⟨hj, -⟩ := List.getElem?_eq_some_iff.mp hj
  rw [List.getElem?_set, List.getElem?_set, List.length_set]
  by_cases hkj : k = j
  · subst hkj
    rw [if_pos rfl, if_pos rfl, if_pos hj]
  · rw [if_neg (Ne.symm hkj), if_neg hkj]
    by_cases hki : k = i
    · subst hki
      rw [if_pos rfl, if_pos rfl, if_pos hi]
    · rw [if_neg (Ne.symm hki), if_neg hki]

theorem swap_perm {x y : α} (hi : xs[i]? = some x) (hj : xs[j]? = some y) :
    ((xs.set i y).set j x).Perm xs := by
  obtain ⟨hi', rfl⟩ := List.getElem?_eq_some_iff.mp hi
  obtain ⟨hj', rfl⟩ := List.getElem?_eq_some_iff.mp hj
  exact List.set_set_perm hi' hj'

/-- What holds at each turn: the same methods, of which those behind `last_idx` are counted. -/
structure Counted (xs : List α) (s : Arranged α) : Prop where
  perm : s.methods.Perm xs
  count : s.nMultiFunctionMethods + s.lastIdx + 1 = xs.length

theorem Counted.some (h : Counted xs s) (hj : j < xs.length) : ∃ mt, s.methods[j]? = some mt :=
  ⟨_, List.getElem?_eq_getElem (h.perm.length_eq ▸ hj)⟩

theorem Counted.skip (h : Counted xs s) (multi : α → Bool) : Counted xs
    ⟨s.methods, (skipMulti multi s.methods s.lastIdx s.nMultiFunctionMethods).1,
      (skipMulti multi s.methods s.lastIdx s.nMultiFunctionMethods).2⟩ := by
  obtain ⟨-, hsum, -, -⟩ := skipMulti_spec multi s.methods s.lastIdx
    s.nMultiFunctionMethods
  have hc := h.count
  refine ⟨h.perm, ?_⟩
  dsimp only
  omega

theorem Counted.swap {x y : α} (h : Counted xs s) (hi : s.methods[i]? = Option.some x)
    (hj : s.methods[j]? = Option.some y) :
    Counted xs ⟨(s.methods.set i y).set j x, s.lastIdx, s.nMultiFunctionMethods⟩ :=
  ⟨(swap_perm hi hj).trans h.perm, h.count⟩

/-- A method of one function was left behind. -/
def LeftBehind (multi : α → Bool) (i : Nat) (s : Arranged α) : Prop :=
  ∃ k mt, s.lastIdx < k ∧ k < i ∧ s.methods[k]? = some mt ∧ multi mt = false

theorem LeftBehind.not_split (h : LeftBehind multi i s) :
    ¬ Split multi (s.lastIdx + 1) s.methods := by
  obtain ⟨k, mt, hk, -, hmt, hs⟩ := h
  intro hsplit
  have := (hsplit k mt hmt).mp hs
  omega

/-- One turn of the loop, with what the inner loop finds. -/
theorem arrangeLoop_succ (rest : Nat) (s : Arranged α) (hi : s.methods[i]? = some mt)
    (hl : s.methods[(skipMulti multi s.methods s.lastIdx s.nMultiFunctionMethods).1]? = some last) :
    arrangeLoop multi (rest + 1) i s =
      let l := (skipMulti multi s.methods s.lastIdx s.nMultiFunctionMethods).1
      let n := (skipMulti multi s.methods s.lastIdx s.nMultiFunctionMethods).2
      if l = 0 ∨ i = l then some ⟨s.methods, l, n⟩
      else if multi last then none
      else if multi mt then
        arrangeLoop multi rest (i + 1) ⟨(s.methods.set i last).set l mt, l, n⟩
      else arrangeLoop multi rest (i + 1) ⟨s.methods, l, n⟩ := by
  rw [arrangeLoop]
  simp only [hi, hl, Option.bind_eq_bind, Option.bind_some]

/-- Once a method of one function is left behind, the methods do not come out split. -/
theorem arrangeLoop_leftBehind (hc : Counted xs s) (hb : LeftBehind multi i s)
    (hr : i + rest = xs.length) :
    ∃ s', arrangeLoop multi rest i s = some s' ∧ Counted xs s' ∧
      ¬ Split multi (s'.lastIdx + 1) s'.methods := by
  induction rest generalizing i s with
  | zero => exact ⟨s, rfl, hc, hb.not_split⟩
  | succ rest ih =>
    obtain ⟨hle, -, -, hstop⟩ := skipMulti_spec multi s.methods s.lastIdx
      s.nMultiFunctionMethods
    have hc' := hc.skip multi
    obtain ⟨mt, hmt⟩ := hc.some (j := i) (by omega)
    have hlt := hc.count
    obtain ⟨last, hlast⟩ := hc.some
      (j := (skipMulti multi s.methods s.lastIdx s.nMultiFunctionMethods).1) (by omega)
    rw [arrangeLoop_succ rest s hmt hlast]
    generalize skipMulti multi s.methods s.lastIdx s.nMultiFunctionMethods = l at *
    obtain ⟨k, x, hk, hki, hx, hxs⟩ := hb
    dsimp only
    split
    · exact ⟨_, rfl, hc', LeftBehind.not_split (i := i) ⟨k, x, by dsimp only; omega, hki, hx, hxs⟩⟩
    · next hz =>
      rw [not_or] at hz
      rw [if_neg (Bool.eq_false_iff.mp (hstop hz.1 last hlast))]
      split
      · refine ih (hc'.swap hmt hlast) ⟨k, x, by dsimp only; omega, by omega, ?_, hxs⟩ (by omega)
        dsimp only
        rw [getElem?_swap hmt hlast, if_neg (by omega), if_neg (by omega)]
        exact hx
      · exact ih hc' ⟨k, x, by dsimp only; omega, by omega, hx, hxs⟩ (by omega)

/-- The state before turn `i` as long as no method was left behind. -/
structure Arranging (multi : α → Bool) (xs : List α) (i : Nat) (s : Arranged α) : Prop
    extends Counted xs s where
  below : i ≤ s.lastIdx
  front : ∀ j mt, j < i → s.methods[j]? = some mt → multi mt = false
  back : ∀ j mt, s.lastIdx < j → s.methods[j]? = some mt → multi mt = true
  middle : ∀ j, i ≤ j → j < s.lastIdx → s.methods[j]? = xs[j]?
  atLast : s.methods[s.lastIdx]? = xs[s.lastIdx]? ∨
    ∀ mt, s.methods[s.lastIdx]? = some mt → multi mt = true
  before : 0 < i → (∀ mt, s.methods[s.lastIdx]? = some mt → multi mt = false) ∨
    ∃ mt, xs[i - 1]? = some mt ∧ multi mt = true

theorem Arranging.start (hx : xs ≠ []) : Arranging multi xs 0 ⟨xs, xs.length - 1, 0⟩ where
  perm := .refl xs
  count := by
    have := List.length_pos_of_ne_nil hx
    dsimp only
    omega
  below := Nat.zero_le _
  front := fun j mt h => absurd h (Nat.not_lt_zero j)
  back := by
    intro j mt h hj
    obtain ⟨hj, -⟩ := List.getElem?_eq_some_iff.mp hj
    dsimp only at h hj
    omega
  middle := fun _ _ _ => rfl
  atLast := .inl rfl
  before := fun h => absurd h (Nat.lt_irrefl 0)

/-- Split methods were arrangeable where the last place of the front was as it is. -/
theorem Split.arrangeable_iff (h : Split multi k s.methods) (hc : Counted xs s)
    (hk : k ≤ xs.length) : Arrangeable multi xs ↔
      k = 1 ∨ 1 < k ∧ ∃ mt, xs[k - 1]? = some mt ∧ multi mt = false := by
  have hs := h.singles_eq (hc.perm.length_eq ▸ hk)
  rw [singles_perm hc.perm] at hs
  rw [Arrangeable, hs]

/-- Turn `i` behind the inner loop, with the methods at `i` and at `last_idx`. -/
structure Turn (multi : α → Bool) (xs : List α) (i : Nat) (s : Arranged α) (mt last : α) : Prop
    extends Counted xs s where
  current : s.methods[i]? = some mt
  atEnd : s.methods[s.lastIdx]? = some last
  stop : s.lastIdx ≠ 0 → multi last = false
  front : ∀ j x, j < i → s.methods[j]? = some x → multi x = false
  back : ∀ j x, s.lastIdx < j → s.methods[j]? = some x → multi x = true
  middle : ∀ j, i ≤ j → j < s.lastIdx → s.methods[j]? = xs[j]?
  atLast : i ≤ s.lastIdx → multi last = false → s.methods[s.lastIdx]? = xs[s.lastIdx]?
  before : s.lastIdx < i → ∃ x, xs[i - 1]? = some x ∧ multi x = true

theorem Arranging.turn (h : Arranging multi xs i s) : ∃ mt last, Turn multi xs i
    ⟨s.methods, (skipMulti multi s.methods s.lastIdx s.nMultiFunctionMethods).1,
      (skipMulti multi s.methods s.lastIdx s.nMultiFunctionMethods).2⟩ mt last := by
  have hcount := h.count
  have hbelow := h.below
  obtain ⟨hle, -, hskip, hstop⟩ := skipMulti_spec multi s.methods s.lastIdx
    s.nMultiFunctionMethods
  have hc := h.toCounted.skip multi
  obtain ⟨mt, hmt⟩ := h.toCounted.some (j := i) (by omega)
  obtain ⟨last, hlast⟩ := h.toCounted.some
    (j := (skipMulti multi s.methods s.lastIdx s.nMultiFunctionMethods).1) (by omega)
  generalize skipMulti multi s.methods s.lastIdx s.nMultiFunctionMethods = l at *
  have hback (j : Nat) (x : α) (hj : l.1 < j) (hx : s.methods[j]? = some x) :
      multi x = true := by
    rcases Nat.lt_or_ge s.lastIdx j with hj' | hj'
    · exact h.back j x hj' hx
    · exact hskip j hj hj' x hx
  refine ⟨mt, last, hc, hmt, hlast, fun hl => hstop hl last hlast, h.front, hback,
    fun j hj hj' => h.middle j hj (Nat.lt_of_lt_of_le hj' hle), fun hi hm => ?_, fun hlt => ?_⟩
  · rcases Nat.lt_or_eq_of_le hle with hlt | heq
    · exact h.middle l.1 hi hlt
    · dsimp only
      rw [heq]
      refine h.atLast.resolve_right fun hall => ?_
      have := hall last (heq ▸ hlast)
      rw [hm] at this
      cases this
  · dsimp only at hlt
    refine (h.before (by omega)).resolve_left fun hb => ?_
    obtain ⟨y, hy⟩ := h.toCounted.some (j := s.lastIdx) (by omega)
    have h₁ := hback s.lastIdx y (by omega) hy
    rw [hb y hy] at h₁
    cases h₁

theorem Turn.lastIdx_lt (h : Turn multi xs i s mt last) : s.lastIdx < xs.length := by
  have := h.count
  omega

/-- All but the first method have several functions. -/
theorem Turn.split_of_zero (h : Turn multi xs i s mt last) (hl : s.lastIdx = 0) :
    Split multi (s.lastIdx + 1) s.methods ↔ Arrangeable multi xs := by
  have hlt := h.lastIdx_lt
  have hlast := h.atEnd
  have hback := h.back
  rw [hl] at hlast hback hlt ⊢
  cases hm : multi last with
  | false =>
    have hsplit : Split multi 1 s.methods := by
      intro j x hx
      rcases Nat.eq_zero_or_pos j with rfl | hj
      · cases hx.symm.trans hlast
        simp [hm]
      · simp [hback j x hj hx, Nat.not_lt.mpr hj]
    exact iff_of_true hsplit ((hsplit.arrangeable_iff h.toCounted hlt).mpr (.inl rfl))
  | true =>
    have hsplit : Split multi 0 s.methods := by
      intro j x hx
      rcases Nat.eq_zero_or_pos j with rfl | hj
      · cases hx.symm.trans hlast
        simp [hm]
      · simp [hback j x hj hx]
    refine iff_of_false (fun h₁ => ?_) (fun ha => ?_)
    · have := (h₁ 0 last hlast).mpr Nat.one_pos
      rw [hm] at this
      cases this
    · have := (hsplit.arrangeable_iff h.toCounted (Nat.zero_le _)).mp ha
      omega

/-- The two indices meet at a method of one function. -/
theorem Turn.split_of_meet (h : Turn multi xs i s mt last) (hl : s.lastIdx ≠ 0)
    (hi : i = s.lastIdx) : Split multi (s.lastIdx + 1) s.methods ↔ Arrangeable multi xs := by
  have hm := h.stop hl
  have hsplit : Split multi (s.lastIdx + 1) s.methods := by
    intro j x hx
    rcases Nat.lt_trichotomy j s.lastIdx with hj | rfl | hj
    · simp [h.front j x (by omega) hx, Nat.lt_succ_of_lt hj]
    · cases hx.symm.trans h.atEnd
      simp [hm]
    · simp [h.back j x hj hx, Nat.not_lt.mpr hj]
  refine iff_of_true hsplit ((hsplit.arrangeable_iff h.toCounted h.lastIdx_lt).mpr
    (.inr ⟨by omega, last, ?_, hm⟩))
  rw [Nat.add_sub_cancel, ← h.atEnd]
  exact (h.atLast (Nat.le_of_eq hi) hm).symm

/-- A method of several functions goes to the end. -/
theorem Turn.swap (h : Turn multi xs i s mt last) (hlt : i < s.lastIdx) (hmulti : multi mt = true) :
    Arranging multi xs (i + 1)
      ⟨(s.methods.set i last).set s.lastIdx mt, s.lastIdx, s.nMultiFunctionMethods⟩ := by
  have hswap := getElem?_swap h.current h.atEnd
  refine ⟨h.toCounted.swap h.current h.atEnd, hlt, fun j x hj hx => ?_, fun j x hj hx => ?_,
    fun j hj hj' => ?_, .inr fun x hx => ?_, fun _ => .inr ⟨mt, ?_, hmulti⟩⟩
  · dsimp only at hx
    rw [hswap, if_neg (by omega)] at hx
    split at hx
    · cases hx
      exact h.stop (by omega)
    · exact h.front j x (by omega) hx
  · dsimp only at hx hj
    rw [hswap, if_neg (by omega), if_neg (by omega)] at hx
    exact h.back j x hj hx
  · dsimp only at hj' ⊢
    rw [hswap, if_neg (by omega), if_neg (by omega)]
    exact h.middle j (by omega) hj'
  · dsimp only at hx
    rw [hswap, if_pos rfl] at hx
    cases hx
    exact hmulti
  · rw [Nat.add_sub_cancel, ← h.current]
    exact (h.middle i (Nat.le_refl _) hlt).symm

/-- A method of one function stays. -/
theorem Turn.keep (h : Turn multi xs i s mt last) (hlt : i < s.lastIdx)
    (hsingle : multi mt = false) : Arranging multi xs (i + 1) s := by
  have hm := h.stop (by omega)
  refine ⟨h.toCounted, hlt, fun j x hj hx => ?_, h.back, fun j hj hj' => ?_,
    .inl (h.atLast (Nat.le_of_lt hlt) hm), fun _ => .inl fun x hx => ?_⟩
  · rcases Nat.lt_or_eq_of_le (Nat.le_of_lt_succ hj) with hj | rfl
    · exact h.front j x hj hx
    · cases hx.symm.trans h.current
      exact hsingle
  · exact h.middle j (by omega) hj'
  · cases hx.symm.trans h.atEnd
    exact hm

/-- The inner loop has gone past `i`: the method it stops at was put in its place before. -/
theorem Turn.past (h : Turn multi xs i s mt last) (hl : s.lastIdx ≠ 0) (hlt : s.lastIdx < i) :
    multi mt = true ∧ ¬ Arrangeable multi xs := by
  obtain ⟨hi, -⟩ := List.getElem?_eq_some_iff.mp h.current
  have hlen := h.perm.length_eq
  have hli : s.lastIdx = i - 1 := by
    by_contra hne
    obtain ⟨x, hx⟩ := h.toCounted.some (j := i - 1) (by omega)
    have h₁ := h.front (i - 1) x (by omega) hx
    rw [h.back (i - 1) x (by omega) hx] at h₁
    cases h₁
  have hsplit : Split multi i s.methods := by
    intro j x hx
    rcases Nat.lt_or_ge j i with hj | hj
    · simp [h.front j x hj hx, hj]
    · simp [h.back j x (by omega) hx, Nat.not_lt.mpr hj]
  refine ⟨h.back i mt hlt h.current, fun ha => ?_⟩
  rcases (hsplit.arrangeable_iff h.toCounted (by omega)).mp ha with h₁ | ⟨-, x, hx, hxs⟩
  · omega
  · obtain ⟨y, hy, hys⟩ := h.before hlt
    cases hx.symm.trans hy
    rw [hxs] at hys
    cases hys

/-- The loop does not fail, and it splits the methods just where they are arrangeable. -/
theorem arrangeLoop_arranging (h : Arranging multi xs i s) (hr : i + rest = xs.length) :
    ∃ s', arrangeLoop multi rest i s = some s' ∧ Counted xs s' ∧
      (Split multi (s'.lastIdx + 1) s'.methods ↔ Arrangeable multi xs) := by
  induction rest generalizing i s with
  | zero =>
    have := h.count
    have := h.below
    omega
  | succ rest ih =>
    obtain ⟨mt, last, ht⟩ := h.turn
    rw [arrangeLoop_succ rest s ht.current ht.atEnd]
    generalize skipMulti multi s.methods s.lastIdx s.nMultiFunctionMethods = l at *
    dsimp only
    split
    · next hz =>
      refine ⟨_, rfl, ht.toCounted, ?_⟩
      by_cases hl : l.1 = 0
      · exact ht.split_of_zero hl
      · exact ht.split_of_meet hl (hz.resolve_left hl)
    · next hz =>
      obtain ⟨hl, hil⟩ := not_or.mp hz
      rw [if_neg (Bool.eq_false_iff.mp (ht.stop hl))]
      rcases Nat.lt_or_ge i l.1 with hlt | hge
      · split
        · next hm => exact ih (ht.swap hlt hm) (by omega)
        · next hm => exact ih (ht.keep hlt (Bool.eq_false_iff.mpr hm)) (by omega)
      · have hlt : l.1 < i := Nat.lt_of_le_of_ne hge (Ne.symm hil)
        obtain ⟨hm, hnot⟩ := ht.past hl hlt
        rw [if_pos hm]
        have hbehind : LeftBehind multi (i + 1) ⟨(s.methods.set i last).set l.1 mt, l.1, l.2⟩ := by
          refine ⟨i, last, hlt, Nat.lt_succ_self i, ?_, ht.stop hl⟩
          dsimp only
          rw [getElem?_swap ht.current ht.atEnd, if_neg (Nat.ne_of_gt hlt), if_pos rfl]
        have hrest : i + 1 + rest = xs.length := by omega
        obtain ⟨s', hs, hc, hns⟩ :=
          arrangeLoop_leftBehind (ht.toCounted.swap ht.current ht.atEnd) hbehind hrest
        exact ⟨s', hs, hc, iff_of_false hns hnot⟩

/-- The constructor splits the methods just where they are arrangeable. -/
theorem arrange_split (multi : α → Bool) (hx : xs ≠ []) :
    ∃ s, arrange multi xs = some s ∧ Counted xs s ∧
    (Split multi (s.lastIdx + 1) s.methods ↔ Arrangeable multi xs) :=
  arrangeLoop_arranging (.start hx) (Nat.zero_add _)

end

/-- The functions lie in the address space, no two of them on one address, and none 2 GiB from
another. -/
structure Laid (methods : List JavaMethod) : Prop where
  fits : ∀ fn ∈ methods.flatMap JavaMethod.functions, fn.address.toNat + fn.size < 2 ^ 32
  disjoint : (methods.flatMap JavaMethod.functions).Pairwise (fun f g =>
    ∀ addr, ¬ (f.covers addr = true ∧ g.covers addr = true))
  near : CodeBlock.Near ((methods.flatMap JavaMethod.functions).map Function.address)

/-- What the lookup is to find. -/
def Exact (methods : List JavaMethod) (find : Word → Option JavaMethod) : Prop :=
  ∀ addr, (∀ mt ∈ methods, ∀ fn ∈ mt.functions, fn.covers addr = true → find addr = some mt) ∧
    ((∀ mt ∈ methods, ∀ fn ∈ mt.functions, fn.covers addr = false) → find addr = none)

/-- The methods of one function, and only these, are in the part that is sorted. -/
def Partitioned (c : JavaClass) : Prop :=
  Split JavaMethod.hasMultipleFunctions c.nSorted c.methods ∧
    (c.methods.take c.nSorted).Pairwise (fun a b => a.address.toNat ≤ b.address.toNat)

/-- No address lies in both methods. -/
def Apart (a b : JavaMethod) : Prop :=
  ∀ addr, ¬ ((a.getFunctionByAddress addr).isSome = true ∧
    (b.getFunctionByAddress addr).isSome = true)

theorem Apart.symm (h : Apart a b) : Apart b a := fun addr hab => h addr hab.symm

theorem isSome_iff {mt : JavaMethod} : (mt.getFunctionByAddress addr).isSome = true ↔
    ∃ fn ∈ mt.functions, fn.covers addr = true := List.find?_isSome

section

variable {methods part : List JavaMethod} {mt : JavaMethod} {c : JavaClass}

theorem Laid.perm (h : Laid methods) (hp : part.Perm methods) : Laid part := by
  have hf := hp.flatMap_right JavaMethod.functions
  refine ⟨fun fn hfn => h.fits fn (hf.subset hfn), hf.symm.pairwise h.disjoint ?_, ?_⟩
  · intro f g hfg addr hgf
    exact hfg addr hgf.symm
  · intro a ha b hb
    exact h.near a ((hf.map _).subset ha) b ((hf.map _).subset hb)

theorem Laid.sublist (h : Laid methods) (hs : part.Sublist methods) : Laid part := by
  have hf := hs.flatMap JavaMethod.functions
  exact ⟨fun fn hfn => h.fits fn (hf.subset hfn), h.disjoint.sublist hf,
    fun a ha b hb => h.near a ((hf.map _).subset ha) b ((hf.map _).subset hb)⟩

theorem Laid.apart (h : Laid methods) : methods.Pairwise Apart := by
  refine (List.pairwise_flatMap.mp h.disjoint).2.imp fun hab addr hs => ?_
  obtain ⟨f, hf, hfc⟩ := isSome_iff.mp hs.1
  obtain ⟨g, hg, hgc⟩ := isSome_iff.mp hs.2
  exact hab f hf g hg addr ⟨hfc, hgc⟩

/-- Two places whose methods have an address in common are the same. -/
theorem Laid.index_eq {i j : Nat} {a b : JavaMethod} (h : Laid methods) (ha : methods[i]? = some a)
    (hb : methods[j]? = some b) (hac : (a.getFunctionByAddress addr).isSome = true)
    (hbc : (b.getFunctionByAddress addr).isSome = true) : i = j := by
  obtain ⟨hi, rfl⟩ := List.getElem?_eq_some_iff.mp ha
  obtain ⟨hj, rfl⟩ := List.getElem?_eq_some_iff.mp hb
  have hp := List.pairwise_iff_getElem.mp h.apart
  rcases Nat.lt_trichotomy i j with hij | hij | hij
  · exact absurd ⟨hac, hbc⟩ (hp i j hi hj hij addr)
  · exact hij
  · exact absurd ⟨hbc, hac⟩ (hp j i hj hi hij addr)

/-- The one function of a method. -/
theorem single_eq {mt : JavaMethod} (h : mt.hasMultipleFunctions = false) :
    ∃ fn, mt.functions = [fn] ∧ mt.address = fn.address ∧ mt.size = fn.size := by
  obtain ⟨fn, fns, hf⟩ := List.exists_cons_of_ne_nil mt.nonempty
  rw [JavaMethod.hasMultipleFunctions, hf] at h
  cases fns with
  | cons => simp at h
  | nil =>
    refine ⟨fn, hf, ?_, ?_⟩
    · rw [JavaMethod.address, hf, List.foldl_cons, List.foldl_nil]
      split
      · rfl
      · next hz =>
        apply BitVec.eq_of_toNat_eq
        exact (Nat.eq_zero_of_not_pos hz).symm
    · rw [JavaMethod.size, hf]
      rfl

/-- How the search compares an address with a method of one function. -/
theorem methodSearchCmp_single {mt : JavaMethod} (addr : Word) (h : mt.functions = [fn])
    (ha : mt.address = fn.address) (hs : mt.size = fn.size)
    (hfit : fn.address.toNat + fn.size < 2 ^ 32) :
    (methodSearchCmp addr mt < 0 ↔ addr.toNat < fn.address.toNat) ∧
      (0 < methodSearchCmp addr mt ↔ fn.address.toNat + fn.size < addr.toNat) ∧
      (methodSearchCmp addr mt = 0 ↔ (mt.getFunctionByAddress addr).isSome = true) := by
  have hend : (fn.address + BitVec.ofNat 32 fn.size).toNat = fn.address.toNat + fn.size := by
    rw [BitVec.toNat_add, BitVec.toNat_ofNat, Nat.add_mod_mod, Nat.mod_eq_of_lt hfit]
  have hcov : (mt.getFunctionByAddress addr).isSome = true ↔
      fn.address.toNat ≤ addr.toNat ∧ addr.toNat ≤ fn.address.toNat + fn.size := by
    rw [isSome_iff, h]
    simp [Function.covers]
  rw [hcov, methodSearchCmp, ha, hs, hend]
  split
  · omega
  · split <;> omega

theorem Made.spec (h : Made part c) : ∃ s : Arranged JavaMethod, s.methods.Perm part ∧
    (Split JavaMethod.hasMultipleFunctions c.nSorted s.methods ↔
      Arrangeable JavaMethod.hasMultipleFunctions part) ∧
    Sorted methodCmp (s.methods.take c.nSorted) (c.methods.take c.nSorted) ∧
    c.methods.drop c.nSorted = s.methods.drop c.nSorted := by
  obtain ⟨hne, s, hs, sorted, hsorted, rfl⟩ := h
  obtain ⟨s', hs', hc, hsplit⟩ := arrange_split JavaMethod.hasMultipleFunctions hne
  cases hs.symm.trans hs'
  have hcount := hc.count
  have hlen := hc.perm.length_eq
  have hk : part.length - s.nMultiFunctionMethods = s.lastIdx + 1 := by omega
  rw [hk] at hsorted
  have hsl := hsorted.1.length_eq
  rw [List.length_take] at hsl
  have hsl' : sorted.length = s.lastIdx + 1 := by omega
  have hn : nSorted ⟨sorted ++ s.methods.drop (part.length - s.nMultiFunctionMethods),
      s.nMultiFunctionMethods⟩ = s.lastIdx + 1 := by
    rw [nSorted, hk, List.length_append, List.length_drop, hsl']
    dsimp only
    omega
  refine ⟨s, hc.perm, ?_, ?_, ?_⟩
  · rw [hn]
    exact hsplit
  · rw [hn]
    dsimp only
    rw [← hsl', List.take_left, hsl']
    exact hsorted
  · rw [hn]
    dsimp only
    rw [hk, ← hsl', List.drop_left]

theorem Made.perm (h : Made part c) : c.methods.Perm part := by
  obtain ⟨s, hp, -, hsorted, hdrop⟩ := h.spec
  have ha := hsorted.1.append_right (c.methods.drop c.nSorted)
  rw [List.take_append_drop, hdrop, List.take_append_drop] at ha
  exact ha.trans hp

/-- The constructor splits the methods it is given just where they are arrangeable. -/
theorem Made.split_iff (h : Made part c) :
    Split JavaMethod.hasMultipleFunctions c.nSorted c.methods ↔
      Arrangeable JavaMethod.hasMultipleFunctions part := by
  obtain ⟨s, -, hsplit, hsorted, hdrop⟩ := h.spec
  rw [← hsplit, JavaClass.split_iff, JavaClass.split_iff, hdrop]
  exact and_congr_left' ⟨fun h x hx => h x (hsorted.1.symm.subset hx),
    fun h x hx => h x (hsorted.1.subset hx)⟩

/-- The methods of one function are sorted by address. -/
theorem Made.sorted (h : Made part c) (hl : Laid part)
    (hs : Split JavaMethod.hasMultipleFunctions c.nSorted c.methods) :
    (c.methods.take c.nSorted).Pairwise (fun a b => a.address.toNat ≤ b.address.toNat) := by
  obtain ⟨s, -, -, hsorted, -⟩ := h.spec
  have hl' := hl.perm h.perm
  obtain ⟨hsingle, -⟩ := JavaClass.split_iff.mp hs
  have hnear (a : JavaMethod) (ha : a ∈ c.methods.take c.nSorted) :
      a.address ∈ (c.methods.flatMap JavaMethod.functions).map Function.address := by
    obtain ⟨fn, hf, haddr, -⟩ := single_eq (hsingle a ha)
    refine haddr ▸ List.mem_map_of_mem (List.mem_flatMap.mpr ⟨a, List.mem_of_mem_take ha, ?_⟩)
    rw [hf]
    exact List.mem_singleton_self fn
  refine hsorted.2.imp_of_mem fun {a b} ha hb hab => ?_
  have hcmp : methodCmp a b = _ := CodeBlock.uint32Cmp_near
    (hl'.near _ (hnear a ha) _ (hnear b hb)) (hl'.near _ (hnear b hb) _ (hnear a ha))
  omega

/-- The search compares as it has to. -/
theorem ascending (hl : Laid c.methods) (hp : c.Partitioned) (addr : Word) :
    Ascending (methodSearchCmp addr) (c.methods.take c.nSorted) := by
  obtain ⟨hsingle, -⟩ := JavaClass.split_iff.mp hp.1
  have hapart := hl.apart.sublist (List.take_sublist c.nSorted c.methods)
  refine (hp.2.and hapart).imp_of_mem fun {a b} ha hb hab => ?_
  obtain ⟨hle, hapart⟩ := hab
  obtain ⟨f, hf, hfa, hfs⟩ := single_eq (hsingle a ha)
  obtain ⟨g, hg, hga, hgs⟩ := single_eq (hsingle b hb)
  have hfit := hl.fits f (List.mem_flatMap.mpr ⟨a, List.mem_of_mem_take ha,
    hf ▸ List.mem_singleton_self f⟩)
  have hgit := hl.fits g (List.mem_flatMap.mpr ⟨b, List.mem_of_mem_take hb,
    hg ▸ List.mem_singleton_self g⟩)
  obtain ⟨halt, hagt, -⟩ := methodSearchCmp_single addr hf hfa hfs hfit
  obtain ⟨hblt, hbgt, -⟩ := methodSearchCmp_single addr hg hga hgs hgit
  rw [halt, hblt, hagt, hbgt]
  have hbefore : f.address.toNat + f.size < g.address.toNat := by
    by_contra hge
    refine hapart g.address ⟨isSome_iff.mpr ⟨f, hf ▸ List.mem_singleton_self f, ?_⟩,
      isSome_iff.mpr ⟨g, hg ▸ List.mem_singleton_self g, Controller.covers_address g⟩⟩
    rw [hfa, hga] at hle
    rw [Function.covers, Bool.and_eq_true, decide_eq_true_iff, decide_eq_true_iff]
    omega
  omega

/-- The lookup finds a method that has the address. -/
theorem methodIndex_some (hl : Laid c.methods)
    (hp : Split JavaMethod.hasMultipleFunctions c.nSorted c.methods)
    (h : c.methodIndex addr = some idx) :
    ∃ mt, c.methods[idx]? = some mt ∧ (mt.getFunctionByAddress addr).isSome = true := by
  rw [methodIndex] at h
  cases hb : bsearch (methodSearchCmp addr) (c.methods.take c.nSorted) with
  | some i =>
    rw [hb] at h
    cases h
    obtain ⟨mt, hmt, hcmp⟩ := searchIn_some hb
    rw [List.getElem?_take] at hmt
    split at hmt
    · next hlt =>
      obtain ⟨fn, hf, ha, hs⟩ := single_eq ((hp idx mt hmt).mpr hlt)
      have hfit := hl.fits fn (List.mem_flatMap.mpr ⟨mt, List.mem_of_getElem? hmt,
        hf ▸ List.mem_singleton_self fn⟩)
      exact ⟨mt, hmt, (methodSearchCmp_single addr hf ha hs hfit).2.2.mp hcmp⟩
    · cases hmt
  | none =>
    rw [hb] at h
    obtain ⟨j, hj, rfl⟩ := Option.map_eq_some_iff.mp h
    obtain ⟨hlt, hsome, -⟩ := List.findIdx?_eq_some_iff_getElem.mp hj
    refine ⟨_, ?_, hsome⟩
    rw [← List.getElem?_drop]
    exact List.getElem?_eq_getElem hlt

/-- A method that has the address is not missed. -/
theorem methodIndex_isSome (hl : Laid c.methods) (hp : c.Partitioned) (hm : mt ∈ c.methods)
    (ha : (mt.getFunctionByAddress addr).isSome = true) : (c.methodIndex addr).isSome = true := by
  rw [methodIndex]
  cases hb : bsearch (methodSearchCmp addr) (c.methods.take c.nSorted) with
  | some i => exact rfl
  | none =>
    rw [← List.take_append_drop c.nSorted c.methods, List.mem_append] at hm
    rcases hm with hm | hm
    · obtain ⟨fn, hf, haddr, hs⟩ := single_eq ((JavaClass.split_iff.mp hp.1).1 mt hm)
      have hfit := hl.fits fn (List.mem_flatMap.mpr ⟨mt, List.mem_of_mem_take hm,
        hf ▸ List.mem_singleton_self fn⟩)
      have hsome := (bsearch_isSome_iff (ascending hl hp addr)).mpr
        ⟨mt, hm, (methodSearchCmp_single addr hf haddr hs hfit).2.2.mpr ha⟩
      rw [hb] at hsome
      cases hsome
    · rw [Option.isSome_map, List.findIdx?_isSome]
      exact List.any_eq_true.mpr ⟨mt, hm, ha⟩

/-- In a partitioned class the lookup finds just the method that has the address. -/
theorem methodIndex_iff (hl : Laid c.methods) (hp : c.Partitioned) :
    c.methodIndex addr = some idx ↔
      ∃ mt, c.methods[idx]? = some mt ∧ (mt.getFunctionByAddress addr).isSome = true := by
  refine ⟨methodIndex_some hl hp.1, fun ⟨mt, hmt, ha⟩ => ?_⟩
  obtain ⟨i, hi⟩ := Option.isSome_iff_exists.mp
    (methodIndex_isSome hl hp (List.mem_of_getElem? hmt) ha)
  obtain ⟨mt', hmt', ha'⟩ := methodIndex_some hl hp.1 hi
  rw [hi, hl.index_eq hmt' hmt ha' ha]

theorem getMethodByAddress_iff (hl : Laid c.methods) (hp : c.Partitioned) :
    c.getMethodByAddress addr = some mt ↔
      mt ∈ c.methods ∧ (mt.getFunctionByAddress addr).isSome = true := by
  rw [getMethodByAddress, Option.bind_eq_some_iff]
  constructor
  · rintro ⟨idx, hidx, hmt⟩
    obtain ⟨mt', hmt', ha⟩ := (methodIndex_iff hl hp).mp hidx
    cases hmt.symm.trans hmt'
    exact ⟨List.mem_of_getElem? hmt, ha⟩
  · rintro ⟨hmt, ha⟩
    obtain ⟨idx, hidx⟩ := List.mem_iff_getElem?.mp hmt
    exact ⟨idx, (methodIndex_iff hl hp).mpr ⟨mt, hidx, ha⟩, hidx⟩

theorem takeClass_append (classSizeLimit size : Nat) (methods : List JavaMethod) :
    (takeClass classSizeLimit size methods).1 ++ (takeClass classSizeLimit size methods).2 =
      methods := by
  induction methods generalizing size with
  | nil => rfl
  | cons mt methods ih =>
    rw [takeClass]
    split
    · exact congrArg (mt :: ·) (ih _)
    · rfl

/-- The classes share out all the methods in their order. -/
theorem allocateParts_flatten (h : allocateParts classSizeLimit fuel methods = some parts) :
    parts.flatten = methods := by
  induction fuel generalizing methods parts with
  | zero =>
    cases methods with
    | nil =>
      cases h
      rfl
    | cons => cases h
  | succ fuel ih =>
    cases methods with
    | nil =>
      cases h
      rfl
    | cons mt methods =>
      rw [allocateParts] at h
      · split at h
        · cases h
        · obtain ⟨parts, hparts, rfl⟩ := Option.map_eq_some_iff.mp h
          rw [List.flatten_cons, ih hparts, takeClass_append]
      · exact List.cons_ne_nil _ _

/-- With a size limit above 0 every class gets a method. -/
theorem allocateParts_isSome (h : 0 < classSizeLimit) (hf : methods.length ≤ fuel) :
    (allocateParts classSizeLimit fuel methods).isSome = true := by
  induction fuel generalizing methods with
  | zero =>
    cases List.length_eq_zero_iff.mp (Nat.le_zero.mp hf)
    rfl
  | succ fuel ih =>
    cases methods with
    | nil => rfl
    | cons mt methods =>
      have hr := takeClass_append classSizeLimit (0 + mt.bytecodeSize) methods
      have hlen := congrArg List.length hr
      rw [List.length_append] at hlen
      rw [List.length_cons] at hf
      rw [allocateParts, takeClass, if_pos h]
      · rw [if_neg (List.cons_ne_nil _ _), Option.isSome_map]
        have hle : (takeClass classSizeLimit (0 + mt.bytecodeSize) methods).2.length ≤ fuel := by
          omega
        exact ih hle
      · exact List.cons_ne_nil _ _

theorem lookup_eq (classes : List JavaClass) (addr : Word) :
    lookup classes addr = classes.findSome? (fun c => c.getMethodByAddress addr) := by
  rw [lookup, List.findSome?_append, List.findSome?_map]
  exact Option.or_none

/-- The classes of a program, as the constructors may leave them. -/
structure Classes (methods : List JavaMethod) (parts : List (List JavaMethod))
    (classes : List JavaClass) : Prop where
  laid : Laid methods
  allocated : ∃ classSizeLimit, allocateParts classSizeLimit methods.length methods = some parts
  made : List.Forall₂ Made parts classes

variable {parts : List (List JavaMethod)} {classes : List JavaClass}

theorem Classes.flatten (h : Classes methods parts classes) : parts.flatten = methods := by
  obtain ⟨_, ha⟩ := h.allocated
  exact allocateParts_flatten ha

theorem Classes.ofClass (h : Classes methods parts classes) (hc : c ∈ classes) :
    ∃ part ∈ parts, Made part c := by
  obtain ⟨i, hi⟩ := List.mem_iff_getElem?.mp hc
  obtain ⟨hlt, rfl⟩ := List.getElem?_eq_some_iff.mp hi
  have hlen := h.made.length_eq
  exact ⟨_, List.getElem_mem (hlen.symm ▸ hlt), h.made.get (hlen.symm ▸ hlt) hlt⟩

theorem Classes.ofPart (h : Classes methods parts classes) (hp : part ∈ parts) :
    ∃ c ∈ classes, Made part c := by
  obtain ⟨i, hi⟩ := List.mem_iff_getElem?.mp hp
  obtain ⟨hlt, rfl⟩ := List.getElem?_eq_some_iff.mp hi
  have hlen := h.made.length_eq
  exact ⟨_, List.getElem_mem (hlen ▸ hlt), h.made.get hlt (hlen ▸ hlt)⟩

theorem Classes.laid_part (h : Classes methods parts classes) (hp : part ∈ parts) : Laid part :=
  h.laid.sublist (h.flatten ▸ List.sublist_flatten_of_mem hp)

theorem Classes.mem_iff (h : Classes methods parts classes) :
    mt ∈ methods ↔ ∃ c ∈ classes, mt ∈ c.methods := by
  rw [← h.flatten, List.mem_flatten]
  constructor
  · rintro ⟨part, hp, hmt⟩
    obtain ⟨c, hc, hm⟩ := h.ofPart hp
    exact ⟨c, hc, hm.perm.symm.subset hmt⟩
  · rintro ⟨c, hc, hmt⟩
    obtain ⟨part, hp, hm⟩ := h.ofClass hc
    exact ⟨part, hp, hm.perm.subset hmt⟩

/-- Among partitioned classes the lookup of the controller is exact. -/
theorem Classes.lookup_exact (h : Classes methods parts classes)
    (hp : ∀ c ∈ classes, c.Partitioned) : Exact methods (lookup classes) := by
  have hlaid (c : JavaClass) (hc : c ∈ classes) : Laid c.methods := by
    obtain ⟨part, hpart, hm⟩ := h.ofClass hc
    exact (h.laid_part hpart).perm hm.perm
  have hfound (addr : Word) (mt : JavaMethod) (hs : lookup classes addr = some mt) :
      mt ∈ methods ∧ (mt.getFunctionByAddress addr).isSome = true := by
    rw [lookup_eq] at hs
    obtain ⟨c, hc, hs⟩ := List.exists_of_findSome?_eq_some hs
    obtain ⟨hmt, ha⟩ := (getMethodByAddress_iff (hlaid c hc) (hp c hc)).mp hs
    exact ⟨h.mem_iff.mpr ⟨c, hc, hmt⟩, ha⟩
  refine fun addr => ⟨fun mt hmt fn hfn hcov => ?_, fun hno => ?_⟩
  · have ha := isSome_iff.mpr ⟨fn, hfn, hcov⟩
    cases hs : lookup classes addr with
    | none =>
      obtain ⟨c, hc, hmc⟩ := h.mem_iff.mp hmt
      rw [lookup_eq] at hs
      have hn := List.findSome?_eq_none_iff.mp hs c hc
      rw [(getMethodByAddress_iff (hlaid c hc) (hp c hc)).mpr ⟨hmc, ha⟩] at hn
      cases hn
    | some mt' =>
      obtain ⟨hmt', ha'⟩ := hfound addr mt' hs
      obtain ⟨i, hi⟩ := List.mem_iff_getElem?.mp hmt
      obtain ⟨j, hj⟩ := List.mem_iff_getElem?.mp hmt'
      cases h.laid.index_eq hi hj ha ha'
      exact hj.symm.trans hi
  · cases hs : lookup classes addr with
    | none => rfl
    | some mt =>
      obtain ⟨hmt, ha⟩ := hfound addr mt hs
      obtain ⟨fn, hfn, hcov⟩ := isSome_iff.mp ha
      rw [hno mt hmt fn hfn] at hcov
      cases hcov

theorem Classes.partitioned (h : Classes methods parts classes)
    (ha : ∀ part ∈ parts, Arrangeable JavaMethod.hasMultipleFunctions part) (hc : c ∈ classes) :
    c.Partitioned := by
  obtain ⟨part, hpart, hm⟩ := h.ofClass hc
  have hs := hm.split_iff.mpr (ha part hpart)
  exact ⟨hs, hm.sorted (h.laid_part hpart) hs⟩

/-- A controller that searches such classes has the exact lookup that its passes rest on. -/
theorem Classes.controller_exact (h : Classes methods parts classes)
    (ha : ∀ part ∈ parts, Arrangeable JavaMethod.hasMultipleFunctions part) {ctl : Controller}
    (hc : ctl.classes = classes.map JavaClass.methods)
    (hf : ∀ c ∈ classes, ∀ addr, ctl.findInClass c.methods addr = c.methodIndex addr) :
    ctl.Exact where
  found := by
    intro cl hcl addr idx
    obtain ⟨c, hmem, rfl⟩ := List.mem_map.mp (hc ▸ hcl)
    obtain ⟨part, hpart, hm⟩ := h.ofClass hmem
    rw [hf c hmem]
    exact methodIndex_iff ((h.laid_part hpart).perm hm.perm) (h.partitioned ha hmem)
  unique := by
    have hmem (f : Function) (hf : f ∈ ctl.functions) :
        f ∈ methods.flatMap JavaMethod.functions := by
      obtain ⟨cl, hcl, mt, hmt, hfn⟩ := Controller.mem_functions.mp hf
      obtain ⟨c, hmem, rfl⟩ := List.mem_map.mp (hc ▸ hcl)
      exact List.mem_flatMap.mpr ⟨mt, h.mem_iff.mpr ⟨c, hmem, hmt⟩, hfn⟩
    intro f hf g hg addr hfc hgc
    obtain ⟨i, hi, rfl⟩ := List.getElem_of_mem (hmem f hf)
    obtain ⟨j, hj, rfl⟩ := List.getElem_of_mem (hmem g hg)
    have hp := List.pairwise_iff_getElem.mp h.laid.disjoint
    rcases Nat.lt_trichotomy i j with hij | rfl | hij
    · exact absurd ⟨hfc, hgc⟩ (hp i j hi hj hij addr)
    · rfl
    · exact absurd ⟨hgc, hfc⟩ (hp j i hj hi hij addr)

/-- Every lookup is exact and every class partitioned just where each part is arrangeable. -/
theorem lookup_exact_iff (h : Classes methods parts classes) :
    (Exact methods (lookup classes) ∧ ∀ c ∈ classes, c.Partitioned) ↔
      ∀ part ∈ parts, Arrangeable JavaMethod.hasMultipleFunctions part := by
  constructor
  · rintro ⟨-, hp⟩ part hpart
    obtain ⟨c, hc, hm⟩ := h.ofPart hpart
    exact hm.split_iff.mp (hp c hc).1
  · intro ha
    have hp (c : JavaClass) (hc : c ∈ classes) := h.partitioned ha hc
    exact ⟨h.lookup_exact hp, hp⟩

end

/-- Four functions of a return each, at 0x1000, 0x1008, 0x1010 and 0x1018. -/
def returns : List Word := [0x03e00008, 0, 0x03e00008, 0, 0x03e00008, 0, 0x03e00008, 0]

def returnsArray : List Entry := (Controller.pass0 0x1000 returns).getD []

theorem returns_pass0 : Controller.pass0 0x1000 returns = some returnsArray := rfl

def returnsFunction (k : Nat) : Option Function :=
  Function.ofSymbol "f" false returnsArray (Controller.pass0_attached returns_pass0) (2 * k)
    (2 * k + 1)

def returnsFirst : JavaMethod := ⟨(returnsFunction 0).toList, by decide⟩

/-- The functions at 0x1008 and 0x1010 in one method. -/
def returnsColocated : JavaMethod :=
  ⟨(returnsFunction 1).toList ++ (returnsFunction 2).toList, by decide⟩

def returnsLast : JavaMethod := ⟨(returnsFunction 3).toList, by decide⟩

theorem apart_of_lt {f g : Function} (h : f.address.toNat + f.size < g.address.toNat)
    (addr : Word) : ¬ (f.covers addr = true ∧ g.covers addr = true) := by
  simp only [Function.covers, Bool.and_eq_true, decide_eq_true_iff]
  omega

theorem laid_returns : Laid [returnsFirst, returnsColocated, returnsLast] where
  fits := by decide
  disjoint := by
    have hp : ([returnsFirst, returnsColocated, returnsLast].flatMap JavaMethod.functions).Pairwise
        (fun f g => f.address.toNat + f.size < g.address.toNat) := by decide
    exact hp.imp apart_of_lt
  near := by
    have hlt : ∀ fn ∈ [returnsFirst, returnsColocated, returnsLast].flatMap JavaMethod.functions,
        fn.address.toNat + fn.size < 2 ^ 31 := by decide
    intro a ha b hb
    obtain ⟨fn, hfn, rfl⟩ := List.mem_map.mp ha
    have := hlt fn hfn
    omega

/-- One method of one function, and the colocated one behind it. -/
theorem lookup_exact_two : Exact [returnsFirst, returnsColocated]
    (lookup [⟨[returnsFirst, returnsColocated], 1⟩]) ∧
      ∀ c ∈ [(⟨[returnsFirst, returnsColocated], 1⟩ : JavaClass)], c.Partitioned := by
  have h : Classes [returnsFirst, returnsColocated] [[returnsFirst, returnsColocated]]
      [⟨[returnsFirst, returnsColocated], 1⟩] := by
    refine ⟨laid_returns.sublist (List.sublist_append_left _ [returnsLast]), ⟨16384, rfl⟩,
      .cons ⟨List.cons_ne_nil _ _, _, rfl, [returnsFirst], ⟨.refl _, ?_⟩, rfl⟩ .nil⟩
    exact List.pairwise_singleton _ _
  refine (lookup_exact_iff h).mpr fun part hp => ?_
  cases List.mem_singleton.mp hp
  exact .inl rfl

/-- A class of a colocated method alone has it among those that are sorted, and its first function
is not found. Between two methods of one function it is left there too, and its size makes it reach
the method behind it. -/
theorem lookup_inexact :
    (Classes [returnsFirst, returnsColocated] [[returnsFirst], [returnsColocated]]
        [⟨[returnsFirst], 0⟩, ⟨[returnsColocated], 0⟩] ∧
      lookup [⟨[returnsFirst], 0⟩, ⟨[returnsColocated], 0⟩] 0x1008 = none ∧
      ¬ Exact [returnsFirst, returnsColocated]
        (lookup [⟨[returnsFirst], 0⟩, ⟨[returnsColocated], 0⟩])) ∧
    Classes [returnsFirst, returnsColocated, returnsLast]
        [[returnsFirst, returnsColocated, returnsLast]]
        [⟨[returnsFirst, returnsColocated, returnsLast], 1⟩] ∧
      lookup [⟨[returnsFirst, returnsColocated, returnsLast], 1⟩] 0x1018 = some returnsColocated ∧
      ¬ Exact [returnsFirst, returnsColocated, returnsLast]
        (lookup [⟨[returnsFirst, returnsColocated, returnsLast], 1⟩]) := by
  have hsingleton (mt : JavaMethod) : Made [mt] ⟨[mt], 0⟩ := by
    have harrange : arrange JavaMethod.hasMultipleFunctions [mt] = some ⟨[mt], 0, 0⟩ := rfl
    exact ⟨List.cons_ne_nil _ _, _, harrange, [mt], ⟨.refl _, List.pairwise_singleton _ _⟩, rfl⟩
  have hnone (mt : JavaMethod) (h : methodSearchCmp 0x1008 mt ≠ 0) :
      getMethodByAddress ⟨[mt], 0⟩ 0x1008 = none := by
    have htake : List.take (nSorted ⟨[mt], 0⟩) [mt] = [mt] := rfl
    rw [getMethodByAddress, methodIndex, htake, BinarySearch.bsearch_eq_none (by simpa using h)]
    rfl
  have hmisses : lookup [⟨[returnsFirst], 0⟩, ⟨[returnsColocated], 0⟩] 0x1008 = none := by
    rw [lookup_eq, List.findSome?_cons, hnone _ (by decide), List.findSome?_cons,
      hnone _ (by decide)]
    rfl
  have hb : bsearch (methodSearchCmp 0x1018) [returnsFirst, returnsColocated] = some 1 := by
    rw [bsearch, BinarySearch.searchIn]
    rfl
  have hi : methodIndex ⟨[returnsFirst, returnsColocated, returnsLast], 1⟩ 0x1018 = some 1 := by
    have htake : List.take (nSorted ⟨[returnsFirst, returnsColocated, returnsLast], 1⟩)
        [returnsFirst, returnsColocated, returnsLast] = [returnsFirst, returnsColocated] := rfl
    rw [methodIndex, htake, hb]
  have htakes : lookup [⟨[returnsFirst, returnsColocated, returnsLast], 1⟩] 0x1018 =
      some returnsColocated := by
    rw [lookup_eq, List.findSome?_cons, getMethodByAddress, hi]
    rfl
  refine ⟨⟨⟨laid_returns.sublist (List.sublist_append_left _ [returnsLast]), ⟨1, rfl⟩,
    .cons (hsingleton _) (.cons (hsingleton _) .nil)⟩, hmisses, fun h => ?_⟩,
    ⟨laid_returns, ⟨16384, rfl⟩, .cons ⟨List.cons_ne_nil _ _, _, rfl,
      [returnsFirst, returnsColocated], ⟨.refl _, by decide⟩, rfl⟩ .nil⟩, htakes, fun h => ?_⟩
  · have hfirst := (h 0x1008).1 returnsColocated (by simp) _
      (List.head_mem returnsColocated.nonempty) rfl
    rw [hmisses] at hfirst
    cases hfirst
  · have hlast := (h 0x1018).1 returnsLast (by simp) _ (List.head_mem returnsLast.nonempty) rfl
    have he := congrArg (Option.map JavaMethod.address) (htakes.symm.trans hlast)
    exact absurd he (by decide)

end JavaClass

end Cibyl
