import Cibyl.Mips
import Mathlib.Algebra.Group.Nat.Defs
import Mathlib.Logic.Function.Basic

namespace Cibyl
set_option autoImplicit true

/-- The objects that C code holds handles of; a null entry is `none`. -/
structure ObjectRepository (α : Type) where
  objectRepository : List (Option α)
  maxRepositoryObjects : Word
  firstFree : Nat

namespace ObjectRepository

/-- What `CRunTime.init` sets up: 0 is the invalid object, 1 is the exception object. -/
def init : ObjectRepository α where
  objectRepository := List.replicate 256 none
  maxRepositoryObjects := 256
  firstFree := 2

/-- `none` is an index out of bounds. -/
def getRegisteredObject (s : ObjectRepository α) (handle : Nat) : Option (Option α) :=
  s.objectRepository[handle]?

/-- The search of `registerObject` for the next null entry. -/
def nextNull (table : List (Option α)) (start : Nat) : Option Nat :=
  ((table.drop start).findIdx? Option.isNone).map (start + ·)

/-- The new table that holds `obj` behind the entries of the old one; `none` is a negative size, or
one too small for them. -/
def grow (table : List (Option α)) (size : Word) (obj : α) : Option (List (Option α)) :=
  if 0 ≤ size.toInt ∧ table.length < size.toNat then
    some (table ++ some obj :: List.replicate (size.toNat - (table.length + 1)) none)
  else none

/-- The handle and the new state; `none` is an exception. -/
def registerObject (s : ObjectRepository α) : Option α → Option (Nat × ObjectRepository α)
  | none => some (0, s)
  | some obj =>
    if s.firstFree < s.objectRepository.length then
      let table := s.objectRepository.set s.firstFree (some obj)
      match nextNull table s.firstFree with
      | some i => some (s.firstFree, { s with objectRepository := table, firstFree := i })
      | none =>
        let size := s.maxRepositoryObjects * 2
        (grow table size obj).map (fun tmp =>
          (table.length, { s with objectRepository := tmp, maxRepositoryObjects := size }))
    else none

def deRegisterObject (s : ObjectRepository α) (handle : Nat) :
    Option (Option α × ObjectRepository α) :=
  (s.getRegisteredObject handle).map (fun out =>
    (out, { s with
      firstFree := if s.firstFree > handle then handle else s.firstFree
      objectRepository := s.objectRepository.set handle none }))

theorem nextNull_some (h : nextNull table start = some i) : start ≤ i ∧ table[i]? = some none := by
  obtain ⟨k, hk, rfl⟩ := Option.map_eq_some_iff.mp h
  obtain ⟨hlt, hn, -⟩ := List.findIdx?_eq_some_iff_getElem.mp hk
  refine ⟨Nat.le_add_right _ _, ?_⟩
  rw [← List.getElem?_drop, List.getElem?_eq_getElem hlt, Option.isNone_iff_eq_none.mp hn]

theorem nextNull_none (h : nextNull table start = none) (hi : start ≤ i) :
    table[i]? ≠ some none := by
  intro hn
  have hk := Option.map_eq_none_iff.mp h
  rw [← Nat.add_sub_of_le hi, ← List.getElem?_drop] at hn
  have hf := List.findIdx?_eq_none_iff.mp hk _ (List.mem_of_getElem? hn)
  cases hf

theorem grow_some (h : grow table size obj = some tmp) :
    tmp.length = size.toNat ∧ tmp[table.length]? = some (some obj) ∧
      ∀ i < table.length, tmp[i]? = table[i]? := by
  rw [grow] at h
  split at h
  · next hs =>
    cases h
    refine ⟨?_, ?_, fun i hi => List.getElem?_append_left hi⟩
    · rw [List.length_append, List.length_cons, List.length_replicate]
      omega
    · rw [List.getElem?_append_right (Nat.le_refl _), Nat.sub_self]
      rfl
  · cases h

/-- The states that calls lead to, with what is registered under each handle, when every handle
given to `deRegisterObject` meets `ok`. -/
inductive Reached (ok : Nat → Prop) : ObjectRepository α → (Nat → Option α) → Prop where
  | init : Reached ok .init (fun _ => none)
  | registerNull (h : Reached ok s live) (hr : s.registerObject none = some (ret, s')) :
    Reached ok s' live
  | registerObject (h : Reached ok s live) (hr : s.registerObject (some obj) = some (ret, s')) :
    Reached ok s' (Function.update live ret (some obj))
  | deRegisterObject (h : Reached ok s live) (hk : ok handle)
    (hr : s.deRegisterObject handle = some (out, s')) :
    Reached ok s' (Function.update live handle none)

/-- `firstFree` is a handle no object is registered under, though its entry may not be null. -/
structure Inv (s : ObjectRepository α) (live : Nat → Option α) : Prop where
  size : s.maxRepositoryObjects.toNat = s.objectRepository.length
  bound : s.objectRepository.length < 2 ^ 31
  two_le : 2 ≤ s.firstFree
  firstFree_lt : s.firstFree < s.objectRepository.length
  firstFree_free : live s.firstFree = none
  get : live h = some o → 2 ≤ h ∧ s.getRegisteredObject h = some (some o)

variable {s s' : ObjectRepository α} {live : Nat → Option α}

theorem inv_init : Inv (α := α) .init (fun _ => none) where
  size := by
    rw [init, List.length_replicate]
    rfl
  bound := by
    rw [init, List.length_replicate]
    decide
  two_le := Nat.le_refl 2
  firstFree_lt := by
    rw [init, List.length_replicate]
    exact (by decide : 2 < 256)
  firstFree_free := rfl
  get := nofun

theorem Inv.deRegisterObject (hi : Inv s live) (hk : 2 ≤ handle)
    (hr : s.deRegisterObject handle = some (out, s')) :
    Inv s' (Function.update live handle none) := by
  obtain ⟨x, hx, he⟩ := Option.map_eq_some_iff.mp hr
  cases he
  have hlt := (List.getElem?_eq_some_iff.mp hx).1
  have hf := hi.firstFree_lt
  have h2 := hi.two_le
  refine ⟨?_, ?_, ?_, ?_, ?_, ?_⟩
  · rw [List.length_set]
    exact hi.size
  · rw [List.length_set]
    exact hi.bound
  · dsimp only
    split <;> assumption
  · rw [List.length_set]
    dsimp only
    split <;> assumption
  · dsimp only
    split
    · exact Function.update_self ..
    · by_cases he : s.firstFree = handle
      · rw [he]
        exact Function.update_self ..
      · rw [Function.update_of_ne he]
        exact hi.firstFree_free
  · intro h o ho
    by_cases he : h = handle
    · subst he
      rw [Function.update_self] at ho
      cases ho
    · rw [Function.update_of_ne he] at ho
      obtain ⟨hh, hg⟩ := hi.get ho
      refine ⟨hh, ?_⟩
      rw [getRegisteredObject, List.getElem?_set_ne (Ne.symm he)]
      exact hg

/-- The two ways `registerObject` comes back. -/
theorem registerObject_cases (hr : s.registerObject (some obj) = some (ret, s')) :
    s.firstFree < s.objectRepository.length ∧
    ((ret = s.firstFree ∧ s' = { s with
        objectRepository := s.objectRepository.set s.firstFree (some obj)
        firstFree := s'.firstFree } ∧ s.firstFree ≤ s'.firstFree ∧
        (s.objectRepository.set s.firstFree (some obj))[s'.firstFree]? = some none) ∨
      ret = s.objectRepository.length ∧ s'.firstFree = s.firstFree ∧
        s'.maxRepositoryObjects = s.maxRepositoryObjects * 2 ∧
        grow (s.objectRepository.set s.firstFree (some obj)) (s.maxRepositoryObjects * 2) obj =
          some s'.objectRepository) := by
  rw [registerObject] at hr
  split at hr
  · next hlt =>
    refine ⟨hlt, ?_⟩
    dsimp only at hr
    split at hr
    · next i hn =>
      cases hr
      obtain ⟨hle, hnull⟩ := nextNull_some hn
      exact .inl ⟨rfl, rfl, hle, hnull⟩
    · obtain ⟨tmp, ht, he⟩ := Option.map_eq_some_iff.mp hr
      cases he
      exact .inr ⟨List.length_set .., rfl, rfl, ht⟩
  · cases hr

/-- An object at a handle that was free leaves the others where they are. -/
theorem get_update (hg : ∀ h o, live h = some o → 2 ≤ h ∧ s.getRegisteredObject h = some (some o))
    (h2 : 2 ≤ ret) (hs : s'.getRegisteredObject ret = some (some obj))
    (hk : ∀ h o, live h = some o → h ≠ ret → s'.getRegisteredObject h = s.getRegisteredObject h)
    (h : Function.update live ret (some obj) i = some o) :
    2 ≤ i ∧ s'.getRegisteredObject i = some (some o) := by
  by_cases he : i = ret
  · subst he
    rw [Function.update_self] at h
    cases h
    exact ⟨h2, hs⟩
  · rw [Function.update_of_ne he] at h
    obtain ⟨hi, ho⟩ := hg i o h
    exact ⟨hi, (hk i o h he).trans ho⟩

/-- A new handle is none of those in use, and takes the object without touching the others. -/
theorem Inv.registerObject (hi : Inv s live) (hr : s.registerObject (some obj) = some (ret, s')) :
    2 ≤ ret ∧ live ret = none ∧ Inv s' (Function.update live ret (some obj)) := by
  have h2 := hi.two_le
  obtain ⟨hlt, ⟨rfl, he, hle, hnull⟩ | ⟨rfl, hf, hm, hg⟩⟩ := registerObject_cases hr
  · have hself : s'.getRegisteredObject s.firstFree = some (some obj) := by
      rw [getRegisteredObject, he, List.getElem?_set_self hlt]
    have hne : s'.firstFree ≠ s.firstFree := by
      intro h
      rw [h, List.getElem?_set_self hlt] at hnull
      cases hnull
    refine ⟨h2, hi.firstFree_free, ?_, ?_, Nat.le_trans h2 hle, ?_, ?_, ?_⟩
    · rw [he, List.length_set]
      exact hi.size
    · rw [he, List.length_set]
      exact hi.bound
    · rw [he]
      exact (List.getElem?_eq_some_iff.mp hnull).1
    · rw [Function.update_of_ne hne]
      cases hl : live s'.firstFree with
      | none => rfl
      | some o =>
        rw [List.getElem?_set_ne (Ne.symm hne)] at hnull
        cases hnull.symm.trans (hi.get hl).2
    · refine get_update (fun h o => hi.get) h2 hself fun h o _ hn => ?_
      rw [getRegisteredObject, he, List.getElem?_set_ne (Ne.symm hn)]
      rfl
  · obtain ⟨hlen, hlast, hold⟩ := grow_some hg
    rw [List.length_set] at hlast hold
    have hsize : 0 ≤ (s.maxRepositoryObjects * 2).toInt ∧
        s.objectRepository.length < (s.maxRepositoryObjects * 2).toNat := by
      rw [grow] at hg
      split at hg
      · next h =>
        rw [List.length_set] at h
        exact h
      · cases hg
    have hfresh : live s.objectRepository.length = none := by
      cases hl : live s.objectRepository.length with
      | none => rfl
      | some o =>
        have hb := (List.getElem?_eq_some_iff.mp (hi.get hl).2).1
        exact absurd hb (Nat.lt_irrefl _)
    refine ⟨by omega, hfresh, ?_, ?_, ?_, ?_, ?_, ?_⟩
    · rw [hm, hlen]
    · rw [hlen]
      have := hsize.1
      rw [BitVec.toInt_eq_toNat_cond] at this
      omega
    · rw [hf]
      exact h2
    · rw [hf, hlen]
      exact Nat.lt_trans hlt hsize.2
    · rw [hf, Function.update_of_ne (Nat.ne_of_lt hlt)]
      exact hi.firstFree_free
    · refine get_update (fun h o => hi.get) (by omega) hlast fun h o hl hn => ?_
      have hb := (List.getElem?_eq_some_iff.mp (hi.get hl).2).1
      rw [getRegisteredObject, hold h hb, List.getElem?_set_ne]
      · rfl
      · intro hh
        rw [← hh, hi.firstFree_free] at hl
        cases hl

theorem Reached.inv (h : Reached (2 ≤ ·) s live) : Inv s live := by
  induction h with
  | init => exact inv_init
  | registerNull _ hr ih =>
    cases hr
    exact ih
  | registerObject _ hr ih => exact (ih.registerObject hr).2.2
  | deRegisterObject _ hk hr ih => exact ih.deRegisterObject hk hr

/-- There is a null entry for the next hint, or the table can be doubled. -/
def HasRoom (s : ObjectRepository α) : Prop :=
  (∃ i > s.firstFree, s.getRegisteredObject i = some none) ∨ s.objectRepository.length < 2 ^ 30

theorem Inv.registerObject_returns (hi : Inv s live) (hs : s.HasRoom) (obj : α) :
    ∃ ret s', s.registerObject (some obj) = some (ret, s') := by
  rw [ObjectRepository.registerObject, if_pos hi.firstFree_lt]
  dsimp only
  cases hn : nextNull (s.objectRepository.set s.firstFree (some obj)) s.firstFree with
  | some i => exact ⟨_, _, rfl⟩
  | none =>
    rcases hs with ⟨i, hlt, hnull⟩ | hlt
    · refine absurd ?_ (nextNull_none hn (Nat.le_of_lt hlt))
      rw [List.getElem?_set_ne (Nat.ne_of_lt hlt)]
      exact hnull
    · have hsz := hi.size
      have hf := hi.firstFree_lt
      have h2 := hi.two_le
      have hmul : (s.maxRepositoryObjects * 2).toNat = 2 * s.objectRepository.length := by
        have h2 : (2 : Word).toNat = 2 := rfl
        rw [BitVec.toNat_mul, hsz, h2, Nat.mod_eq_of_lt (by omega), Nat.mul_comm]
      rw [grow, if_pos]
      · exact ⟨_, _, rfl⟩
      · rw [List.length_set, hmul]
        refine ⟨?_, by omega⟩
        rw [BitVec.toInt_eq_toNat_cond, hmul, if_pos (by omega)]
        omega

end ObjectRepository

end Cibyl
