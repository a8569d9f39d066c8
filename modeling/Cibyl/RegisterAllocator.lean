import Cibyl.Mips
import Mathlib.Data.Fintype.Card

namespace Cibyl
set_option autoImplicit true

/-- `mips_to_local` after `setAllocation`; `none` is -1. The table of statics is never filled. -/
structure RegisterAllocator where
  regToLocal : Reg → Option Nat
  numberOfLocals : Nat
  zero_none : regToLocal Reg.zero = none
  injective : regToLocal r = some n → regToLocal r' = some n → r = r'

/-- A `registerUsage` vector; `addToRegisterUsage` never counts register zero. -/
structure RegisterUsage where
  count : Reg → Nat
  count_zero : count Reg.zero = 0

namespace RegisterAllocator

def regIsAllocated (ra : RegisterAllocator) (r : Reg) : Bool := (ra.regToLocal r).isSome

/-- Register `sorted[i]` is kept in local `i`. -/
def ofSorted (sorted : List Reg) (hz : Reg.zero ∉ sorted) : RegisterAllocator where
  regToLocal r := sorted.idxOf? r
  numberOfLocals := sorted.length
  zero_none := List.idxOf?_eq_none_iff.mpr hz
  injective := by
    intro r n r' h h'
    obtain ⟨hi, hb, _⟩ := List.idxOf?_eq_some_iff.mp h
    obtain ⟨_, hb', _⟩ := List.idxOf?_eq_some_iff.mp h'
    exact hb.symm.trans hb'

/-- The registers `setAllocation` puts first: those a caller may pass. -/
def initialRegisters : List Reg := [Reg.sp, Reg.fna, Reg.a0, Reg.a1, Reg.a2, Reg.a3]

/-- `usage[reg] = 0`. -/
def clear (usage : Reg → Nat) (reg : Reg) : Reg → Nat := fun i => if i = reg then 0 else usage i

/-- One step of the search for the most used register. -/
def largestStep (usage : Reg → Nat) (p : Nat × Reg) (i : Reg) : Nat × Reg :=
  if 0 < usage i ∧ p.1 < usage i then (usage i, i) else p

def largest (usage : Reg → Nat) : Nat × Reg :=
  (List.finRange 86).foldl (largestStep usage) (0, Reg.zero)

/-- The `do ... while (largest != 0)` loop, which cannot find more registers than there are. -/
def allocateRest : Nat → (Reg → Nat) → List Reg
  | 0, _ => []
  | n + 1, usage =>
    if (largest usage).1 ≠ 0 then
      (largest usage).2 :: allocateRest n (clear usage (largest usage).2)
    else []

def initial (usage : Reg → Nat) : List Reg := initialRegisters.filter (fun r => 0 < usage r)

def sorted (usage : Reg → Nat) : List Reg :=
  initial usage ++ allocateRest 86 ((initial usage).foldl clear usage)

theorem foldl_largestStep (usage : Reg → Nat) (l : List Reg) (p : Nat × Reg)
    (hp : p.1 ≠ 0 → usage p.2 = p.1) :
    let q := l.foldl (largestStep usage) p
    (q.1 ≠ 0 → usage q.2 = q.1) ∧ p.1 ≤ q.1 ∧ ∀ r ∈ l, usage r ≤ q.1 := by
  induction l generalizing p with
  | nil => exact ⟨hp, Nat.le_refl _, fun r hr => nomatch hr⟩
  | cons i l ih =>
    have hs : ((largestStep usage p i).1 ≠ 0 →
        usage (largestStep usage p i).2 = (largestStep usage p i).1) ∧
        p.1 ≤ (largestStep usage p i).1 ∧ usage i ≤ (largestStep usage p i).1 := by
      rw [largestStep]
      split
      · next h => exact ⟨fun _ => rfl, Nat.le_of_lt h.2, Nat.le_refl _⟩
      · next h => exact ⟨hp, Nat.le_refl _, by omega⟩
    obtain ⟨h₁, h₂, h₃⟩ := hs
    obtain ⟨g₁, g₂, g₃⟩ := ih _ h₁
    refine ⟨g₁, Nat.le_trans h₂ g₂, ?_⟩
    intro r hr
    rcases List.mem_cons.mp hr with rfl | hr
    · exact Nat.le_trans h₃ g₂
    · exact g₃ r hr

theorem usage_largest (h : (largest usage).1 ≠ 0) : usage (largest usage).2 = (largest usage).1 :=
  (foldl_largestStep usage _ _ (fun h => absurd rfl h)).1 h

theorem le_largest (usage : Reg → Nat) (r : Reg) : usage r ≤ (largest usage).1 :=
  (foldl_largestStep usage _ _ (fun h => absurd rfl h)).2.2 r (List.mem_finRange r)

theorem clear_self (usage : Reg → Nat) (r : Reg) : clear usage r r = 0 := if_pos rfl

theorem clear_ne (usage : Reg → Nat) (h : i ≠ r) : clear usage r i = usage i := if_neg h

theorem pos_of_clear_pos (h : 0 < clear usage r i) : i ≠ r ∧ 0 < usage i := by
  by_cases hi : i = r
  · rw [hi, clear_self] at h
    exact absurd h (Nat.lt_irrefl 0)
  · rw [clear_ne usage hi] at h
    exact ⟨hi, h⟩

theorem pos_of_mem_allocateRest (h : r ∈ allocateRest n usage) : 0 < usage r := by
  induction n generalizing usage with
  | zero => cases h
  | succ n ih =>
    rw [allocateRest] at h
    split at h
    · next hn =>
      rcases List.mem_cons.mp h with rfl | h
      · rw [usage_largest hn]
        exact Nat.pos_of_ne_zero hn
      · exact (pos_of_clear_pos (ih h)).2
    · cases h

theorem nodup_allocateRest (n : Nat) (usage : Reg → Nat) : (allocateRest n usage).Nodup := by
  induction n generalizing usage with
  | zero => exact .nil
  | succ n ih =>
    rw [allocateRest]
    split
    · refine List.nodup_cons.mpr ⟨?_, ih _⟩
      intro hm
      exact (pos_of_clear_pos (pos_of_mem_allocateRest hm)).1 rfl
    · exact .nil

def used (usage : Reg → Nat) : Finset Reg := Finset.univ.filter (fun r => 0 < usage r)

theorem mem_used : r ∈ used usage ↔ 0 < usage r := by
  simp only [used, Finset.mem_filter, Finset.mem_univ, true_and]

theorem used_clear (usage : Reg → Nat) (r : Reg) : used (clear usage r) = (used usage).erase r := by
  ext i
  rw [Finset.mem_erase, mem_used, mem_used]
  constructor
  · intro h
    exact pos_of_clear_pos h
  · rintro ⟨hi, h⟩
    rwa [clear_ne usage hi]

/-- With as many rounds as there are used registers, the loop finds them all. -/
theorem mem_allocateRest (hc : (used usage).card ≤ n) (h : 0 < usage r) :
    r ∈ allocateRest n usage := by
  induction n generalizing usage with
  | zero =>
    have he := Finset.card_eq_zero.mp (Nat.le_zero.mp hc)
    have hr := mem_used.mpr h
    rw [he] at hr
    exact absurd hr (Finset.notMem_empty r)
  | succ n ih =>
    have hn : (largest usage).1 ≠ 0 := Nat.ne_of_gt (Nat.lt_of_lt_of_le h (le_largest usage r))
    rw [allocateRest, if_pos hn]
    by_cases hr : r = (largest usage).2
    · exact hr ▸ List.mem_cons_self ..
    · refine List.mem_cons_of_mem _ (ih ?_ ?_)
      · have hm : (largest usage).2 ∈ used usage := by
          rw [mem_used, usage_largest hn]
          exact Nat.pos_of_ne_zero hn
        rw [used_clear, Finset.card_erase_of_mem hm]
        omega
      · rwa [clear_ne usage hr]

theorem foldl_clear_pos (l : List Reg) (usage : Reg → Nat) (r : Reg) :
    0 < l.foldl clear usage r ↔ r ∉ l ∧ 0 < usage r := by
  induction l generalizing usage with
  | nil => exact ⟨fun h => ⟨List.not_mem_nil, h⟩, fun h => h.2⟩
  | cons i l ih =>
    rw [List.foldl_cons, ih, List.mem_cons, not_or]
    constructor
    · rintro ⟨hl, h⟩
      obtain ⟨hi, hp⟩ := pos_of_clear_pos h
      exact ⟨⟨hi, hl⟩, hp⟩
    · rintro ⟨⟨hi, hl⟩, hp⟩
      exact ⟨hl, by rwa [clear_ne usage hi]⟩

theorem mem_initial : r ∈ initial usage ↔ r ∈ initialRegisters ∧ 0 < usage r := by
  rw [initial, List.mem_filter, decide_eq_true_eq]

/-- `setAllocation` keeps exactly the used registers. -/
theorem mem_sorted : r ∈ sorted usage ↔ 0 < usage r := by
  rw [sorted, List.mem_append]
  constructor
  · rintro (h | h)
    · exact (mem_initial.mp h).2
    · exact ((foldl_clear_pos _ usage r).mp (pos_of_mem_allocateRest h)).2
  · intro h
    by_cases hi : r ∈ initial usage
    · exact .inl hi
    · refine .inr (mem_allocateRest ?_ ((foldl_clear_pos _ usage r).mpr ⟨hi, h⟩))
      exact Nat.le_trans (Finset.card_le_univ _) (Nat.le_of_eq (Fintype.card_fin 86))

theorem nodup_sorted (usage : Reg → Nat) : (sorted usage).Nodup := by
  refine List.nodup_append.mpr ⟨?_, nodup_allocateRest _ _, ?_⟩
  · exact List.Nodup.filter _ (by decide)
  · rintro r hi r' hr rfl
    exact ((foldl_clear_pos _ usage r).mp (pos_of_mem_allocateRest hr)).1 hi

def setAllocation (u : RegisterUsage) : RegisterAllocator :=
  ofSorted (sorted u.count) (fun h => Nat.ne_of_gt (mem_sorted.mp h) u.count_zero)

theorem setAllocation_isAllocated (u : RegisterUsage) (r : Reg) :
    (setAllocation u).regIsAllocated r = true ↔ 0 < u.count r :=
  List.isSome_idxOf?.trans mem_sorted

end RegisterAllocator

end Cibyl
