import Cibyl.Program

namespace Cibyl
set_option autoImplicit true

/-- The functions an indirect call can reach, sorted by address, with the map of their
addresses. -/
structure CallTable where
  functions : List Function
  functionTable : Word → Option Function
  sorted : functions.Pairwise (fun f g => f.address.toNat < g.address.toNat)
  table : ∀ addr fn, functionTable addr = some fn ↔ fn ∈ functions ∧ fn.address = addr

namespace CallTable

/-- The correct position is before the first function with a larger address. -/
def insertFunction (fn : Function) : List Function → List Function
  | [] => [fn]
  | f :: fs => if f.address.toNat > fn.address.toNat then fn :: f :: fs
    else f :: insertFunction fn fs

theorem mem_insertFunction : f ∈ insertFunction fn fs ↔ f = fn ∨ f ∈ fs := by
  induction fs with
  | nil => exact List.mem_singleton.trans (or_iff_left List.not_mem_nil).symm
  | cons g fs ih =>
    rw [insertFunction]
    split
    · exact List.mem_cons
    · rw [List.mem_cons, ih, List.mem_cons, or_left_comm]

theorem insertFunction_sorted
    (h : fs.Pairwise (fun f g : Function => f.address.toNat < g.address.toNat))
    (hn : ∀ f ∈ fs, f.address ≠ fn.address) :
    (insertFunction fn fs).Pairwise (fun f g => f.address.toNat < g.address.toNat) := by
  induction fs with
  | nil => exact List.pairwise_singleton _ _
  | cons g fs ih =>
    obtain ⟨hg, hs⟩ := List.pairwise_cons.mp h
    rw [insertFunction]
    split
    · next hlt =>
      refine List.pairwise_cons.mpr ⟨?_, h⟩
      intro f hf
      rcases List.mem_cons.mp hf with rfl | hf
      · exact hlt
      · exact Nat.lt_trans hlt (hg f hf)
    · next hle =>
      refine List.pairwise_cons.mpr ⟨?_, ih hs (fun f hf => hn f (List.mem_cons_of_mem _ hf))⟩
      intro f hf
      rcases mem_insertFunction.mp hf with rfl | hf
      · refine Nat.lt_of_le_of_ne (Nat.le_of_not_lt hle) ?_
        intro he
        exact hn g (List.mem_cons_self ..) (BitVec.eq_of_toNat_eq he)
      · exact hg f hf

def empty : CallTable := ⟨[], fun _ => none, .nil, fun _ _ => ⟨nofun, nofun⟩⟩

/-- A function whose address is in the table is not inserted again. -/
def addFunction (t : CallTable) (fn : Function) : CallTable :=
  if h : (t.functionTable fn.address).isSome = true then t
  else
    have hn : ∀ f ∈ t.functions, f.address ≠ fn.address :=
      fun f hf ha => h (Option.isSome_of_mem ((t.table _ f).mpr ⟨hf, ha⟩))
    { functions := insertFunction fn t.functions
      functionTable := fun addr => if addr = fn.address then some fn else t.functionTable addr
      sorted := insertFunction_sorted t.sorted hn
      table := by
        intro addr f
        rw [mem_insertFunction]
        split
        · next ha =>
          subst ha
          constructor
          · intro hf
            cases hf
            exact ⟨.inl rfl, rfl⟩
          · rintro ⟨rfl | hf, ha⟩
            · rfl
            · exact absurd ha (hn f hf)
        · next ha =>
          rw [t.table]
          constructor
          · rintro ⟨hf, rfl⟩
            exact ⟨.inr hf, rfl⟩
          · rintro ⟨rfl | hf, rfl⟩
            · exact absurd rfl ha
            · exact ⟨hf, rfl⟩ }

theorem mem_addFunction (t : CallTable) (fn : Function) : f ∈ (t.addFunction fn).functions ↔
    f ∈ t.functions ∨ f = fn ∧ ∀ g ∈ t.functions, g.address ≠ fn.address := by
  rw [addFunction]
  split
  · next h =>
    refine (or_iff_left ?_).symm
    rintro ⟨-, hn⟩
    obtain ⟨g, hg⟩ := Option.isSome_iff_exists.mp h
    obtain ⟨hm, ha⟩ := (t.table _ g).mp hg
    exact hn g hm ha
  · next h =>
    rw [mem_insertFunction, or_comm]
    refine or_congr_right (and_iff_left ?_).symm
    intro g hg ha
    exact h (Option.isSome_of_mem ((t.table _ g).mpr ⟨hg, ha⟩))

theorem address_addFunction (t : CallTable) (fn : Function) :
    ∃ f ∈ (t.addFunction fn).functions, f.address = fn.address := by
  by_cases h : ∃ g ∈ t.functions, g.address = fn.address
  · obtain ⟨g, hg, ha⟩ := h
    exact ⟨g, (t.mem_addFunction fn).mpr (.inl hg), ha⟩
  · refine ⟨fn, (t.mem_addFunction fn).mpr (.inr ⟨rfl, ?_⟩), rfl⟩
    intro g hg ha
    exact h ⟨g, hg, ha⟩

theorem subset_addFunction (t : CallTable) (fn : Function) :
    t.functions ⊆ (t.addFunction fn).functions :=
  fun _ hf => (t.mem_addFunction fn).mpr (.inl hf)

/-- After any calls of `addFunction`, the list holds the first function added for each address. -/
theorem mem_addAll (t : CallTable) (fns : List Function) :
    f ∈ (fns.foldl addFunction t).functions ↔ f ∈ t.functions ∨
      fns.find? (fun g => g.address == f.address) = some f ∧
        ∀ g ∈ t.functions, g.address ≠ f.address := by
  induction fns generalizing t with
  | nil =>
    rw [List.foldl_nil, List.find?_nil]
    exact (or_iff_left (fun h => nomatch h.1)).symm
  | cons fn fns ih =>
    rw [List.foldl_cons, ih, mem_addFunction, List.find?_cons]
    by_cases ha : fn.address = f.address
    · have hb : (fn.address == f.address) = true := beq_iff_eq.mpr ha
      obtain ⟨g, hg, hga⟩ := t.address_addFunction fn
      have hno : ¬ ∀ g ∈ (t.addFunction fn).functions, g.address ≠ f.address :=
        fun h => h g hg (hga.trans ha)
      rw [hb, or_iff_left (fun h => hno h.2)]
      refine or_congr_right ?_
      rw [ha, Option.some.injEq, eq_comm]
    · have hb : (fn.address == f.address) = false := beq_eq_false_iff_ne.mpr ha
      have hne : f ≠ fn := fun h => ha (h ▸ rfl)
      have hiff : (∀ g ∈ (t.addFunction fn).functions, g.address ≠ f.address) ↔
          ∀ g ∈ t.functions, g.address ≠ f.address := by
        constructor
        · intro h g hg
          exact h g (t.subset_addFunction fn hg)
        · intro h g hg
          rcases (t.mem_addFunction fn).mp hg with hg | ⟨rfl, -⟩
          · exact h g hg
          · exact ha
      have hfn : ¬ (f = fn ∧ ∀ g ∈ t.functions, g.address ≠ fn.address) := fun h => hne h.1
      rw [hb, hiff, or_iff_left hfn]

theorem nodup (t : CallTable) : t.functions.Nodup :=
  t.sorted.imp (fun {_ _} h he => absurd (congrArg (fun f => f.address.toNat) he) (Nat.ne_of_lt h))

end CallTable

end Cibyl
