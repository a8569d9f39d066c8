import Cibyl.Library.Worklist
import Mathlib.Data.Finset.Basic
import Mathlib.Data.Multiset.AddSub

namespace Cibyl
set_option autoImplicit true

open Relation Worklist

/-- The files that there are, with their lines. -/
abbrev Files := List (String × List String)

def readFile (files : Files) (name : String) : List String := (files.lookup name).getD []

def isSpace (c : Char) : Bool := c.toNat == 32 || (9 ≤ c.toNat && c.toNat ≤ 13)

def strip (line : String) : String :=
  String.ofList (((line.toList.dropWhile isSpace).reverse.dropWhile isSpace).reverse)

def dependsFile (curDir syscallDir : String) : String := curDir ++ "/" ++ syscallDir ++ "/depends"

/-- The sets still to be looked at, those found, and the place of the inner loop in the first. -/
structure SyscallQueue where
  unresolved : List String
  syscallSets : List String
  index : Nat
  deriving DecidableEq, Repr

namespace SyscallQueue

def addDependency (q : SyscallQueue) (line : String) : SyscallQueue :=
  if line ∈ q.unresolved then q
  else { q with unresolved := line :: q.unresolved, syscallSets := line :: q.syscallSets }

/-- What the file of one directory adds; the set is not to be looked at again. -/
def addDirectory (files : Files) (syscallDir : String) (q : SyscallQueue) (curDir : String) :
    SyscallQueue :=
  let q := (readFile files (dependsFile curDir syscallDir)).foldl
    (fun q line => q.addDependency (strip line)) q
  { q with unresolved := q.unresolved.erase syscallDir }

def resolve (files : Files) (dirs : List String) (q : SyscallQueue) (syscallDir : String) :
    SyscallQueue := dirs.foldl (addDirectory files syscallDir) q

/-- The next set of the inner loop, or the start of another inner loop. -/
def step (files : Files) (dirs : List String) (q : SyscallQueue) : Option SyscallQueue :=
  match q.unresolved[q.index]? with
  | some syscallDir => some (resolve files dirs { q with index := q.index + 1 } syscallDir)
  | none => if q.unresolved = [] then none else some { q with index := 0 }

def run (files : Files) (dirs : List String) : Nat → SyscallQueue → Option SyscallQueue
  | 0, _ => none
  | fuel + 1, q =>
    match step files dirs q with
    | none => some q
    | some q => run files dirs fuel q

end SyscallQueue

open SyscallQueue in
/-- Fewer than `fuel` turns are taken. -/
def generateSyscallSetDependencies (files : Files) (fuel : Nat) (dirs syscallSets : List String) :
    Option (Finset String) :=
  (run files dirs fuel ⟨syscallSets, syscallSets, 0⟩).map (fun q => q.syscallSets.toFinset)

/-- A line of a `depends` file. -/
def Depends (files : Files) (dirs : List String) (x y : String) : Prop :=
  ∃ curDir ∈ dirs, ∃ line ∈ readFile files (dependsFile curDir x), strip line = y

/-- The requested sets and all that they reach through `depends`. -/
def Closure (files : Files) (dirs syscallSets : List String) (out : Finset String) : Prop :=
  ∀ x, x ∈ out ↔ ∃ r ∈ syscallSets, ReflTransGen (Depends files dirs) r x

theorem dependsFile_injective (curDir : String) : Function.Injective (dependsFile curDir) := by
  intro x y h
  rw [dependsFile, dependsFile, String.append_left_inj, String.append_right_inj] at h
  exact h

theorem depends_finite (files : Files) (dirs : List String) :
    {x | ∃ y, Depends files dirs x y}.Finite := by
  have h : (⋃ curDir ∈ dirs, Set.preimage (dependsFile curDir)
      {name | name ∈ files.map Prod.fst}).Finite :=
    Set.Finite.biUnion (List.finite_toSet dirs) fun curDir _ =>
      (List.finite_toSet _).preimage (dependsFile_injective curDir).injOn
  refine h.subset ?_
  rintro x ⟨y, curDir, hd, line, hl, -⟩
  refine Set.mem_biUnion hd ?_
  rw [readFile] at hl
  cases hf : files.lookup (dependsFile curDir x) with
  | none =>
    rw [hf] at hl
    cases hl
  | some lines =>
    obtain ⟨before, after, hfiles, -⟩ := List.lookup_eq_some_iff.mp hf
    refine List.mem_map.mpr ⟨(dependsFile curDir x, lines), ?_, rfl⟩
    rw [hfiles]
    exact List.mem_append_right _ (List.mem_cons_self ..)

namespace SyscallQueue

variable {files : Files} {dirs : List String} {q : SyscallQueue} {x : String}

/-- What lines add: each name that is not pending, once. -/
theorem foldl_addDependency (names : List String) (q : SyscallQueue) :
    ∃ new, names.foldl addDependency q =
        ⟨new ++ q.unresolved, new ++ q.syscallSets, q.index⟩ ∧ new.Nodup ∧
      (∀ y ∈ new, y ∈ names ∧ y ∉ q.unresolved) ∧ ∀ y ∈ names, y ∈ new ∨ y ∈ q.unresolved := by
  induction names generalizing q with
  | nil => exact ⟨[], rfl, List.nodup_nil, nofun, nofun⟩
  | cons name names ih =>
    rw [List.foldl_cons, addDependency]
    by_cases hm : name ∈ q.unresolved
    · obtain ⟨new, hq, hd, hin, hall⟩ := ih q
      rw [if_pos hm]
      refine ⟨new, hq, hd, fun y hy => ⟨List.mem_cons_of_mem _ (hin y hy).1, (hin y hy).2⟩, ?_⟩
      exact List.forall_mem_cons.mpr ⟨.inr hm, hall⟩
    · obtain ⟨new, hq, hd, hin, hall⟩ := ih
        { q with unresolved := name :: q.unresolved, syscallSets := name :: q.syscallSets }
      rw [if_neg hm, hq]
      refine ⟨new ++ [name], ?_, ?_, ?_, ?_⟩
      · simp only [List.append_assoc, List.singleton_append]
      · refine hd.append (List.nodup_singleton name) fun y hy hn => ?_
        cases List.mem_singleton.mp hn
        exact (hin name hy).2 (List.mem_cons_self ..)
      · intro y hy
        rcases List.mem_append.mp hy with hy | hy
        · exact ⟨List.mem_cons_of_mem _ (hin y hy).1,
            fun h => (hin y hy).2 (List.mem_cons_of_mem _ h)⟩
        · cases List.mem_singleton.mp hy
          exact ⟨List.mem_cons_self .., hm⟩
      · refine List.forall_mem_cons.mpr ⟨.inl (by simp), fun y hy => ?_⟩
        rcases hall y hy with h | h
        · exact .inl (List.mem_append_left _ h)
        · rcases List.mem_cons.mp h with rfl | h
          · exact .inl (by simp)
          · exact .inr h

/-- What a look at a set changes: `new` is found and pending, the set itself is taken away `k`
times. -/
structure Looked (files : Files) (dirs : List String) (x : String) (q q' : SyscallQueue)
    (new : List String) (k : Nat) : Prop where
  sets : q'.syscallSets = new ++ q.syscallSets
  index : q'.index = q.index
  pending : (q'.unresolved : Multiset String) + k • {x} = q.unresolved + new
  found : ∀ y ∈ new, Depends files dirs x y
  all : ∀ y, Depends files dirs x y → y ∈ new ∨ y ∈ q.unresolved ∨ y = x
  count : new.count x ≤ k
  taken : x ∈ q.unresolved → dirs ≠ [] → new.count x < k

section

variable {q₁ q₂ : SyscallQueue} {new : List String} {k : Nat}

/-- What is pending was so before or is new, and all of it stays so but the set looked at. -/
theorem Looked.mem (h : Looked files dirs x q q₁ new k) :
    (∀ y ∈ q₁.unresolved, y ∈ q.unresolved ∨ y ∈ new) ∧
      ∀ y, y ∈ q.unresolved ∨ y ∈ new → y ∈ q₁.unresolved ∨ y = x := by
  have hmem (y : String) := congrArg (y ∈ ·) h.pending
  simp only [Multiset.mem_add, Multiset.mem_coe, eq_iff_iff] at hmem
  refine ⟨fun y hy => (hmem y).mp (.inl hy), fun y hy => ((hmem y).mpr hy).imp_right fun hk => ?_⟩
  exact Multiset.mem_singleton.mp (Multiset.mem_of_mem_nsmul hk)

theorem addDirectory_looked (files : Files) (curDir x : String) (q : SyscallQueue) :
    ∃ new k, Looked files [curDir] x q (addDirectory files x q curDir) new k := by
  obtain ⟨new, hq, hd, hin, hall⟩ :=
    foldl_addDependency ((readFile files (dependsFile curDir x)).map strip) q
  rw [List.foldl_map] at hq
  have hdep (y : String) :
      Depends files [curDir] x y ↔ y ∈ (readFile files (dependsFile curDir x)).map strip := by
    rw [Depends, List.mem_map]
    simp
  refine ⟨new, if x ∈ new ++ q.unresolved then 1 else 0, ?_, ?_, ?_, ?_, ?_, ?_, ?_⟩
  · rw [addDirectory, hq]
  · rw [addDirectory, hq]
  · rw [addDirectory, hq]
    dsimp only
    rw [← Multiset.coe_erase, add_comm (q.unresolved : Multiset String), Multiset.coe_add]
    split
    · next hx =>
      rw [one_nsmul, add_comm, Multiset.singleton_add]
      exact Multiset.cons_erase hx
    · next hx =>
      rw [zero_nsmul, add_zero]
      exact Multiset.erase_of_notMem hx
  · exact fun y hy => (hdep y).mpr (hin y hy).1
  · exact fun y hy => (hall y ((hdep y).mp hy)).imp_right .inl
  · split
    · exact List.nodup_iff_count_le_one.mp hd x
    · next hx =>
      exact Nat.le_of_eq (List.count_eq_zero.mpr fun h => hx (List.mem_append_left _ h))
  · intro hx _
    rw [if_pos (List.mem_append_right _ hx), List.count_eq_zero.mpr fun h => (hin x h).2 hx]
    exact Nat.one_pos

theorem Looked.trans {curDir : String} {new' : List String} {k' : Nat}
    (h : Looked files [curDir] x q q₁ new k) (h' : Looked files dirs x q₁ q₂ new' k') :
    Looked files (curDir :: dirs) x q q₂ (new' ++ new) (k + k') := by
  have hdep (y : String) : Depends files (curDir :: dirs) x y ↔
      Depends files [curDir] x y ∨ Depends files dirs x y := by
    simp [Depends]
  refine ⟨?_, h'.index.trans h.index, ?_, ?_, ?_, ?_, ?_⟩
  · rw [h'.sets, h.sets, List.append_assoc]
  · rw [add_nsmul, add_comm (k • _), ← add_assoc, h'.pending, add_right_comm, h.pending, add_assoc,
      Multiset.coe_add, Multiset.coe_add, Multiset.coe_add, Multiset.coe_eq_coe]
    exact List.Perm.append_left _ List.perm_append_comm
  · intro y hy
    exact (hdep y).mpr ((List.mem_append.mp hy).symm.imp (h.found y) (h'.found y))
  · intro y hy
    rw [List.mem_append]
    rcases (hdep y).mp hy with hy | hy
    · exact (h.all y hy).imp_left .inr
    · rcases h'.all y hy with hy | hy | hy
      · exact .inl (.inl hy)
      · exact (h.mem.1 y hy).elim (fun hy => .inr (.inl hy)) fun hy => .inl (.inr hy)
      · exact .inr (.inr hy)
  · rw [List.count_append, Nat.add_comm k]
    exact Nat.add_le_add h'.count h.count
  · intro hx _
    rw [List.count_append, Nat.add_comm k]
    exact Nat.add_lt_add_of_le_of_lt h'.count (h.taken hx (List.cons_ne_nil curDir []))

theorem resolve_looked (files : Files) (dirs : List String) (q : SyscallQueue) (x : String) :
    ∃ new k, Looked files dirs x q (resolve files dirs q x) new k := by
  induction dirs generalizing q with
  | nil =>
    refine ⟨[], 0, rfl, rfl, ?_, nofun, ?_, Nat.le_refl _, fun _ h => (h rfl).elim⟩
    · rw [zero_nsmul]
      rfl
    · rintro y ⟨_, h, -⟩
      cases h
  | cons curDir dirs ih =>
    obtain ⟨new, k, h⟩ := addDirectory_looked files curDir x q
    obtain ⟨new', k', h'⟩ := ih (addDirectory files x q curDir)
    exact ⟨_, _, h.trans h'⟩

end

/-- What a turn does: it looks at a pending set, or begins again. -/
theorem step_cases (h : step files dirs q = some q') :
    (∃ x new k, x ∈ q.unresolved ∧ Looked files dirs x { q with index := q.index + 1 } q' new k) ∨
      q' = { q with index := 0 } := by
  rw [step] at h
  split at h
  · next x hx =>
    cases h
    obtain ⟨new, k, hl⟩ := resolve_looked files dirs { q with index := q.index + 1 } x
    exact .inl ⟨x, new, k, List.mem_of_getElem? hx, hl⟩
  · split at h
    · cases h
    · cases h
      exact .inr rfl

theorem step_none_iff : step files dirs q = none ↔ q.unresolved = [] := by
  rw [step]
  cases hq : q.unresolved with
  | nil => simp
  | cons x xs => split <;> simp

/-- What holds at the start and after every turn holds at the end, when nothing is pending. -/
theorem run_invariant {P : SyscallQueue → Prop}
    (hstep : ∀ q q', step files dirs q = some q' → P q → P q') (hp : P q)
    (h : run files dirs n q = some q') : P q' ∧ q'.unresolved = [] := by
  induction n generalizing q with
  | zero => cases h
  | succ n ih =>
    rw [run] at h
    cases hs : step files dirs q with
    | none =>
      rw [hs] at h
      cases h
      exact ⟨hp, step_none_iff.mp hs⟩
    | some q₁ =>
      rw [hs] at h
      exact ih (hstep q q₁ hs hp) h

/-- The sets found are reached, and what they depend on is found or they are pending. -/
structure Found (files : Files) (dirs syscallSets : List String) (q : SyscallQueue) : Prop where
  requested : ∀ r ∈ syscallSets, r ∈ q.syscallSets
  reached : ∀ y ∈ q.syscallSets, ∃ r ∈ syscallSets, ReflTransGen (Depends files dirs) r y
  pending : ∀ y ∈ q.unresolved, y ∈ q.syscallSets
  closed : ∀ y ∈ q.syscallSets, y ∈ q.unresolved ∨
    ∀ z, Depends files dirs y z → z ∈ q.syscallSets

theorem Found.step (h : Found files dirs sets q) (hs : step files dirs q = some q') :
    Found files dirs sets q' := by
  rcases step_cases hs with ⟨x, new, k, hx, hl⟩ | rfl
  · obtain ⟨hback, hkept⟩ := hl.mem
    have hmem (y : String) : y ∈ q'.syscallSets ↔ y ∈ new ∨ y ∈ q.syscallSets := by
      rw [hl.sets, List.mem_append]
    obtain ⟨r, hr, hrx⟩ := h.reached x (h.pending x hx)
    refine ⟨fun r hr => (hmem r).mpr (.inr (h.requested r hr)), fun y hy => ?_, fun y hy => ?_,
      fun y hy => ?_⟩
    · rcases (hmem y).mp hy with hy | hy
      · exact ⟨r, hr, hrx.tail (hl.found y hy)⟩
      · exact h.reached y hy
    · exact (hmem y).mpr ((hback y hy).symm.imp_right (h.pending y))
    · by_cases hyx : y = x
      · subst hyx
        refine .inr fun z hz => (hmem z).mpr ?_
        rcases hl.all z hz with hz | hz | rfl
        · exact .inl hz
        · exact .inr (h.pending z hz)
        · exact .inr (h.pending z hx)
      · rcases (hmem y).mp hy with hy | hy
        · exact .inl ((hkept y (.inr hy)).resolve_right hyx)
        · refine (h.closed y hy).imp (fun hy => (hkept y (.inl hy)).resolve_right hyx) ?_
          exact fun hall z hz => (hmem z).mpr (.inr (hall z hz))
  · exact ⟨h.requested, h.reached, h.pending, h.closed⟩

theorem Found.closure (h : Found files dirs sets q) (hq : q.unresolved = []) :
    Closure files dirs sets q.syscallSets.toFinset := by
  intro x
  rw [List.mem_toFinset]
  refine ⟨h.reached x, ?_⟩
  rintro ⟨r, hr, hx⟩
  induction hx with
  | refl => exact h.requested r hr
  | tail _ hd ih =>
    refine (h.closed _ ih).elim (fun hp => ?_) fun hall => hall _ hd
    rw [hq] at hp
    cases hp

/-- A look at a pending set leaves fewer of it, and below it more. -/
theorem Looked.decreases (h : Looked files dirs x q q' new k) (hx : x ∈ q.unresolved)
    (hd : dirs ≠ []) :
    TransGen (CutExpand (Below (Depends files dirs))) (q'.unresolved : Multiset String)
      q.unresolved := by
  have hlt := h.taken hx hd
  obtain ⟨j, rfl⟩ := Nat.exists_eq_add_of_lt hlt
  refine cutExpand_of_add (t := (new.filter (· ≠ x) : List String)) (x := x) j ?_ ?_
  · intro y hy
    obtain ⟨hy, hne⟩ := List.mem_filter.mp (Multiset.mem_coe.mp hy)
    exact ⟨h.found y hy, of_decide_eq_true hne⟩
  · have hnew : (new : Multiset String) =
        ((new.filter (· ≠ x) : List String) : Multiset String) + new.count x • {x} := by
      have hsplit := Multiset.filter_add_not (· ≠ x) (new : Multiset String)
      simp only [not_not] at hsplit
      rw [Multiset.filter_eq', Multiset.coe_count] at hsplit
      rw [Multiset.nsmul_singleton]
      exact hsplit.symm
    have hp := h.pending
    rw [hnew, ← add_assoc, Nat.add_assoc, add_comm (new.count x), add_nsmul, ← add_assoc] at hp
    exact add_right_cancel hp

theorem run_step (hs : step files dirs q = some q') (n : Nat) :
    run files dirs (n + 1) q = run files dirs n q' := by
  rw [run, hs]

/-- With a set pending, one is looked at in this turn or the next. -/
theorem exists_looked (hq : q.unresolved ≠ []) :
    ∃ j q', (∀ n, run files dirs (n + j) q = run files dirs n q') ∧
      ∃ x new k, x ∈ q.unresolved ∧ ∃ i, Looked files dirs x { q with index := i } q' new k := by
  have hlook (q : SyscallQueue) (hi : q.index < q.unresolved.length) :
      ∃ q', step files dirs q = some q' ∧ ∃ x new k, x ∈ q.unresolved ∧
        Looked files dirs x { q with index := q.index + 1 } q' new k := by
    obtain ⟨new, k, hl⟩ := resolve_looked files dirs { q with index := q.index + 1 }
      (q.unresolved.get ⟨q.index, hi⟩)
    refine ⟨_, ?_, _, new, k, List.get_mem _ ⟨q.index, hi⟩, hl⟩
    rw [step, List.getElem?_eq_getElem hi]
    rfl
  by_cases hi : q.index < q.unresolved.length
  · obtain ⟨q', hs, x, new, k, hx, hl⟩ := hlook q hi
    exact ⟨1, q', run_step hs, x, new, k, hx, _, hl⟩
  · obtain ⟨q', hs, x, new, k, hx, hl⟩ := hlook { q with index := 0 } (List.length_pos_iff.mpr hq)
    have hagain : step files dirs q = some { q with index := 0 } := by
      rw [step, List.getElem?_eq_none (Nat.le_of_not_lt hi), if_neg hq]
    refine ⟨2, q', fun n => ?_, x, new, k, hx, _, hl⟩
    rw [run_step hagain, run_step hs]

theorem exists_run (hd : dirs ≠ [])
    (h : Acc (TransGen (CutExpand (Below (Depends files dirs)))) (q.unresolved : Multiset String)) :
    ∃ n q', run files dirs n q = some q' := by
  generalize hm : (q.unresolved : Multiset String) = m at h
  induction h generalizing q with
  | intro m _ ih =>
    subst hm
    by_cases hq : q.unresolved = []
    · exact ⟨1, q, by rw [run, step_none_iff.mpr hq]⟩
    · obtain ⟨j, q', hrun, x, new, k, hx, i, hl⟩ := exists_looked hq
      obtain ⟨n, q'', hn⟩ := ih _ (hl.decreases hx hd) rfl
      exact ⟨n + j, q'', (hrun n).trans hn⟩

/-- A pending set above a cycle is never the last one. -/
theorem run_cyclic (hx : x ∈ q.unresolved) (hc : ¬ Acyclic (Depends files dirs) x) (n : Nat) :
    run files dirs n q = none := by
  rw [Option.eq_none_iff_forall_ne_some]
  intro q' h
  have hstep (q q' : SyscallQueue) (hs : step files dirs q = some q')
      (hq : ∃ y ∈ q.unresolved, ¬ Acyclic (Depends files dirs) y) :
      ∃ y ∈ q'.unresolved, ¬ Acyclic (Depends files dirs) y := by
    obtain ⟨y, hy, hc⟩ := hq
    rcases step_cases hs with ⟨x, new, k, hx, hl⟩ | rfl
    · obtain ⟨-, hkept⟩ := hl.mem
      by_cases hyx : y = x
      · subst hyx
        obtain ⟨z, hz, hcz⟩ := exists_next hc
        refine ⟨z, (hkept z ?_).resolve_right hz.2, hcz⟩
        exact ((hl.all z hz.1).imp_right fun h => h.resolve_right hz.2).symm
      · exact ⟨y, (hkept y (.inl hy)).resolve_right hyx, hc⟩
    · exact ⟨y, hy, hc⟩
  obtain ⟨⟨y, hy, -⟩, hnil⟩ := run_invariant hstep ⟨x, hx, hc⟩ h
  rw [hnil] at hy
  cases hy

/-- Without a directory the sets stay pending. -/
theorem run_no_dirs (hq : q.unresolved ≠ []) (n : Nat) : run files [] n q = none := by
  rw [Option.eq_none_iff_forall_ne_some]
  intro q' h
  have hstep (q q' : SyscallQueue) (hs : step files [] q = some q') (hq : q.unresolved ≠ []) :
      q'.unresolved ≠ [] := by
    rw [step] at hs
    split at hs
    · cases hs
      exact hq
    · rw [if_neg hq] at hs
      cases hs
      exact hq
  obtain ⟨hne, hnil⟩ := run_invariant hstep hq h
  exact hne hnil

end SyscallQueue

open SyscallQueue

/-- The sets come out right just where no two different ones that are reached depend on each
other. -/
theorem dependencies_iff (files : Files) (dirs syscallSets : List String) :
    (∃ fuel out, generateSyscallSetDependencies files fuel dirs syscallSets = some out ∧
      Closure files dirs syscallSets out) ↔
    (syscallSets = [] ∨ dirs ≠ []) ∧ ∀ r ∈ syscallSets, Acyclic (Depends files dirs) r := by
  constructor
  · rintro ⟨fuel, out, h, -⟩
    obtain ⟨q, hrun, -⟩ := Option.map_eq_some_iff.mp h
    constructor
    · by_contra hn
      obtain ⟨hs, hd⟩ := not_or.mp hn
      rw [not_not.mp hd, run_no_dirs hs] at hrun
      cases hrun
    · intro r hr
      by_contra hc
      rw [run_cyclic hr hc] at hrun
      cases hrun
  · rintro ⟨hd, hc⟩
    have hends : ∃ n q, run files dirs n ⟨syscallSets, syscallSets, 0⟩ = some q := by
      rcases hd with rfl | hd
      · exact ⟨1, _, rfl⟩
      · refine exists_run hd (Acc.transGen (acc_of_singleton fun r hr => ?_))
        exact (acc_below (depends_finite files dirs) (hc r hr)).cutExpand
    obtain ⟨n, q, hrun⟩ := hends
    have hstart : Found files dirs syscallSets ⟨syscallSets, syscallSets, 0⟩ :=
      ⟨fun _ => id, fun y hy => ⟨y, hy, .refl⟩, fun _ => id, fun _ => .inl⟩
    obtain ⟨hf, hnil⟩ := run_invariant (fun _ _ hs h => h.step hs) hstart hrun
    exact ⟨n, _, by rw [generateSyscallSetDependencies, hrun]; rfl, hf.closure hnil⟩

/-- Two sets that depend on each other. -/
theorem dependencies_cycle :
    let files : Files := [("d/a/depends", ["b"]), ("d/b/depends", ["a"])]
    ¬ ∃ fuel out, generateSyscallSetDependencies files fuel ["d"] ["a"] = some out ∧
      Closure files ["d"] ["a"] out := by
  rintro files ⟨fuel, out, h, -⟩
  have hab : Depends files ["d"] "a" "b" :=
    ⟨"d", List.mem_cons_self .., "b", by decide, by decide⟩
  have hba : Depends files ["d"] "b" "a" :=
    ⟨"d", List.mem_cons_self .., "a", by decide, by decide⟩
  have hc : ¬ Acyclic (Depends files ["d"]) "a" := fun ha =>
    absurd (ha "a" "b" .refl (.single hab) (.single hba)) (by decide)
  obtain ⟨q, hrun, -⟩ := Option.map_eq_some_iff.mp h
  rw [run_cyclic (List.mem_cons_self ..) hc] at hrun
  cases hrun

end Cibyl
