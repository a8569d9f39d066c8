import Cibyl.CallTable
import Cibyl.CallTableCode
import Cibyl.CallTableRanges
import Mathlib.Data.List.Forall2

namespace Cibyl
set_option autoImplicit true

open RegisterAllocator (initialRegisters)
open Jvm (Ty)
open scoped List

namespace CallTableMethod

/-- What stands between the parentheses of a call. -/
inductive Token where
  | comma
  | register (reg : Reg)
  | index (idx : Nat)
  deriving DecidableEq, Repr

/-- What is written for a register. -/
def token (idx : Nat) (reg : Reg) : Token :=
  if reg = Reg.fna then .index idx else .register reg

/-- The loop over the registers to pass, where `comma` is what it writes before the next. -/
def argumentText (idx : Nat) : Bool → List Reg → List Token
  | _, [] => []
  | comma, reg :: regs =>
    let sep := if comma then [.comma] else []
    if reg = Reg.sp then token idx reg :: argumentText idx true regs
    else if reg = Reg.fna then sep ++ token idx reg :: argumentText idx comma regs
    else if reg = Reg.a0 ∨ reg = Reg.a1 ∨ reg = Reg.a2 ∨ reg = Reg.a3 then
      sep ++ token idx reg :: argumentText idx true regs
    else argumentText idx comma regs

/-- What becomes of the value of a call. -/
inductive Assign where
  | dropped
  | ret
  | cast
  deriving DecidableEq, Repr

/-- A case of the switch: the call it makes. -/
structure Case where
  label : Word
  assign : Assign
  className : String
  methodName : String
  arguments : List Token
  deriving DecidableEq, Repr

/-- A method with a switch over the address; its default throws. -/
structure SwitchMethod where
  ty : Ty
  cases : List Case
  deriving DecidableEq, Repr

def assign (env : Env) (p : MethodPass1) : Assign :=
  if env.config.threadSafe then
    if p.returnSize = 2 then .ret else if p.returnSize = 1 then .cast else .dropped
  else if p.returnSize ≥ 1 then .ret else .dropped

/-- The case of a function, where the translator does not panic. -/
def generateCase (env : Env) (fn : Function) : Option Case := do
  let mt ← env.getMethodByAddress fn.address
  let regs := (mt.pass1 env).registersToPass
  let idx ← if Reg.fna ∈ regs then mt.getFunctionIndexByAddress fn.address else some 0
  some
    { label := fn.address
      assign := assign env (mt.pass1 env)
      className := env.getClassByMethodName mt.name
      methodName := mt.name
      arguments := argumentText idx false regs }

/-- The type of `ret`. -/
def retTy (env : Env) : Ty := if env.config.threadSafe then .long else .int

def generateMethod (env : Env) (functions : List Function) (start stop : Nat) :
    Option SwitchMethod :=
  (((functions.take stop).drop start).mapM (generateCase env)).map fun cases =>
    { ty := retTy env, cases := cases }

/-- The entry point `call` and the methods behind it, in classes that may lie in another package.
Without ranges the one method is the entry point itself. -/
structure Generated where
  entryTy : Ty
  ranges : Option (List (Word × Word))
  methods : List SwitchMethod
  entryPackage : Option String
  methodsPackage : Option String
  deriving DecidableEq, Repr

/-- The range of method `i` in `generateHierarchy`. -/
def hierarchyRange (env : Env) (functions : List Function) (functionsPerLevel i : Nat) :
    Option (Word × Word) := do
  let firstFn ← functions[i * functionsPerLevel]?
  let lastFn ← functions[(i + 1) * functionsPerLevel]?
  let firstMt ← env.getMethodByAddress firstFn.address
  let lastMt ← env.getMethodByAddress lastFn.address
  some (firstMt.address, lastMt.address)

def generateHierarchy (env : Env) (functions : List Function) (n : Nat) : Option Generated :=
  if n ≥ functions.length then none
  else do
    let functionsPerLevel := functions.length / n
    let ranges ← (List.range (n - 1)).mapM (hierarchyRange env functions functionsPerLevel)
    let methods ← (List.range n).mapM fun i => generateMethod env functions
      (i * functionsPerLevel) (if i = n - 1 then functions.length else (i + 1) * functionsPerLevel)
    some ⟨.int, some ranges, methods, env.config.packageName, env.config.packageName⟩

/-- The range of class `i`. -/
def classRange (functions : List Function) (functionsPerClass i : Nat) : Option (Word × Word) := do
  let firstFn ← functions[i * functionsPerClass]?
  let lastFn ← functions[(i + 1) * functionsPerClass]?
  some (firstFn.address, lastFn.address)

/-- The entry point in the class of the call table, and a class without a package for each part. -/
def generateClasses (env : Env) (functions : List Function) (n : Nat) : Option Generated := do
  let functionsPerClass := functions.length / n
  let ranges ← (List.range (n - 1)).mapM (classRange functions functionsPerClass)
  let methods ← (List.range n).mapM fun i => generateMethod env functions
    (i * functionsPerClass) ((i + 1) * functionsPerClass)
  some ⟨.int, some ranges, methods, env.config.packageName, none⟩

/-- What `pass2` writes; there is nothing where it divides by zero or panics. -/
def pass2 (env : Env) (functions : List Function) : Option Generated :=
  let hierarchy := env.config.callTableHierarchy
  let classes := env.config.callTableClasses
  if classes = 0 then none
  else if classes ≠ 1 ∧ hierarchy ≠ 1 then none
  else if hierarchy > 1 then generateHierarchy env functions hierarchy
  else if classes > 1 then generateClasses env functions classes
  else (generateMethod env functions 0 functions.length).map fun mt =>
    ⟨mt.ty, none, [mt], env.config.packageName, env.config.packageName⟩

/-- The case that `call` comes to for an address; there is none where it throws. -/
def Generated.reaches (g : Generated) (address : Word) : Option Case :=
  (g.methods[(g.ranges.map (fun ranges => route ranges address)).getD 0]?).bind fun mt =>
    mt.cases.find? (fun c => c.label == address)

/-- The entry point can name the methods, and returns what they return. -/
def Generated.Compiles (g : Generated) : Prop :=
  g.ranges.isSome = true →
    g.methodsPackage = g.entryPackage ∧ ∀ mt ∈ g.methods, mt.ty = .long → g.entryTy = .long

/-- A well-formed call of a method, with the registers it takes in their order. -/
structure Case.Calls (c : Case) (env : Env) (m : JavaMethod) (idx : Nat) : Prop where
  className : c.className = env.getClassByMethodName m.name
  methodName : c.methodName = m.name
  arguments : c.arguments =
    ((m.pass1 env).registersToPass.map (token idx)).intersperse .comma
  assigned : c.assign ≠ .dropped ↔ returnTy env (m.pass1 env) ≠ none

/-- The function index is passed first and something behind it, which then has no comma. -/
def MissesComma (regs : List Reg) : Prop := Reg.fna ∈ regs ∧ Reg.sp ∉ regs ∧ 1 < regs.length

theorem intersperse_cons (c x : α) (xs : List α) :
    (x :: xs).intersperse c = x :: xs.flatMap (fun y => [c, y]) := by
  induction xs generalizing x with
  | nil => rfl
  | cons y xs ih => rw [List.intersperse_cons_cons, ih y, List.flatMap_cons, List.cons_append,
      List.cons_append, List.nil_append]

/-- Behind a first argument every one gets its comma. -/
theorem argumentText_true (idx : Nat) {regs : List Reg}
    (h : ∀ r ∈ regs, r ∈ [Reg.fna, Reg.a0, Reg.a1, Reg.a2, Reg.a3]) :
    argumentText idx true regs = (regs.map (token idx)).flatMap (fun t => [.comma, t]) := by
  induction regs with
  | nil => rfl
  | cons r regs ih =>
    obtain ⟨hr, hregs⟩ := List.forall_mem_cons.mp h
    have hi := ih hregs
    rw [argumentText, List.map_cons, List.flatMap_cons, ← hi]
    simp only [List.mem_cons, List.not_mem_nil, or_false] at hr
    rcases hr with rfl | rfl | rfl | rfl | rfl <;> rfl

/-- The text of an argument register that comes first. -/
theorem argumentText_false (idx : Nat) {regs : List Reg}
    (h : r :: regs <+ [Reg.a0, Reg.a1, Reg.a2, Reg.a3]) :
    argumentText idx false (r :: regs) =
      token idx r :: (regs.map (token idx)).flatMap (fun t => [.comma, t]) := by
  have hmem (x : Reg) (hx : x ∈ r :: regs) : x ∈ [Reg.fna, Reg.a0, Reg.a1, Reg.a2, Reg.a3] :=
    List.mem_cons_of_mem _ (h.subset hx)
  rw [← argumentText_true idx fun x hx => hmem x (List.mem_cons_of_mem _ hx), argumentText]
  have hr := h.subset (List.mem_cons_self ..)
  simp only [List.mem_cons, List.not_mem_nil, or_false] at hr
  rcases hr with rfl | rfl | rfl | rfl <;> rfl

/-- The text is that of the registers with commas between them, but for the missing one. -/
theorem argumentText_iff (idx : Nat) {regs : List Reg} (h : regs <+ initialRegisters) :
    argumentText idx false regs = (regs.map (token idx)).intersperse .comma ↔
      ¬ MissesComma regs := by
  rcases List.sublist_cons_iff.mp h with h₁ | ⟨regs, rfl, h₁⟩
  · rcases List.sublist_cons_iff.mp h₁ with h₂ | ⟨regs, rfl, h₂⟩
    · have hno : ¬ MissesComma regs := fun hm => absurd (h₂.subset hm.1) (by decide)
      refine iff_of_true ?_ hno
      cases regs with
      | nil => rfl
      | cons r regs => rw [argumentText_false idx h₂, List.map_cons, intersperse_cons]
    · have hfna : argumentText idx false (Reg.fna :: regs) =
          token idx Reg.fna :: argumentText idx false regs := rfl
      rw [hfna, List.map_cons, intersperse_cons, List.cons.injEq, MissesComma]
      cases regs with
      | nil => exact iff_of_true ⟨rfl, rfl⟩ (fun hm => absurd hm.2.2 (Nat.lt_irrefl 1))
      | cons r regs =>
        refine iff_of_false (fun he => ?_) (fun hm => hm ⟨List.mem_cons_self .., ?_, ?_⟩)
        · rw [argumentText_false idx h₂, List.map_cons, List.flatMap_cons] at he
          have hr := (List.cons.inj he.2).1
          rw [token] at hr
          split at hr <;> cases hr
        · intro hsp
          rcases List.mem_cons.mp hsp with hsp | hsp
          · cases hsp
          · exact absurd (h₂.subset hsp) (by decide)
        · exact Nat.succ_lt_succ (Nat.zero_lt_succ _)
  · refine iff_of_true ?_ (fun hm => hm.2.1 (List.mem_cons_self ..))
    have hsp : argumentText idx false (Reg.sp :: regs) =
        token idx Reg.sp :: argumentText idx true regs := rfl
    rw [hsp, List.map_cons, intersperse_cons, argumentText_true idx fun r hr => h₁.subset hr]

theorem registersToPass_sublist (env : Env) (m : JavaMethod) :
    (m.pass1 env).registersToPass <+ initialRegisters := by
  rw [MethodPass1.registersToPass, MethodPass1.registersFrom_eq]
  exact List.filter_sublist.trans (m.possibleArguments_prefix env (m.filled env)).sublist

theorem mapM_forall₂ {f : α → Option β} {xs : List α} (h : ∀ x ∈ xs, ∃ y, f x = some y) :
    ∃ ys, xs.mapM f = some ys ∧ List.Forall₂ (fun x y => f x = some y) xs ys := by
  induction xs with
  | nil => exact ⟨[], rfl, .nil⟩
  | cons x xs ih =>
    obtain ⟨hx, hxs⟩ := List.forall_mem_cons.mp h
    obtain ⟨y, hy⟩ := hx
    obtain ⟨ys, hys, hf⟩ := ih hxs
    exact ⟨y :: ys, by rw [List.mapM_cons, hy, hys]; rfl, .cons hy hf⟩

section

variable {env : Env} {functions : List Function} {fn : Function} {m : JavaMethod} {c : Case}

/-- The translator finds every function of the table. -/
def Found (env : Env) (functions : List Function) : Prop :=
  ∀ fn ∈ functions, ∃ m idx, FunctionAt env fn.address m idx

/-- The functions of the table that are called without a missing comma. -/
def NoneMissesComma (env : Env) (functions : List Function) : Prop :=
  ∀ fn ∈ functions, ∀ m idx, FunctionAt env fn.address m idx →
    ¬ MissesComma (m.pass1 env).registersToPass

theorem token_congr {regs : List Reg} (h : Reg.fna ∉ regs) (i j : Nat) :
    regs.map (token i) = regs.map (token j) ∧
      ∀ comma, argumentText i comma regs = argumentText j comma regs := by
  induction regs with
  | nil => exact ⟨rfl, fun _ => rfl⟩
  | cons r regs ih =>
    obtain ⟨hr, hregs⟩ := not_or.mp (mt List.mem_cons.mpr h)
    obtain ⟨hm, ht⟩ := ih hregs
    have htok : token i r = token j r := by
      rw [token, token, if_neg (Ne.symm hr), if_neg (Ne.symm hr)]
    refine ⟨by rw [List.map_cons, List.map_cons, htok, hm], fun comma => ?_⟩
    simp only [argumentText, htok, ht]

/-- The case of a function calls its method, but for a missing comma. -/
theorem generateCase_calls (h : FunctionAt env fn.address m idx) :
    ∃ c, generateCase env fn = some c ∧ c.label = fn.address ∧
      (c.Calls env m idx ↔ ¬ MissesComma (m.pass1 env).registersToPass) := by
  have hassign : assign env (m.pass1 env) ≠ .dropped ↔ returnTy env (m.pass1 env) ≠ none := by
    rw [assign, returnTy]
    split
    · split
      · exact iff_of_true (fun h => by cases h) fun h => by cases h
      · split
        · exact iff_of_true (fun h => by cases h) fun h => by cases h
        · exact iff_of_false (fun h => h rfl) (fun h => h rfl)
    · split
      · exact iff_of_true (fun h => by cases h) fun h => by cases h
      · exact iff_of_false (fun h => h rfl) (fun h => h rfl)
  have htext := argumentText_iff idx (registersToPass_sublist env m)
  by_cases hfna : Reg.fna ∈ (m.pass1 env).registersToPass
  · refine ⟨⟨fn.address, assign env (m.pass1 env), env.getClassByMethodName m.name, m.name,
      argumentText idx false (m.pass1 env).registersToPass⟩, ?_, rfl, ?_⟩
    · rw [generateCase, h.method]
      simp only [Option.bind_eq_bind, Option.bind_some, if_pos hfna, h.index]
    · exact ⟨fun hc => htext.mp hc.arguments, fun hn => ⟨rfl, rfl, htext.mpr hn, hassign⟩⟩
  · refine ⟨⟨fn.address, assign env (m.pass1 env), env.getClassByMethodName m.name, m.name,
      argumentText 0 false (m.pass1 env).registersToPass⟩, ?_, rfl, ?_⟩
    · rw [generateCase, h.method]
      simp only [Option.bind_eq_bind, Option.bind_some, if_neg hfna]
    · rw [← (token_congr hfna 0 idx).2] at htext
      exact ⟨fun hc => htext.mp hc.arguments, fun hn => ⟨rfl, rfl, htext.mpr hn, hassign⟩⟩

theorem generateMethod_some (hf : Found env functions) (start stop : Nat) :
    ∃ mt, generateMethod env functions start stop = some mt ∧ mt.ty = retTy env ∧
      ∀ a, mt.cases.find? (fun c => c.label == a) =
        (((functions.take stop).drop start).find? (fun fn => fn.address == a)).bind
          (generateCase env) := by
  have hcase (fn : Function) (hfn : fn ∈ (functions.take stop).drop start) :
      ∃ c, generateCase env fn = some c ∧ c.label = fn.address := by
    obtain ⟨m, idx, hat⟩ := hf fn (List.mem_of_mem_take (List.mem_of_mem_drop hfn))
    obtain ⟨c, hc, hl, -⟩ := generateCase_calls hat
    exact ⟨c, hc, hl⟩
  obtain ⟨cases, hcases, hall⟩ := mapM_forall₂ fun fn hfn => (hcase fn hfn).imp fun _ h => h.1
  refine ⟨⟨retTy env, cases⟩, by rw [generateMethod, hcases]; rfl, rfl, fun a => ?_⟩
  dsimp only
  clear hcases
  generalize (functions.take stop).drop start = part at *
  induction hall with
  | nil => rfl
  | cons hc hall ih =>
    obtain ⟨⟨c', hc', hl⟩, hrest⟩ := List.forall_mem_cons.mp hcase
    cases hc.symm.trans hc'
    rw [List.find?_cons, List.find?_cons, hl, ih hrest]
    split
    · exact hc.symm
    · rfl

/-- What the entry point comes to: method `index address` has the functions from `start` to `stop`
of that number. -/
def Reaches (g : Generated) (env : Env) (functions : List Function) (index : Word → Nat)
    (start stop : Nat → Nat) : Prop :=
  ∀ address, g.reaches address = (((functions.take (stop (index address))).drop
    (start (index address))).find? (fun fn => fn.address == address)).bind (generateCase env)

/-- Every function of the list lies in the part that its address is sent to. -/
def Sent (functions : List Function) (index : Word → Nat) (start stop : Nat → Nat) : Prop :=
  ∀ p fn, functions[p]? = some fn → start (index fn.address) ≤ p ∧ p < stop (index fn.address)

/-- A function with the address, in the part of the list, is found there and no other one. -/
theorem find_part (hs : functions.Pairwise (fun f g => f.address.toNat < g.address.toNat))
    (hp : functions[p]? = some fn) (start stop : Nat) :
    (((functions.take stop).drop start).find? (fun f => f.address == fn.address) = some fn ↔
      start ≤ p ∧ p < stop) ∧
    (¬ (start ≤ p ∧ p < stop) →
      ((functions.take stop).drop start).find? (fun f => f.address == fn.address) = none) := by
  have hindex (i : Nat) (f : Function) (hi : functions[i]? = some f)
      (ha : f.address = fn.address) : i = p := by
    obtain ⟨hi', rfl⟩ := List.getElem?_eq_some_iff.mp hi
    obtain ⟨hp', rfl⟩ := List.getElem?_eq_some_iff.mp hp
    have hlt := List.pairwise_iff_getElem.mp hs
    rcases Nat.lt_trichotomy i p with h | h | h
    · have := hlt i p hi' hp' h
      rw [ha] at this
      exact absurd this (Nat.lt_irrefl _)
    · exact h
    · have := hlt p i hp' hi' h
      rw [ha] at this
      exact absurd this (Nat.lt_irrefl _)
  have hpart (i : Nat) (f : Function) (hi : ((functions.take stop).drop start)[i]? = some f)
      (ha : f.address = fn.address) : start ≤ p ∧ p < stop := by
    rw [List.getElem?_drop, List.getElem?_take] at hi
    split at hi
    · have := hindex _ f hi ha
      omega
    · cases hi
  have hnone (hn : ¬ (start ≤ p ∧ p < stop)) :
      ((functions.take stop).drop start).find? (fun f => f.address == fn.address) = none := by
    refine List.find?_eq_none.mpr fun f hf ha => hn ?_
    obtain ⟨i, hi⟩ := List.mem_iff_getElem?.mp hf
    exact hpart i f hi (beq_iff_eq.mp ha)
  refine ⟨⟨fun h => ?_, fun h => ?_⟩, hnone⟩
  · by_contra hn
    rw [hnone hn] at h
    cases h
  · have hmem : fn ∈ (functions.take stop).drop start := by
      refine List.mem_of_getElem? (i := p - start) ?_
      rw [List.getElem?_drop, List.getElem?_take, Nat.add_sub_cancel' h.1, if_pos h.2, hp]
    cases hf : ((functions.take stop).drop start).find? (fun f => f.address == fn.address) with
    | none => exact absurd BEq.rfl (List.find?_eq_none.mp hf fn hmem)
    | some f =>
      have ha : f.address = fn.address := by simpa using List.find?_some hf
      obtain ⟨i, hi⟩ := List.mem_iff_getElem?.mp
        (List.mem_of_mem_take (List.mem_of_mem_drop (List.mem_of_find?_eq_some hf)))
      cases hindex i f hi ha
      rw [← hi, hp]

/-- The functions of the table reach well-formed calls of their methods, and no other address
reaches anything. -/
structure Dispatches (g : Generated) (env : Env) (functions : List Function) : Prop where
  compiles : g.Compiles
  listed : ∀ fn ∈ functions, ∀ m idx, FunctionAt env fn.address m idx →
    ∃ c, g.reaches fn.address = some c ∧ c.label = fn.address ∧ c.Calls env m idx
  unlisted : ∀ address, (∀ fn ∈ functions, fn.address ≠ address) → g.reaches address = none

/-- What is left to show once it is known which part each method of the class has. -/
theorem Reaches.dispatches_iff (hr : Reaches g env functions index start stop)
    (hf : Found env functions)
    (hs : functions.Pairwise (fun f g => f.address.toNat < g.address.toNat)) :
    Dispatches g env functions ↔
      g.Compiles ∧ Sent functions index start stop ∧ NoneMissesComma env functions := by
  constructor
  · rintro ⟨hc, hlisted, -⟩
    have hreach (p : Nat) (fn : Function) (hp : functions[p]? = some fn) (m : JavaMethod)
        (idx : Nat) (hat : FunctionAt env fn.address m idx) :
        (start (index fn.address) ≤ p ∧ p < stop (index fn.address)) ∧
          ¬ MissesComma (m.pass1 env).registersToPass := by
      obtain ⟨c, hc, -, hcalls⟩ := hlisted fn (List.mem_of_getElem? hp) m idx hat
      obtain ⟨hfind, hnone⟩ := find_part hs hp (start (index fn.address)) (stop (index fn.address))
      rw [hr] at hc
      have hin : start (index fn.address) ≤ p ∧ p < stop (index fn.address) := by
        by_contra hn
        rw [hnone hn] at hc
        cases hc
      rw [hfind.mpr hin] at hc
      obtain ⟨c', hc', -, hiff⟩ := generateCase_calls hat
      cases hc.symm.trans hc'
      exact ⟨hin, hiff.mp hcalls⟩
    refine ⟨hc, fun p fn hp => ?_, fun fn hfn m idx hat => ?_⟩
    · obtain ⟨m, idx, hat⟩ := hf fn (List.mem_of_getElem? hp)
      exact (hreach p fn hp m idx hat).1
    · obtain ⟨p, hp⟩ := List.mem_iff_getElem?.mp hfn
      exact (hreach p fn hp m idx hat).2
  · rintro ⟨hc, hsent, hcomma⟩
    refine ⟨hc, fun fn hfn m idx hat => ?_, fun address hno => ?_⟩
    · obtain ⟨p, hp⟩ := List.mem_iff_getElem?.mp hfn
      obtain ⟨c, hcase, hl, hiff⟩ := generateCase_calls hat
      refine ⟨c, ?_, hl, hiff.mpr (hcomma fn hfn m idx hat)⟩
      rw [hr, (find_part hs hp _ _).1.mpr (hsent p fn hp)]
      exact hcase
    · rw [hr]
      have hnone : ((functions.take (stop (index address))).drop (start (index address))).find?
          (fun fn => fn.address == address) = none := by
        refine List.find?_eq_none.mpr fun fn hfn ha => ?_
        exact hno fn (List.mem_of_mem_take (List.mem_of_mem_drop hfn)) (beq_iff_eq.mp ha)
      rw [hnone]
      rfl

theorem mapM_eq_map {f : α → Option β} {g : α → β} {xs : List α} (h : ∀ x ∈ xs, f x = some (g x)) :
    xs.mapM f = some (xs.map g) := by
  induction xs with
  | nil => rfl
  | cons x xs ih =>
    obtain ⟨hx, hxs⟩ := List.forall_mem_cons.mp h
    rw [List.mapM_cons, hx, ih hxs]
    rfl

/-- The methods for the parts of the list. -/
theorem generateMethods_some (hf : Found env functions) (start stop : Nat → Nat) (last : Nat) :
    ∃ methods, (List.range (last + 1)).mapM
        (fun i => generateMethod env functions (start i) (stop i)) = some methods ∧
      (∀ mt ∈ methods, mt.ty = retTy env) ∧ methods ≠ [] ∧
      ∀ (ranges : List (Word × Word)) (ty : Ty) (p p' : Option String), ranges.length = last →
        Reaches ⟨ty, some ranges, methods, p, p'⟩ env functions (route ranges) start stop := by
  have hsome (i : Nat) (_ : i ∈ List.range (last + 1)) :
      ∃ mt, generateMethod env functions (start i) (stop i) = some mt := by
    obtain ⟨mt, hmt, -⟩ := generateMethod_some hf (start i) (stop i)
    exact ⟨mt, hmt⟩
  obtain ⟨methods, hm, hall⟩ := mapM_forall₂ hsome
  have hlen := hall.length_eq
  rw [List.length_range] at hlen
  have hget (i : Nat) (mt : SwitchMethod) (hi : methods[i]? = some mt) :
      generateMethod env functions (start i) (stop i) = some mt := by
    obtain ⟨hlt, rfl⟩ := List.getElem?_eq_some_iff.mp hi
    have h := hall.get (by rw [List.length_range, hlen]; exact hlt) hlt
    simpa using h
  refine ⟨methods, hm, fun mt hmt => ?_, fun hn => ?_, fun ranges ty p p' hr address => ?_⟩
  · obtain ⟨i, hi⟩ := List.mem_iff_getElem?.mp hmt
    obtain ⟨mt', hmt', hty, -⟩ := generateMethod_some hf (start i) (stop i)
    cases (hget i mt hi).symm.trans hmt'
    exact hty
  · rw [hn] at hlen
    exact absurd hlen (Nat.succ_ne_zero last)
  · have hle := route_le ranges address
    have hlt : route ranges address < methods.length := by omega
    obtain ⟨mt, hmt, -, hcases⟩ := generateMethod_some hf (start (route ranges address))
      (stop (route ranges address))
    have hi := List.getElem?_eq_getElem hlt
    cases (hget _ _ hi).symm.trans hmt
    rw [Generated.reaches]
    dsimp only [Option.map_some, Option.getD_some]
    rw [hi, Option.bind_some]
    exact hcases address

/-- The addresses of the table, and those of the methods of its functions. -/
def addressAt (functions : List Function) (p : Nat) : Word :=
  ((functions[p]?).map Function.address).getD 0

def methodAddressAt (env : Env) (functions : List Function) (p : Nat) : Word :=
  (((functions[p]?).bind (fun fn => env.getMethodByAddress fn.address)).map
    JavaMethod.address).getD 0

/-- The bounds that the range tests of the two shapes are written with. -/
def hierarchyBound (env : Env) (functions : List Function) (k j : Nat) : Word :=
  methodAddressAt env functions (j * (functions.length / k))

def classBound (functions : List Function) (k j : Nat) : Word :=
  addressAt functions (j * (functions.length / k))

/-- No function of a method lies above its address. -/
theorem address_le (h : fn ∈ m.functions) : fn.address.toNat ≤ m.address.toNat := by
  have hfold (fns : List Function) (a : Word) : a.toNat ≤ (fns.foldl (fun a fn =>
      if fn.address.toNat > a.toNat then fn.address else a) a).toNat ∧
      ∀ fn ∈ fns, fn.address.toNat ≤ (fns.foldl (fun a fn =>
        if fn.address.toNat > a.toNat then fn.address else a) a).toNat := by
    induction fns generalizing a with
    | nil => exact ⟨Nat.le_refl _, List.forall_mem_nil _⟩
    | cons f fns ih =>
      rw [List.foldl_cons]
      have hstep : a.toNat ≤ (if f.address.toNat > a.toNat then f.address else a).toNat ∧
          f.address.toNat ≤ (if f.address.toNat > a.toNat then f.address else a).toNat := by
        split <;> omega
      obtain ⟨ha, hall⟩ := ih (if f.address.toNat > a.toNat then f.address else a)
      exact ⟨hstep.1.trans ha, List.forall_mem_cons.mpr ⟨hstep.2.trans ha, hall⟩⟩
  exact (hfold m.functions 0).2 fn h

theorem addressAt_eq (h : functions[p]? = some fn) : addressAt functions p = fn.address := by
  rw [addressAt, h]
  rfl

theorem methodAddressAt_eq (h : functions[p]? = some fn) (hm : FunctionAt env fn.address m idx) :
    methodAddressAt env functions p = m.address := by
  rw [methodAddressAt, h, Option.bind_some, hm.method]
  rfl

theorem addressAt_ascending
    (hs : functions.Pairwise (fun f g => f.address.toNat < g.address.toNat)) (hp : p < q)
    (hq : q < functions.length) :
    (addressAt functions p).toNat < (addressAt functions q).toNat := by
  rw [addressAt_eq (List.getElem?_eq_getElem (hp.trans hq)),
    addressAt_eq (List.getElem?_eq_getElem hq)]
  exact List.pairwise_iff_getElem.mp hs p q _ hq hp

theorem first_lt_length {n k j : Nat} (hk : k < n) (hj : j < k) : j * (n / k) < n := by
  have hpos : 0 < n / k := Nat.div_pos (Nat.le_of_lt hk) (by omega)
  have hlt : j * (n / k) < k * (n / k) := Nat.mul_lt_mul_of_pos_right hj hpos
  exact Nat.lt_of_lt_of_le hlt (Nat.mul_div_le ..)

/-- The parts of the list as groups of addresses. -/
theorem groups {b : Nat → Word}
    (hs : functions.Pairwise (fun f g => f.address.toNat < g.address.toNat))
    (hk : 1 < k) (hn : k < functions.length) (habove : ∀ j, j < k →
      (addressAt functions (j * (functions.length / k))).toNat ≤ (b j).toNat) :
    Groups (addressAt functions) b functions.length (functions.length / k) (k - 1) := by
  refine ⟨Nat.div_pos (Nat.le_of_lt hn) (by omega), by omega, ?_,
    fun p q hp hq => addressAt_ascending hs hp hq, fun j hj => habove j (by omega)⟩
  rw [Nat.sub_add_cancel (by omega)]
  exact Nat.mul_div_le ..

/-- The parts of the hierarchy are the groups. -/
theorem sent_hierarchy (h : Groups a b functions.length size last)
    (ha : ∀ p fn, functions[p]? = some fn → a p = fn.address) :
    Sent functions (route (rangesOf b last)) (fun i => i * size)
        (fun i => if i = last then functions.length else (i + 1) * size) ↔
      Bounded a b functions.length size last := by
  rw [← routes_iff h]
  have hpart (i p : Nat) (hi : i ≤ last) (hp : p < functions.length) :
      (i * size ≤ p ∧ p < if i = last then functions.length else (i + 1) * size) ↔
        i = min (p / size) last := by
    rw [← Nat.le_div_iff_mul_le h.size_pos]
    split
    · omega
    · rw [← Nat.div_lt_iff_lt_mul h.size_pos]
      omega
  have hle (x : Word) : route (rangesOf b last) x ≤ last := by
    have := route_le (rangesOf b last) x
    rwa [rangesOf_length] at this
  constructor
  · intro hsent p hp
    have hget := List.getElem?_eq_getElem hp
    rw [ha p _ hget]
    exact (hpart _ p (hle _) hp).mp (hsent p _ hget)
  · intro hr p fn hget
    obtain ⟨hp, -⟩ := List.getElem?_eq_some_iff.mp hget
    have h := hr p hp
    rw [ha p fn hget] at h
    exact (hpart _ p (hle _) hp).mpr h

/-- The parts of the classes are the groups where nothing is left over. -/
theorem sent_classes (h : Groups a b functions.length size last)
    (ha : ∀ p fn, functions[p]? = some fn → a p = fn.address) :
    Sent functions (route (rangesOf b last)) (fun i => i * size) (fun i => (i + 1) * size) ↔
      functions.length = (last + 1) * size ∧ Bounded a b functions.length size last := by
  rw [← sent_hierarchy h ha]
  have hle (x : Word) : route (rangesOf b last) x ≤ last := by
    have := route_le (rangesOf b last) x
    rwa [rangesOf_length] at this
  have hmul (i : Nat) (hi : i ≤ last) : (i + 1) * size ≤ (last + 1) * size :=
    Nat.mul_le_mul_right size (Nat.succ_le_succ hi)
  have hfits := h.fits
  constructor
  · intro hsent
    refine ⟨?_, fun p fn hget => ?_⟩
    · have hpos : 0 < (last + 1) * size := Nat.mul_pos (Nat.zero_lt_succ last) h.size_pos
      have hlt : functions.length - 1 < functions.length := by omega
      obtain ⟨fn, hfn⟩ : ∃ fn, functions[functions.length - 1]? = some fn :=
        ⟨_, List.getElem?_eq_getElem hlt⟩
      have hlast := (hsent _ fn hfn).2
      have hm := hmul _ (hle fn.address)
      dsimp only at hlast
      omega
    · obtain ⟨hlow, hhigh⟩ := hsent p fn hget
      obtain ⟨hp, -⟩ := List.getElem?_eq_some_iff.mp hget
      refine ⟨hlow, ?_⟩
      dsimp only
      split
      · exact hp
      · exact hhigh
  · rintro ⟨hlen, hsent⟩ p fn hget
    obtain ⟨hlow, hhigh⟩ := hsent p fn hget
    refine ⟨hlow, ?_⟩
    dsimp only at hhigh ⊢
    split at hhigh
    · next he => rw [he, ← hlen]; exact hhigh
    · exact hhigh

/-- What the two shapes with ranges have in common. -/
theorem compiles_iff {methods : List SwitchMethod} (hty : ∀ mt ∈ methods, mt.ty = retTy env)
    (hne : methods ≠ []) (ranges : List (Word × Word)) (p p' : Option String) :
    Generated.Compiles ⟨.int, some ranges, methods, p, p'⟩ ↔
      p' = p ∧ env.config.threadSafe = false := by
  obtain ⟨mt, hmt⟩ := List.exists_mem_of_ne_nil methods hne
  constructor
  · intro h
    obtain ⟨hp, hlong⟩ := h rfl
    refine ⟨hp, Bool.eq_false_iff.mpr fun ht => ?_⟩
    have hl : mt.ty = .long := by rw [hty mt hmt, retTy, if_pos ht]
    cases hlong mt hmt hl
  · rintro ⟨hp, ht⟩ -
    refine ⟨hp, fun mt hmt hl => ?_⟩
    rw [hty mt hmt, retTy, if_neg (Bool.eq_false_iff.mp ht)] at hl
    cases hl

variable {hierarchy classes : Nat}

theorem flat_dispatches (hf : Found env functions)
    (hs : functions.Pairwise (fun f g => f.address.toNat < g.address.toNat)) :
    ∃ mt, generateMethod env functions 0 functions.length = some mt ∧
      (Dispatches ⟨mt.ty, none, [mt], env.config.packageName, env.config.packageName⟩ env
        functions ↔ NoneMissesComma env functions) := by
  obtain ⟨mt, hmt, -, hcases⟩ := generateMethod_some hf 0 functions.length
  refine ⟨mt, hmt, ?_⟩
  have hr : Reaches ⟨mt.ty, none, [mt], env.config.packageName, env.config.packageName⟩ env
      functions (fun _ => 0) (fun _ => 0) (fun _ => functions.length) := hcases
  rw [hr.dispatches_iff hf hs]
  refine ⟨fun h => h.2.2, fun h => ⟨nofun, fun p fn hp => ⟨Nat.zero_le p, ?_⟩, h⟩⟩
  exact (List.getElem?_eq_some_iff.mp hp).1

theorem hierarchy_dispatches (hf : Found env functions)
    (hs : functions.Pairwise (fun f g => f.address.toNat < g.address.toNat)) (hk : 1 < hierarchy)
    (hn : hierarchy < functions.length) :
    ∃ g, generateHierarchy env functions hierarchy = some g ∧
      (Dispatches g env functions ↔ env.config.threadSafe = false ∧
        Bounded (addressAt functions) (hierarchyBound env functions hierarchy) functions.length
          (functions.length / hierarchy) (hierarchy - 1) ∧
        NoneMissesComma env functions) := by
  have hget (j : Nat) (hj : j < hierarchy) := List.getElem?_eq_getElem (first_lt_length hn hj)
  have hmethod (j : Nat) (hj : j < hierarchy) :=
    hf _ (List.getElem_mem (first_lt_length hn hj))
  have hbound (j : Nat) (hj : j < hierarchy) :
      (addressAt functions (j * (functions.length / hierarchy))).toNat ≤
        (hierarchyBound env functions hierarchy j).toNat := by
    obtain ⟨m, idx, hat⟩ := hmethod j hj
    obtain ⟨fn, hfn, ha⟩ := hat.entry
    rw [addressAt_eq (hget j hj), hierarchyBound, methodAddressAt_eq (hget j hj) hat, ← ha]
    exact address_le (List.mem_of_getElem? hfn)
  have hg := groups hs hk hn hbound
  have hranges : (List.range (hierarchy - 1)).mapM
      (hierarchyRange env functions (functions.length / hierarchy)) =
        some (rangesOf (hierarchyBound env functions hierarchy) (hierarchy - 1)) := by
    refine mapM_eq_map fun i hi => ?_
    have hi := List.mem_range.mp hi
    have hi₀ : i < hierarchy := by omega
    have hi₁ : i + 1 < hierarchy := by omega
    obtain ⟨m, idx, hat⟩ := hmethod i hi₀
    obtain ⟨m', idx', hat'⟩ := hmethod (i + 1) hi₁
    rw [hierarchyRange, hget i hi₀, hget (i + 1) hi₁]
    simp only [Option.bind_eq_bind, Option.bind_some, hat.method, hat'.method]
    rw [hierarchyBound, hierarchyBound, methodAddressAt_eq (hget i hi₀) hat,
      methodAddressAt_eq (hget (i + 1) hi₁) hat']
  obtain ⟨methods, hm, hty, hne, hreach⟩ := generateMethods_some hf
    (fun i => i * (functions.length / hierarchy))
    (fun i => if i = hierarchy - 1 then functions.length
      else (i + 1) * (functions.length / hierarchy)) (hierarchy - 1)
  rw [Nat.sub_add_cancel (Nat.le_of_lt hk)] at hm
  refine ⟨⟨.int, some (rangesOf (hierarchyBound env functions hierarchy) (hierarchy - 1)), methods,
    env.config.packageName, env.config.packageName⟩, ?_, ?_⟩
  · rw [generateHierarchy, if_neg (Nat.not_le.mpr hn)]
    simp only [hranges, Option.bind_eq_bind, Option.bind_some, hm]
  · rw [(hreach _ _ _ _ (rangesOf_length _ _)).dispatches_iff hf hs, compiles_iff hty hne,
      sent_hierarchy hg fun p fn => addressAt_eq]
    exact and_congr_left' ⟨fun h => h.2, fun h => ⟨rfl, h⟩⟩

theorem classes_dispatches (hf : Found env functions)
    (hs : functions.Pairwise (fun f g => f.address.toNat < g.address.toNat)) (hk : 1 < classes)
    (hn : classes < functions.length) :
    ∃ g, generateClasses env functions classes = some g ∧
      (Dispatches g env functions ↔ (env.config.packageName = none ∧
        env.config.threadSafe = false) ∧
        (functions.length % classes = 0 ∧ ∀ j, j < classes →
          (Negative (classBound functions classes j) ↔ Negative (addressAt functions 0))) ∧
        NoneMissesComma env functions) := by
  have hget (j : Nat) (hj : j < classes) := List.getElem?_eq_getElem (first_lt_length hn hj)
  have hg := groups hs hk hn fun j _ => Nat.le_refl (classBound functions classes j).toNat
  have hranges : (List.range (classes - 1)).mapM
      (classRange functions (functions.length / classes)) =
        some (rangesOf (classBound functions classes) (classes - 1)) := by
    refine mapM_eq_map fun i hi => ?_
    have hi := List.mem_range.mp hi
    have hi₀ : i < classes := by omega
    have hi₁ : i + 1 < classes := by omega
    rw [classRange, hget i hi₀, hget (i + 1) hi₁]
    simp only [Option.bind_eq_bind, Option.bind_some]
    rw [classBound, classBound, addressAt_eq (hget i hi₀), addressAt_eq (hget (i + 1) hi₁)]
  obtain ⟨methods, hm, hty, hne, hreach⟩ := generateMethods_some hf
    (fun i => i * (functions.length / classes)) (fun i => (i + 1) * (functions.length / classes))
    (classes - 1)
  rw [Nat.sub_add_cancel (Nat.le_of_lt hk)] at hm
  have hbounded : Bounded (addressAt functions) (classBound functions classes) functions.length
      (functions.length / classes) (classes - 1) ↔ ∀ j, j < classes →
        (Negative (classBound functions classes j) ↔ Negative (addressAt functions 0)) := by
    refine ⟨fun h j hj => h.side j (by omega), fun h => ⟨.inl ?_, fun _ _ _ => rfl, fun j hj =>
      h j (by omega)⟩⟩
    rw [classBound, Nat.zero_mul]
  have hdvd : functions.length = (classes - 1 + 1) * (functions.length / classes) ↔
      functions.length % classes = 0 := by
    rw [Nat.sub_add_cancel (Nat.le_of_lt hk)]
    have := Nat.div_add_mod functions.length classes
    omega
  refine ⟨⟨.int, some (rangesOf (classBound functions classes) (classes - 1)), methods,
    env.config.packageName, none⟩, ?_, ?_⟩
  · rw [generateClasses, hranges]
    simp only [Option.bind_eq_bind, Option.bind_some, hm]
  · rw [(hreach _ _ _ _ (rangesOf_length _ _)).dispatches_iff hf hs, compiles_iff hty hne,
      sent_classes hg fun p fn => addressAt_eq, hbounded, hdvd]
    exact and_congr_left' (and_congr_left' eq_comm)

/-- Where the entry point, the parts and the calls are right. -/
structure Fits (env : Env) (functions : List Function) : Prop where
  commas : NoneMissesComma env functions
  hierarchy : 1 < env.config.callTableHierarchy → env.config.threadSafe = false ∧
    Bounded (addressAt functions) (hierarchyBound env functions env.config.callTableHierarchy)
      functions.length (functions.length / env.config.callTableHierarchy)
      (env.config.callTableHierarchy - 1)
  classes : 1 < env.config.callTableClasses → env.config.threadSafe = false ∧
    env.config.packageName = none ∧ functions.length % env.config.callTableClasses = 0 ∧
    ∀ j, j < env.config.callTableClasses →
      (Negative (classBound functions env.config.callTableClasses j) ↔
        Negative (addressAt functions 0))

/-- The entry point dispatches every call of a listed function, and only these, just where the table
fits. -/
theorem dispatch_exact_iff (env : Env) (t : CallTable) (hf : Found env t.functions)
    (hh : 1 ≤ env.config.callTableHierarchy) (hc : 1 ≤ env.config.callTableClasses)
    (hhn : env.config.callTableHierarchy < t.functions.length)
    (hcn : env.config.callTableClasses < t.functions.length)
    (hone : ¬ (1 < env.config.callTableHierarchy ∧ 1 < env.config.callTableClasses)) :
    ∃ g, pass2 env t.functions = some g ∧
      (Dispatches g env t.functions ↔ Fits env t.functions) := by
  have hguard : ¬ (env.config.callTableClasses ≠ 1 ∧ env.config.callTableHierarchy ≠ 1) := by omega
  rw [pass2, if_neg (by omega), if_neg hguard]
  rcases Nat.lt_or_eq_of_le hh with hh' | hh'
  · obtain ⟨g, hg, hiff⟩ := hierarchy_dispatches hf t.sorted hh' hhn
    refine ⟨g, by rw [if_pos hh', hg], hiff.trans ⟨fun h => ⟨h.2.2, fun _ => ⟨h.1, h.2.1⟩, fun h' =>
      absurd ⟨hh', h'⟩ hone⟩, fun h => ⟨(h.hierarchy hh').1, (h.hierarchy hh').2, h.commas⟩⟩⟩
  · rcases Nat.lt_or_eq_of_le hc with hc' | hc'
    · obtain ⟨g, hg, hiff⟩ := classes_dispatches hf t.sorted hc' hcn
      refine ⟨g, by rw [if_neg (by omega), if_pos hc', hg], hiff.trans ⟨fun h => ⟨h.2.2, fun h' =>
        absurd ⟨h', hc'⟩ hone, fun _ => ⟨h.1.2, h.1.1, h.2.1⟩⟩, fun h => ?_⟩⟩
      obtain ⟨ht, hp, hrest⟩ := h.classes hc'
      exact ⟨⟨hp, ht⟩, hrest, h.commas⟩
    · obtain ⟨mt, hmt, hiff⟩ := flat_dispatches hf t.sorted
      refine ⟨_, by rw [if_neg (by omega), if_neg (by omega), hmt]; rfl, hiff.trans
        ⟨fun h => ⟨h, fun h' => ?_, fun h' => ?_⟩, fun h => h.commas⟩⟩
      · omega
      · omega

end

/-- A function of one word. -/
def leafInsn (address : Word) : Instruction := ⟨.addu, address, .addu, Reg.a0, Reg.a1, Reg.v0, 0⟩

def leaf (address : Word) : Function :=
  Function.create "f" false (.single (leafInsn address)) [] (.singleton _)

/-- Three such functions, each in its own method. -/
def leaves : CallTable :=
  ((CallTable.empty.addFunction (leaf 0x1000)).addFunction (leaf 0x1004)).addFunction (leaf 0x1008)

def leavesEnv (config : Config) : Env :=
  { Env.single config (.ofInsn (leafInsn 0)) with
    getMethodByAddress address := some (.ofInsn (leafInsn address)) }

theorem leaves_functions : leaves.functions = [leaf 0x1000, leaf 0x1004, leaf 0x1008] := rfl

theorem leaves_found (config : Config) : Found (leavesEnv config) leaves.functions := by
  intro fn hfn
  rw [leaves_functions] at hfn
  simp only [List.mem_cons, List.not_mem_nil, or_false] at hfn
  rcases hfn with rfl | rfl | rfl <;>
    exact ⟨_, 0, rfl, rfl, _, rfl, rfl⟩

/-- The plain table of the three functions. -/
theorem dispatch_exact_three : ∃ g, pass2 (leavesEnv {}) leaves.functions = some g ∧
    (Dispatches g (leavesEnv {}) leaves.functions ↔ Fits (leavesEnv {}) leaves.functions) :=
  dispatch_exact_iff (leavesEnv {}) leaves (leaves_found {}) (by decide) (by decide) (by decide)
    (by decide) (by decide)

/-- Two classes have one function each, and the third function is in none. -/
theorem dispatch_loses_function :
    ∃ g, pass2 (leavesEnv { callTableClasses := 2 }) leaves.functions = some g ∧
      g.reaches 0x1008 = none ∧
      ¬ Dispatches g (leavesEnv { callTableClasses := 2 }) leaves.functions := by
  have hreaches : (pass2 (leavesEnv { callTableClasses := 2 }) leaves.functions).map
      (fun g => g.reaches 0x1008) = some none := by decide +kernel
  obtain ⟨g, hg, hr⟩ := Option.map_eq_some_iff.mp hreaches
  refine ⟨g, hg, hr, fun h => ?_⟩
  obtain ⟨c, hc, -⟩ := h.listed (leaf 0x1008) (by rw [leaves_functions]; simp)
    (.ofInsn (leafInsn 0x1008)) 0 ⟨rfl, rfl, _, rfl, rfl⟩
  rw [show (leaf 0x1008).address = 0x1008 from rfl, hr] at hc
  cases hc

end CallTableMethod

end Cibyl
