import Cibyl.LabelAddresses

namespace Cibyl
set_option autoImplicit true

open Jvm (Label)
open Mark (defined named)
open Bc (allMarks)
open Emit (op intOp pushconst)

theorem flatMap_if (xs : List α) (p : α → Bool) (f : α → β) :
    xs.flatMap (fun x => if p x then [f x] else []) = (xs.filter p).map f := by
  induction xs with
  | nil => rfl
  | cons x xs ih =>
    rw [List.flatMap_cons, ih, List.filter_cons]
    cases p x <;> rfl

theorem perm_flatMap_append (xs : List α) (f g : α → List β) :
    (xs.flatMap (fun x => f x ++ g x)).Perm (xs.flatMap f ++ xs.flatMap g) :=
  (List.flatMap_append_perm xs f g).symm

namespace ExceptionHandler

def defined : ExceptionHandler → List Label
  | exception start stop => [.handler start stop]
  | setjmp start stop _ => [.handler start stop, .setjmpNotThis start stop]

def named : ExceptionHandler → List Label
  | exception _ stop => [.addr stop]
  | setjmp start stop target => [.setjmpNotThis start stop, .addr target]

theorem defined_pass2 (env : Env) (x : ExceptionHandler) :
    Mark.defined (allMarks (x.pass2 env)) = x.defined := by
  cases x <;> simp [pass2, defined, invokeCallTable, invokestatic]

theorem named_pass2 (env : Env) (x : ExceptionHandler) :
    Mark.named (allMarks (x.pass2 env)) = x.named := by
  cases x <;> simp [pass2, named, invokeCallTable, invokestatic]

end ExceptionHandler

namespace JavaMethod

/-- The functions that the index of a call and calls within the method go to. -/
def entryPoints (m : JavaMethod) : List Word :=
  if m.hasMultipleFunctions then m.functions.map Function.address else []

/-- The branch targets and the addresses in data of the slots. -/
def labelled (env : Env) (m : JavaMethod) : List Word :=
  ((m.slots env).filter (Entry.hasLabel env)).map (fun e => e.insn.address)

/-- The catches and the calls of `__NOPH_setjmp`. -/
def sites (env : Env) (m : JavaMethod) : List Word :=
  ((m.insns env).filter (Instruction.isSite env)).map Instruction.address

/-- The delay-slot instructions that are emitted again. -/
def agains (env : Env) (m : JavaMethod) : List Instruction :=
  (m.slots env).flatMap (Entry.again env)

def againAddresses (env : Env) (m : JavaMethod) : List Word :=
  (m.agains env).map Instruction.address

def againSites (env : Env) (m : JavaMethod) : List Word :=
  ((m.agains env).filter (Instruction.isSite env)).map Instruction.address

theorem functionsCode_marks (env : Env) (m : JavaMethod) : allMarks (m.functionsCode env).1 =
    m.functions.flatMap (fun fn =>
      (if m.hasMultipleFunctions then [.defines (.addr fn.address)] else []) ++
        (fn.pass1 env).flatMap (Entry.marks env)) :=
  Emission.marks_all (fun fn _ => m.functionCode_marks env fn) ⟨[], m.catchHandlers env⟩

def siteLabel (env : Env) (insn : Instruction) : List Label :=
  if insn.isSite env then [.addr insn.address] else []

theorem defined_entry (env : Env) (e : Entry) : defined (e.marks env) =
    (if e.hasLabel env then [.addr e.insn.address] else []) ++
      ((e.delayed.toList.flatMap (siteLabel env) ++ siteLabel env e.insn) ++
        (e.again env).flatMap (fun d => [.addr d.address] ++
          (siteLabel env d ++ [.out d.address]))) := by
  have hi (d : Instruction) : defined (d.marks env) = siteLabel env d :=
    Instruction.defined_marks env d
  have hl : defined (if e.hasLabel env then [.defines (.addr e.insn.address)] else []) =
      if e.hasLabel env then [.addr e.insn.address] else [] := by
    split <;> rfl
  simp only [Entry.marks, Entry.againMarks, Mark.defined_append, Mark.defined_flatMap, hi, hl,
    List.append_assoc]
  rfl

/-- The labels that the functions of a method define. -/
theorem functionsCode_defined (env : Env) (m : JavaMethod) :
    (defined (allMarks (m.functionsCode env).1)).Perm
      ((m.entryPoints ++ (m.labelled env ++ (m.sites env ++
        (m.againAddresses env ++ m.againSites env)))).map .addr ++
          (m.againAddresses env).map .out) := by
  have he : m.functions.flatMap (fun fn =>
      defined (if m.hasMultipleFunctions then [.defines (.addr fn.address)] else [])) =
      m.entryPoints.map .addr := by
    rw [entryPoints]
    split
    · rw [List.map_map]
      exact List.map_eq_flatMap.symm
    · exact List.flatMap_eq_nil_iff.mpr fun _ _ => rfl
  have hs : ((m.slots env).flatMap (fun e =>
      e.delayed.toList.flatMap (siteLabel env) ++ siteLabel env e.insn)).Perm
      ((m.sites env).map .addr) := by
    rw [sites, List.map_map, insns, List.filter_flatMap, List.map_flatMap]
    refine List.Perm.flatMap_left _ fun e _ => ?_
    rw [Entry.insns, ← flatMap_if, List.flatMap_cons]
    exact List.perm_append_comm
  have ha : ((m.agains env).flatMap (fun d =>
      [.addr d.address] ++ (siteLabel env d ++ [.out d.address]))).Perm
      ((m.againAddresses env).map .addr ++ ((m.againSites env).map .addr ++
        (m.againAddresses env).map .out)) := by
    refine (perm_flatMap_append ..).trans (.append (.of_eq ?_) ?_)
    · rw [againAddresses, List.map_map]
      exact List.map_eq_flatMap.symm
    · refine (perm_flatMap_append ..).trans (.of_eq ?_)
      rw [againSites, againAddresses, List.map_map, List.map_map]
      exact congr (congrArg _ (flatMap_if ..)) List.map_eq_flatMap.symm
  have hd : (m.functions.flatMap (fun fn =>
      (fn.pass1 env).flatMap (fun e => defined (e.marks env)))).Perm
      ((m.labelled env).map .addr ++ ((m.sites env).map .addr ++
        ((m.againAddresses env).map .addr ++ ((m.againSites env).map .addr ++
          (m.againAddresses env).map .out)))) := by
    rw [← List.flatMap_assoc]
    simp only [defined_entry]
    refine (perm_flatMap_append ..).trans (.append (.of_eq ?_) ?_)
    · rw [labelled, List.map_map]
      exact flatMap_if ..
    · refine (perm_flatMap_append ..).trans (hs.append ?_)
      rw [← List.flatMap_assoc]
      exact ha
  rw [functionsCode_marks, Mark.defined_flatMap]
  simp only [Mark.defined_append, Mark.defined_flatMap]
  refine (perm_flatMap_append ..).trans ?_
  rw [he]
  refine ((List.Perm.refl _).append hd).trans (.of_eq ?_)
  simp only [List.map_append, List.append_assoc]

/-- The handlers that `pass2` emits. -/
def handlers (env : Env) (m : JavaMethod) : List ExceptionHandler :=
  m.catchHandlers env ++ (m.slots env).flatMap (Entry.setjmpHandlers env)

def hasIndirectJumps (m : JavaMethod) : Bool := m.functions.any Function.registerIndirectJumps

/-- The labels that stand at the end of the body where some call stays in the method. -/
def returnLabels (env : Env) (m : JavaMethod) : List Label :=
  if m.hasMultipleFunctions ∧ (m.functionsCode env).2.returnLocations ≠ [] then
    [.functionReturnNonLocal] else []

theorem initRegisters_marks (m : JavaMethod) (p : MethodPass1) :
    allMarks (m.initRegisters p) = [] := by
  refine List.flatMap_eq_nil_iff.mpr fun b hb => ?_
  obtain ⟨r, -, hb⟩ := List.mem_flatMap.mp hb
  rw [initStep] at hb
  repeat' split at hb
  · cases List.mem_singleton.mp hb
    rfl
  · cases hb
  · rw [initRegister] at hb
    simp only [List.mem_cons, List.not_mem_nil, or_false] at hb
    rcases hb with rfl | rfl
    · repeat' split
      all_goals simp
    · rfl
  · cases hb

theorem subroutine_marks (z : WordSize) (isSigned : Bool) :
    allMarks (emitSubroutineForOp (z.loadOpcode isSigned)) =
      [.defines (.memoryRead (z.readWhat isSigned))] := by
  rw [emitSubroutineForOp_load]
  simp [emitLoadSubroutine, loadSubroutineBody, loadSubroutineOps,
    Instruction.extendCode_marks]

theorem returnCode_marks (env : Env) (p : MethodPass1) : allMarks (returnCode env p) = [] := by
  rw [returnCode]
  repeat' split
  all_goals simp

/-- The body up to the handlers. -/
def frontLines (env : Env) (m : JavaMethod) : List Bc :=
  m.initRegisters (m.pass1 env) ++
    (if env.config.optimizePartialMemoryOps then
      .item (.goto .javamethodBegin) :: m.emitSubroutines else []) ++
    [.item (.label .javamethodBegin)] ++ m.functionTable ++ (m.functionsCode env).1 ++
    m.jumptabCode env

/-- The handlers and the end of the body. -/
def backLines (env : Env) (m : JavaMethod) : List Bc :=
  (m.handlers env).flatMap (ExceptionHandler.pass2 env) ++
    [.item (.label .functionReturn)] ++ m.returnLocationCode (m.functionsCode env).2 ++
    returnCode env (m.pass1 env)

theorem pass2Lines_eq (env : Env) (m : JavaMethod) : m.pass2Lines env =
    m.frontLines env ++ .item (.label .exceptionHandlers) :: m.backLines env := by
  have hh : (m.functionsCode env).2.exceptionHandlers = m.handlers env :=
    functionsCode_handlers env m
  simp only [pass2Lines, frontLines, backLines, hh, List.append_assoc, List.cons_append,
    List.nil_append]

theorem defined_frontLines (env : Env) (m : JavaMethod) :
    defined (allMarks (m.frontLines env)) =
    (if env.config.optimizePartialMemoryOps then
      m.subroutineOps.flatMap (fun o => defined (allMarks (emitSubroutineForOp o))) else []) ++
    .javamethodBegin :: (defined (allMarks (m.functionsCode env).1) ++
      if m.hasIndirectJumps then [.localJumptab] else []) := by
  have ht : defined (allMarks m.functionTable) = [] := by
    rw [functionTable]
    split <;> simp [-List.map_map]
  have hj : defined (allMarks (m.jumptabCode env)) =
      if m.hasIndirectJumps then [.localJumptab] else [] := by
    rw [jumptabCode, hasIndirectJumps]
    split <;> simp [-List.map_map]
  have hs : defined (allMarks (if env.config.optimizePartialMemoryOps then
      .item (.goto .javamethodBegin) :: m.emitSubroutines else [])) =
      if env.config.optimizePartialMemoryOps then
        m.subroutineOps.flatMap (fun o => defined (allMarks (emitSubroutineForOp o))) else [] := by
    split
    · rw [Bc.allMarks_cons, emitSubroutines, Bc.allMarks_flatMap]
      exact Mark.defined_flatMap ..
    · rfl
  simp only [frontLines, Bc.allMarks_append, Mark.defined_append, initRegisters_marks, ht, hj, hs]
  simp

theorem defined_backLines (env : Env) (m : JavaMethod) :
    defined (allMarks (m.backLines env)) =
      (m.handlers env).flatMap ExceptionHandler.defined ++
        .functionReturn :: m.returnLabels env := by
  have hr : defined (allMarks (m.returnLocationCode (m.functionsCode env).2)) =
      m.returnLabels env := by
    rw [returnLocationCode, returnLabels]
    split <;> simp [-List.map_map]
  simp only [backLines, Bc.allMarks_append, Mark.defined_append, returnCode_marks, hr,
    Bc.allMarks_flatMap, Mark.defined_flatMap, ExceptionHandler.defined_pass2]
  simp

theorem defined_pass2Lines (env : Env) (m : JavaMethod) : defined (allMarks (m.pass2Lines env)) =
    (if env.config.optimizePartialMemoryOps then
      m.subroutineOps.flatMap (fun o => defined (allMarks (emitSubroutineForOp o))) else []) ++
    .javamethodBegin :: (defined (allMarks (m.functionsCode env).1) ++
      ((if m.hasIndirectJumps then [.localJumptab] else []) ++
        .exceptionHandlers :: ((m.handlers env).flatMap ExceptionHandler.defined ++
          .functionReturn :: m.returnLabels env))) := by
  rw [pass2Lines_eq, Bc.allMarks_append, Bc.allMarks_cons, Bc.marks_label, Mark.defined_append,
    List.singleton_append, Mark.defined_defines, defined_frontLines, defined_backLines]
  simp only [List.append_assoc, List.cons_append]

theorem named_pass2Lines (env : Env) (m : JavaMethod) : named (allMarks (m.pass2Lines env)) =
    (if env.config.optimizePartialMemoryOps then [.javamethodBegin] else []) ++
    ((if m.hasMultipleFunctions then m.entryPoints.map .addr ++ [.functionReturn] else []) ++
      (named (allMarks (m.functionsCode env).1) ++
        ((if m.hasIndirectJumps then
            .functionReturn :: ((env.jumptabLabels m).map .addr ++ [.functionReturn]) else []) ++
          ((m.handlers env).flatMap ExceptionHandler.named ++
            (if m.hasMultipleFunctions then
              (m.functionsCode env).2.returnLocations.map .addr else []) ++
                m.returnLabels env)))) := by
  have ht : named (allMarks m.functionTable) =
      if m.hasMultipleFunctions then m.entryPoints.map .addr ++ [.functionReturn] else [] := by
    rw [functionTable, entryPoints]
    split
    · simp [-List.map_map]
      rw [List.map_map]
      rfl
    · rfl
  have hj : named (allMarks (m.jumptabCode env)) = if m.hasIndirectJumps then
      .functionReturn :: ((env.jumptabLabels m).map .addr ++ [.functionReturn]) else [] := by
    rw [jumptabCode, hasIndirectJumps]
    split
    · simp [-List.map_map]
      rw [List.map_map]
      rfl
    · rfl
  have hr : named (allMarks (m.returnLocationCode (m.functionsCode env).2)) =
      (if m.hasMultipleFunctions then (m.functionsCode env).2.returnLocations.map .addr else []) ++
        m.returnLabels env := by
    rw [returnLocationCode, returnLabels]
    by_cases hm : m.hasMultipleFunctions = true
    · rw [if_pos hm]
      by_cases hn : (m.functionsCode env).2.returnLocations = []
      · rw [if_neg (fun h => h.2 hn), if_neg (fun h => h.2 hn), hn]
        rfl
      · rw [if_pos ⟨hm, hn⟩, if_pos ⟨hm, hn⟩]
        simp [-List.map_map]
    · rw [if_neg hm, if_neg (fun h => hm h.1), if_neg (fun h => hm h.1)]
      rfl
  have hs : named (allMarks (if env.config.optimizePartialMemoryOps then
      .item (.goto .javamethodBegin) :: m.emitSubroutines else [])) =
      if env.config.optimizePartialMemoryOps then [.javamethodBegin] else [] := by
    have ho (o : Opcode) : named (allMarks (emitSubroutineForOp o)) = [] := by
      rcases emitSubroutineForOp_cases o with h | ⟨z, isSigned, rfl⟩
      · rw [h]
        rfl
      · rw [subroutine_marks]
        rfl
    split
    · rw [Bc.allMarks_cons, emitSubroutines, Bc.allMarks_flatMap, Bc.marks_goto, Mark.named_append,
        Mark.named_flatMap, List.flatMap_eq_nil_iff.mpr fun o _ => ho o]
      rfl
    · rfl
  have hh : named (allMarks ((m.functionsCode env).2.exceptionHandlers.flatMap
      (ExceptionHandler.pass2 env))) = (m.handlers env).flatMap ExceptionHandler.named := by
    rw [functionsCode_handlers, Bc.allMarks_flatMap, Mark.named_flatMap]
    simp only [ExceptionHandler.named_pass2]
    rfl
  simp only [pass2Lines, Bc.allMarks_append, Mark.named_append, initRegisters_marks,
    returnCode_marks, ht, hj, hr, hs, hh]
  simp

section

variable {m : JavaMethod}

theorem mem_subroutines {os : List Opcode}
    (h : l ∈ os.flatMap (fun o => defined (allMarks (emitSubroutineForOp o)))) :
    ∃ bc, l = .memoryRead bc := by
  obtain ⟨o, -, h⟩ := List.mem_flatMap.mp h
  rcases emitSubroutineForOp_cases o with he | ⟨z, isSigned, rfl⟩
  · rw [he] at h
    cases h
  · rw [subroutine_marks] at h
    exact ⟨_, List.mem_singleton.mp h⟩

theorem mem_handlersDefined {xs : List ExceptionHandler}
    (h : l ∈ xs.flatMap ExceptionHandler.defined) :
    ∃ start stop, l = .handler start stop ∨ l = .setjmpNotThis start stop := by
  obtain ⟨x, -, h⟩ := List.mem_flatMap.mp h
  cases x with
  | exception start stop => exact ⟨start, stop, .inl (List.mem_singleton.mp h)⟩
  | setjmp start stop target =>
    rcases List.mem_cons.mp h with h | h
    · exact ⟨start, stop, .inl h⟩
    · exact ⟨start, stop, .inr (List.mem_singleton.mp h)⟩

theorem mem_functionsDefined (h : l ∈ defined (allMarks (m.functionsCode env).1)) :
    ∃ a, l = .addr a ∨ l = .out a := by
  rcases List.mem_append.mp ((m.functionsCode_defined env).subset h) with h | h
  · obtain ⟨a, -, rfl⟩ := List.mem_map.mp h
    exact ⟨a, .inl rfl⟩
  · obtain ⟨a, -, rfl⟩ := List.mem_map.mp h
    exact ⟨a, .inr rfl⟩

/-- The lines that define a label, part by part. -/
theorem count_defined (env : Env) (m : JavaMethod) (l : Label) :
    (defined (allMarks (m.pass2Lines env))).count l =
      (if env.config.optimizePartialMemoryOps then
        (m.subroutineOps.flatMap (fun o => defined (allMarks (emitSubroutineForOp o)))).count l
        else 0) + (if .javamethodBegin = l then 1 else 0) +
      (defined (allMarks (m.functionsCode env).1)).count l +
      (if m.hasIndirectJumps then if .localJumptab = l then 1 else 0 else 0) +
      (if .exceptionHandlers = l then 1 else 0) +
      ((m.handlers env).flatMap ExceptionHandler.defined).count l +
      (if .functionReturn = l then 1 else 0) + (m.returnLabels env).count l := by
  have hi (p : Prop) [Decidable p] (x y : List Label) :
      (if p then x else y).count l = if p then x.count l else y.count l := apply_ite ..
  simp only [defined_pass2Lines, List.count_append, List.count_cons, hi, List.count_nil,
    beq_iff_eq, Nat.zero_add]
  omega

theorem count_returnLabels (hl : l ≠ .functionReturnNonLocal) :
    (m.returnLabels env).count l = 0 := by
  rw [returnLabels]
  split
  · rw [List.count_singleton, if_neg (by simpa using hl.symm)]
  · rfl

theorem count_subroutines (h : ∀ bc, l ≠ .memoryRead bc) (os : List Opcode) :
    (os.flatMap (fun o => defined (allMarks (emitSubroutineForOp o)))).count l = 0 :=
  List.count_eq_zero.mpr fun hm => (mem_subroutines hm).elim h

theorem count_functions (ha : ∀ a, l ≠ .addr a) (ho : ∀ a, l ≠ .out a) :
    (defined (allMarks (m.functionsCode env).1)).count l = 0 :=
  List.count_eq_zero.mpr fun hm => (mem_functionsDefined hm).elim fun a h => h.elim (ha a) (ho a)

theorem count_handlers (h : ∀ start stop, l ≠ .handler start stop)
    (hn : ∀ start stop, l ≠ .setjmpNotThis start stop) (xs : List ExceptionHandler) :
    (xs.flatMap ExceptionHandler.defined).count l = 0 :=
  List.count_eq_zero.mpr fun hm =>
    (mem_handlersDefined hm).elim fun _ hm => hm.elim fun _ hm => hm.elim (h _ _) (hn _ _)

theorem count_addr (env : Env) (m : JavaMethod) (a : Word) :
    (defined (allMarks (m.pass2Lines env))).count (.addr a) =
      (m.entryPoints ++ (m.labelled env ++ (m.sites env ++
        (m.againAddresses env ++ m.againSites env)))).count a := by
  have ho (as : List Word) : (as.map Label.out).count (.addr a) = 0 :=
    List.count_eq_zero.mpr (by simp)
  rw [count_defined, count_subroutines (by exact nofun), count_handlers (by exact nofun)
    (by exact nofun), count_returnLabels (by exact nofun), (m.functionsCode_defined env).count_eq,
    List.count_append, List.count_map_of_injective _ _ (fun _ _ h => Label.addr.inj h), ho]
  simp

theorem count_out (env : Env) (m : JavaMethod) (a : Word) :
    (defined (allMarks (m.pass2Lines env))).count (.out a) = (m.againAddresses env).count a := by
  have ha (as : List Word) : (as.map Label.addr).count (.out a) = 0 :=
    List.count_eq_zero.mpr (by simp)
  rw [count_defined, count_subroutines (by exact nofun), count_handlers (by exact nofun)
    (by exact nofun), count_returnLabels (by exact nofun), (m.functionsCode_defined env).count_eq,
    List.count_append, List.count_map_of_injective _ _ (fun _ _ h => Label.out.inj h), ha]
  simp

theorem count_label (xs : List ExceptionHandler) (start stop : Word) :
    (xs.flatMap ExceptionHandler.defined).count (.handler start stop) =
      (xs.map ExceptionHandler.label).count (.handler start stop) := by
  induction xs with
  | nil => rfl
  | cons x xs ih =>
    rw [List.flatMap_cons, List.count_append, ih, List.map_cons, List.count_cons, Nat.add_comm]
    cases x <;> simp [ExceptionHandler.defined, ExceptionHandler.label, List.count_cons]

theorem count_notThis_le (xs : List ExceptionHandler) (start stop : Word) :
    (xs.flatMap ExceptionHandler.defined).count (.setjmpNotThis start stop) ≤
      (xs.map ExceptionHandler.label).count (.handler start stop) := by
  induction xs with
  | nil => exact Nat.le_refl 0
  | cons x xs ih =>
    rw [List.flatMap_cons, List.count_append, List.map_cons, List.count_cons, Nat.add_comm]
    refine Nat.add_le_add ih ?_
    cases x <;> simp [ExceptionHandler.defined, ExceptionHandler.label, List.count_cons]

theorem count_handler (env : Env) (m : JavaMethod) (start stop : Word) :
    (defined (allMarks (m.pass2Lines env))).count (.handler start stop) =
      ((m.handlers env).map ExceptionHandler.label).count (.handler start stop) := by
  rw [count_defined, count_subroutines (by exact nofun), count_functions (by exact nofun)
    (by exact nofun), count_returnLabels (by exact nofun), count_label]
  simp

theorem count_notThis (env : Env) (m : JavaMethod) (start stop : Word) :
    (defined (allMarks (m.pass2Lines env))).count (.setjmpNotThis start stop) =
      ((m.handlers env).flatMap ExceptionHandler.defined).count (.setjmpNotThis start stop) := by
  rw [count_defined, count_subroutines (by exact nofun), count_functions (by exact nofun)
    (by exact nofun), count_returnLabels (by exact nofun)]
  simp

theorem count_localJumptab (env : Env) (m : JavaMethod) :
    (defined (allMarks (m.pass2Lines env))).count .localJumptab =
      if m.hasIndirectJumps then 1 else 0 := by
  rw [count_defined, count_subroutines (by exact nofun), count_functions (by exact nofun)
    (by exact nofun), count_handlers (by exact nofun) (by exact nofun),
    count_returnLabels (by exact nofun)]
  simp

/-- The labels that every body has. -/
theorem count_fixed (env : Env) (m : JavaMethod)
    (h : l ∈ [Label.javamethodBegin, .exceptionHandlers, .functionReturn]) :
    (defined (allMarks (m.pass2Lines env))).count l = 1 := by
  simp only [List.mem_cons, List.not_mem_nil, or_false] at h
  rw [count_defined, count_subroutines, count_functions, count_handlers, count_returnLabels]
  · rcases h with rfl | rfl | rfl <;> simp
  all_goals rcases h with rfl | rfl | rfl <;> exact nofun

theorem count_nonLocal (h : l ∈ m.returnLabels env) :
    (defined (allMarks (m.pass2Lines env))).count l = 1 := by
  have hl : l = .functionReturnNonLocal ∧ m.returnLabels env = [.functionReturnNonLocal] := by
    rw [returnLabels] at h ⊢
    split at h
    · next hm => exact ⟨List.mem_singleton.mp h, if_pos hm⟩
    · cases h
  obtain ⟨rfl, hr⟩ := hl
  rw [count_defined, count_subroutines (by exact nofun), count_functions (by exact nofun)
    (by exact nofun), count_handlers (by exact nofun) (by exact nofun), hr]
  simp

theorem eraseDups_nodup [BEq α] [LawfulBEq α] (xs : List α) : xs.eraseDups.Nodup := by
  match xs with
  | [] => exact .nil
  | x :: xs =>
    rw [List.eraseDups_cons]
    refine List.nodup_cons.mpr ⟨fun h => ?_, eraseDups_nodup _⟩
    have h := (List.mem_filter.mp (List.mem_eraseDups.mp h)).2
    rw [beq_self_eq_true] at h
    cases h
termination_by xs.length
decreasing_by
  exact Nat.lt_succ_of_le (List.length_filter_le _ _)

theorem count_subroutineLabel (os : List Opcode) (z : WordSize) (isSigned : Bool) :
    (os.flatMap (fun o => defined (allMarks (emitSubroutineForOp o)))).count
      (.memoryRead (z.readWhat isSigned)) = os.count (z.loadOpcode isSigned) := by
  induction os with
  | nil => rfl
  | cons o os ih =>
    rw [List.flatMap_cons, List.count_append, ih, List.count_cons, Nat.add_comm]
    refine congrArg _ ?_
    rcases emitSubroutineForOp_cases o with h | ⟨z', isSigned', rfl⟩
    · have ho : o ≠ z.loadOpcode isSigned := by
        rintro rfl
        rw [emitSubroutineForOp_load] at h
        cases h
      rw [h, if_neg (by simpa using ho)]
      rfl
    · rw [subroutine_marks]
      cases z <;> cases isSigned <;> cases z' <;> cases isSigned' <;> rfl

theorem count_memoryRead (hj : env.config.optimizePartialMemoryOps = true) (hf : fn ∈ m.functions)
    (ho : fn.opcodeIsUsed (WordSize.loadOpcode z isSigned) = true) :
    (defined (allMarks (m.pass2Lines env))).count (.memoryRead (z.readWhat isSigned)) = 1 := by
  have hn : m.subroutineOps.Nodup := eraseDups_nodup _
  rw [count_defined, if_pos hj, count_subroutineLabel, count_functions (by exact nofun)
    (by exact nofun), count_handlers (by exact nofun) (by exact nofun),
    count_returnLabels (by exact nofun),
    List.count_eq_one_of_mem hn (mem_subroutineOps hf ho)]
  simp

end

end JavaMethod

end Cibyl
