import Cibyl.Builtin
import Cibyl.RegisterAllocator

namespace Cibyl
set_option autoImplicit true

namespace RegisterUsage

def empty : RegisterUsage := ⟨fun _ => 0, rfl⟩

/-- `addToRegisterUsage`. -/
def add (p : RegisterUsage) (reg : Reg) : RegisterUsage where
  count r := if r = reg ∧ reg ≠ Reg.zero then p.count r + 1 else p.count r
  count_zero := by
    rw [if_neg (fun h => h.2 h.1.symm)]
    exact p.count_zero

def addAll (p : RegisterUsage) (regs : List Reg) : RegisterUsage := regs.foldl add p

theorem pos_add (p : RegisterUsage) (reg r : Reg) :
    0 < (p.add reg).count r ↔ 0 < p.count r ∨ r = reg ∧ r ≠ Reg.zero := by
  simp only [add]
  by_cases h : r = reg ∧ reg ≠ Reg.zero
  · obtain ⟨rfl, hz⟩ := h
    rw [if_pos ⟨rfl, hz⟩]
    exact ⟨fun _ => .inr ⟨rfl, hz⟩, fun _ => Nat.succ_pos _⟩
  · rw [if_neg h]
    constructor
    · intro hp
      exact .inl hp
    · rintro (hp | ⟨rfl, hz⟩)
      · exact hp
      · exact absurd ⟨rfl, hz⟩ h

theorem pos_addAll (p : RegisterUsage) (regs : List Reg) (r : Reg) :
    0 < (p.addAll regs).count r ↔ 0 < p.count r ∨ r ∈ regs ∧ r ≠ Reg.zero := by
  induction regs generalizing p with
  | nil => exact ⟨.inl, fun h => h.elim id (fun h => nomatch h.1)⟩
  | cons reg regs ih =>
    rw [addAll, List.foldl_cons]
    change 0 < ((p.add reg).addAll regs).count r ↔ _
    rw [ih, pos_add, List.mem_cons, or_assoc, or_and_right]

end RegisterUsage

namespace Instruction

/-- The method `pass1` of a `jal` looks up at its destination. -/
def dstMethod (env : Env) (insn : Instruction) : Option JavaMethod :=
  env.getMethodByAddress (insn.extra <<< 2)

/-- A call within a method of several functions. A `jalr` looks up no method of its own. -/
def callsOwnMethod (env : Env) (insn : Instruction) : Bool :=
  insn.kind != .jalr && insn.method env == insn.dstMethod env &&
    (insn.method env).any JavaMethod.hasMultipleFunctions

/-- The size from which on float operations are no longer inlined. -/
def builtinLimit : Nat := 20000

def builtin (env : Env) (insn : Instruction) : Option Builtin :=
  match insn.kind with
  | .jal | .jalReturn =>
    (insn.dstMethod env).bind (fun dst =>
      Builtin.matchName (env.config.optimizeInlines &&
        (insn.method env).any (fun m => m.bytecodeSize < builtinLimit)) dst.name)
  | _ => none

def fillDestinations (env : Env) (insn : Instruction) : List Reg :=
  match insn.kind with
  | .rfmt _ | .addu | .subu | .nor | .shiftInstruction _ | .shiftInstructionV _ | .slt | .sltu =>
    [insn.rd]
  | .ifmt _ | .addi | .lui | .slti | .sltiu => [insn.rt]
  | .mulDiv _ => [Reg.lo, Reg.hi]
  | .mult | .div => if insn.usingHi env then [Reg.lo, Reg.hi] else [Reg.lo]
  | .mfxx => [insn.rd]
  | .mtxx _ => [insn.rd]
  | .jal | .jalr | .jalReturn =>
    [Reg.v0, Reg.v1] ++ ((insn.builtin env).map Builtin.fillDestinations).getD [] ++
      if insn.callsOwnMethod env then [Reg.ra] else []
  | .loadXX _ | .lw | .partialLoad .. | .lwc1 =>
    if env.config.optimizePartialMemoryOps then [insn.rt, Reg.madr] else [insn.rt]
  | .syscallInsn => if (env.getSyscall insn.extra).returnsValue then [Reg.v0] else []
  | .compFmtFloat => [insn.rd]
  | .compFmtDouble => [insn.rd, insn.rd + 1]
  | .cvtW => [insn.rd]
  | _ => []

def fillSources (env : Env) (insn : Instruction) : List Reg :=
  match insn.kind with
  | .rfmt _ | .addu | .subu | .nor | .shiftInstructionV _ | .slt | .sltu => [insn.rs, insn.rt]
  | .shiftInstruction _ => [insn.rt]
  | .ifmt _ | .addi | .slti | .sltiu => [insn.rs]
  | .mulDiv _ | .mult | .div => [insn.rs, insn.rt]
  | .mfxx => [insn.rs]
  | .mtxx dst => [dst]
  | .jal | .jalr | .jalReturn =>
    [insn.rs, Reg.a0, Reg.a1, Reg.a2, Reg.a3, Reg.sp] ++
      ((insn.builtin env).map Builtin.fillSources).getD []
  | .jr | .oneRegisterConditionalJump _ => [insn.rs]
  | .twoRegisterConditionalJump _ => [insn.rs, insn.rt]
  | .loadXX _ | .lw | .partialLoad .. | .lwc1 => [insn.rs, Reg.mem]
  | .storeXX _ | .sw | .partialStore _ | .swc1 => [insn.rs, insn.rt, Reg.mem]
  | .syscallRegisterArgument => [insn.argumentRegister]
  | .compFmtFloat | .cmpFmtFloat => [insn.rs, insn.rt]
  | .compFmtDouble | .cmpFmtDouble => [insn.rs, insn.rs + 1, insn.rt, insn.rt + 1]
  | .cvtW => [insn.rs]
  | _ => []

end Instruction

namespace Entry

/-- Typically a tail call optimization, just "unoptimize". -/
def replaceTailCall (env : Env) (e : Entry) : Entry :=
  if e.insn.opcode = .j ∧
      env.getMethodByAddress e.insn.address ≠ env.getMethodByAddress (e.insn.extra <<< 2) then
    ⟨InstructionFactory.createTailCallJump e.insn.address e.insn.extra, e.delayed, fun _ => rfl⟩
  else e

end Entry

namespace BasicBlock

/-- The write table has an instruction for `reg` after `before`. -/
def written (env : Env) (before : List Instruction) (reg : Reg) : Bool :=
  before.any (fun insn =>
    (reg == insn.rs || reg == insn.rt || reg == insn.rd) &&
      (insn.fillDestinations env).contains reg)

def isPruned (env : Env) (type : BbType) (before : List Instruction) (insn : Instruction) : Bool :=
  env.config.optimizePruneStackStores &&
    ((type == .prologue && insn.opcode == .sw || type == .epilogue && insn.opcode == .lw) &&
      insn.rs == Reg.sp) &&
    mipsCallerSaved.any (fun reg =>
      (type == .prologue && (insn.fillSources env).contains reg && !written env before insn.rt) ||
        (type == .epilogue && (insn.fillDestinations env).contains reg))

def pruneStackStores (env : Env) (type : BbType) :
    List Instruction → List Entry → List Entry
  | _, [] => []
  | before, e :: es =>
    (if isPruned env type before e.insn then
        .single (InstructionFactory.createNop e.insn.address)
      else e) :: pruneStackStores env type (before ++ e.insns) es

/-- The slots after `pass1`. -/
def pass1 (env : Env) (bb : BasicBlock) : List Entry :=
  pruneStackStores env bb.type [] (bb.insns.map (Entry.replaceTailCall env))

end BasicBlock

namespace Function

/-- The slots of a function after `pass1`, in the order of its basic blocks. -/
def pass1 (env : Env) (fn : Function) : List Entry := fn.bbs.flatMap (BasicBlock.pass1 env)

/-- Start always has everything defined. -/
def startRegisters (fn : Function) : List Reg :=
  if fn.isStart then [Reg.sp, Reg.a0, Reg.a1, Reg.a2, Reg.a3, Reg.v0, Reg.v1] else []

def fillDestinations (env : Env) (fn : Function) : List Reg :=
  ((fn.pass1 env).flatMap Entry.insns).flatMap (Instruction.fillDestinations env) ++
    fn.startRegisters

def fillSources (env : Env) (fn : Function) : List Reg :=
  ((fn.pass1 env).flatMap Entry.insns).flatMap (Instruction.fillSources env)

end Function

/-- The members of a method after `pass1`. -/
structure MethodPass1 where
  registerUsage : RegisterUsage
  possibleArguments : List Reg
  returnSize : Nat

namespace MethodPass1

def clobbersReg (p : MethodPass1) (reg : Reg) : Bool := p.registerUsage.count reg > 0

/-- The iterator is the rest of the list; register zero ends it. -/
def getNextRegisterToPass (p : MethodPass1) : List Reg → Reg × List Reg
  | [] => (Reg.zero, [])
  | reg :: regs =>
    if reg ≠ Reg.zero ∧ p.clobbersReg reg = false then p.getNextRegisterToPass regs
    else (reg, regs)

theorem getNextRegisterToPass_length (p : MethodPass1) (it : List Reg)
    (h : (p.getNextRegisterToPass it).1 ≠ Reg.zero) :
    (p.getNextRegisterToPass it).2.length < it.length := by
  fun_induction getNextRegisterToPass p it with
  | case1 => exact absurd rfl h
  | case2 reg regs _ ih => exact Nat.lt_succ_of_lt (ih h)
  | case3 reg regs => exact Nat.lt_succ_self _

/-- The registers the loops over `getNextRegisterToPass` see. -/
def registersFrom (p : MethodPass1) (it : List Reg) : List Reg :=
  if (p.getNextRegisterToPass it).1 ≠ Reg.zero then
    (p.getNextRegisterToPass it).1 :: p.registersFrom (p.getNextRegisterToPass it).2
  else []
termination_by it.length
decreasing_by exact p.getNextRegisterToPass_length it ‹_›

def registersToPass (p : MethodPass1) : List Reg := p.registersFrom p.possibleArguments

/-- `n_registersToPass`, counted by its own loop. -/
def countRegisters (p : MethodPass1) (it : List Reg) (n : Nat) : Nat :=
  if (p.getNextRegisterToPass it).1 ≠ Reg.zero then
    p.countRegisters (p.getNextRegisterToPass it).2 (n + 1)
  else n
termination_by it.length
decreasing_by exact p.getNextRegisterToPass_length it ‹_›

def nRegistersToPass (p : MethodPass1) : Nat := p.countRegisters p.possibleArguments 0

def registerIsArgument (p : MethodPass1) (reg : Reg) : Bool :=
  (p.possibleArguments.takeWhile (· ≠ Reg.zero)).contains reg

/-- The allocation that `pass2` starts with. -/
def regalloc (p : MethodPass1) : RegisterAllocator :=
  RegisterAllocator.setAllocation p.registerUsage

def limitLocals (p : MethodPass1) : Nat := p.regalloc.numberOfLocals

end MethodPass1

namespace JavaMethod

/-- The instructions after `pass1`, those in delay slots among them. -/
def insns (env : Env) (m : JavaMethod) : List Instruction :=
  (m.functions.flatMap (Function.pass1 env)).flatMap Entry.insns

/-- What `fillDestinations` and `fillSources` of the functions count. -/
def filled (env : Env) (m : JavaMethod) : RegisterUsage :=
  RegisterUsage.empty.addAll
    (m.functions.flatMap (fun fn => fn.fillDestinations env ++ fn.fillSources env))

def allArguments : List Reg :=
  [Reg.sp, Reg.fna, Reg.a0, Reg.a1, Reg.a2, Reg.a3, Reg.zero]

/-- Zero-terminate at the last needed register. -/
def truncateArguments (nArgs : Nat) : List Reg :=
  let args := allArguments
  let args := if nArgs ≤ 3 then args.set 5 Reg.zero else args
  let args := if nArgs ≤ 2 then args.set 4 Reg.zero else args
  let args := if nArgs ≤ 1 then args.set 3 Reg.zero else args
  if nArgs = 0 then args.set 2 Reg.zero else args

/-- The symbol `pass1` takes the prototype from. -/
def symbol (env : Env) (m : JavaMethod) : Option ElfSymbol :=
  if env.config.optimizeFunctionReturnArguments then env.getSymbolByAddr m.address else none

def setReturnSize (usage : RegisterUsage) (sym : Option ElfSymbol) : Nat :=
  let size :=
    if usage.count Reg.v0 > 0 ∧ usage.count Reg.v1 > 0 then 2
    else if usage.count Reg.v0 > 0 then 1 else 0
  match sym.bind ElfSymbol.retSize with
  | some n => if n ≤ 2 then n else size
  | none => size

/-- `pass1` once the functions have counted their registers in `usage`. -/
def pass1From (env : Env) (m : JavaMethod) (usage : RegisterUsage) : MethodPass1 :=
  let usage := if m.hasMultipleFunctions then usage.add Reg.fna else usage
  { registerUsage := usage
    possibleArguments :=
      match (m.symbol env).bind ElfSymbol.nArgs with
      | some n => truncateArguments n
      | none => allArguments
    returnSize := setReturnSize usage (m.symbol env) }

def pass1 (env : Env) (m : JavaMethod) : MethodPass1 := m.pass1From env (m.filled env)

def returnType (env : Env) (p : MethodPass1) : Char :=
  if env.config.threadSafe then
    if p.returnSize = 2 then 'J' else if p.returnSize = 1 then 'I' else 'V'
  else if p.returnSize ≥ 1 then 'I' else 'V'

def getJavaMethodName (env : Env) (m : JavaMethod) (p : MethodPass1) : String :=
  m.name ++ "(" ++ String.ofList (List.replicate p.nRegistersToPass 'I' ++ [')', returnType env p])

end JavaMethod

end Cibyl
