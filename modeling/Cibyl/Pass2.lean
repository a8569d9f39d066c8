import Cibyl.Pass1

namespace Cibyl
set_option autoImplicit true

open Jvm (Op Item Label Ty External)
open Emit (op intOp pushconst)

/-- A handler of `catch`, or one that a setjmp adds. -/
inductive ExceptionHandler where
  | exception (start stop : Word)
  | setjmp (start stop target : Word)
  deriving DecidableEq, Repr

/-- The members of a method that `pass2` of its instructions changes. -/
structure MethodState where
  returnLocations : List Word
  exceptionHandlers : List ExceptionHandler

/-- The lines an emission adds, and the state it leaves. -/
abbrev Emission := MethodState → List Bc × MethodState

namespace Emission

def nothing : Emission := fun st => ([], st)

def lines (bs : List Bc) : Emission := fun st => (bs, st)

def seq (e f : Emission) : Emission := fun st =>
  let (bs, st) := e st
  let (cs, st) := f st
  (bs ++ cs, st)

def all : List Emission → Emission
  | [] => nothing
  | e :: es => e.seq (all es)

end Emission

namespace CallTableMethod

def registers : List Reg := [Reg.sp, Reg.a0, Reg.a1, Reg.a2, Reg.a3, Reg.v0, Reg.v1]

/-- `CallTableMethod::pass1`. -/
def pass1 : MethodPass1 where
  registerUsage := RegisterUsage.empty.addAll registers
  possibleArguments := JavaMethod.allArguments
  returnSize := 2

def javaMethodName (env : Env) : String :=
  if env.config.threadSafe then "call(IIIIII)J" else "call(IIIIII)I"

def name : String := "call"

end CallTableMethod

def returnTy (env : Env) (p : MethodPass1) : Option Ty :=
  if env.config.threadSafe then
    if p.returnSize = 2 then some .long else if p.returnSize = 1 then some .int else none
  else if p.returnSize ≥ 1 then some .int else none

def invokestatic (env : Env) (cls method : String) (nArgs : Nat) (result : Option Ty) : Bc :=
  op (.external ⟨env.jasminPackagePath ++ cls ++ "/" ++ method, List.replicate nArgs .int, result⟩)

/-- The call of `call` in the call table class. -/
def invokeCallTable (env : Env) : Bc :=
  invokestatic env (env.getClassByMethodName CallTableMethod.name)
    (CallTableMethod.javaMethodName env) 6 (returnTy env CallTableMethod.pass1)

namespace Instruction

/-- Push a register, or the function index where the callee takes one. -/
def passRegister (idx : Option Nat) (reg : Reg) : Bc :=
  if reg = Reg.fna then
    match idx with
    | some i => pushconst (BitVec.ofNat 32 i)
    | none => .item .abort
  else .pushregister reg

def passCode (dst : JavaMethod) (p : MethodPass1) (addr : Word) : List Bc :=
  p.registersToPass.map (passRegister (dst.getFunctionIndexByAddress addr))

def popReturnValue (env : Env) (p : MethodPass1) : List Bc :=
  if env.config.threadSafe then
    if p.returnSize = 2 then splitLong Reg.v1 Reg.v0
    else if p.returnSize = 1 then [.popregister Reg.v0] else []
  else if p.returnSize = 2 then [op .getSavedV1, .popregister Reg.v1, .popregister Reg.v0]
  else if p.returnSize = 1 then [.popregister Reg.v0] else []

/-- The call itself, of the method at the destination or of the call table. -/
def callCode (env : Env) (insn : Instruction) : List Bc :=
  if insn.kind = .jalr then
    CallTableMethod.pass1.registersToPass.map (passRegister none) ++ [invokeCallTable env] ++
      popReturnValue env CallTableMethod.pass1
  else
    match insn.dstMethod env with
    | none => [.item .abort]
    | some dst =>
      let p := dst.pass1 env
      passCode dst p (insn.extra <<< 2) ++
        [invokestatic env (env.getClassByMethodName dst.name) (dst.getJavaMethodName env p)
          p.nRegistersToPass (returnTy env p)] ++ popReturnValue env p

/-- The range a setjmp handler is named after. -/
def methodRange (env : Env) (insn : Instruction) : Word × Word :=
  match insn.method env with
  | none => (0, 0)
  | some m => (m.address, m.address + BitVec.ofNat 32 m.size)

/-- `Jal::pass2` after the delay slot. -/
def jalCode (env : Env) (insn : Instruction) : Emission := fun st =>
  match insn.builtin env with
  | some b =>
    let (start, stop) := insn.methodRange env
    (b.code start stop insn.address,
      if b = .setjmp then
        { st with exceptionHandlers := st.exceptionHandlers ++ [.setjmp start stop insn.address] }
      else st)
  | none =>
    if insn.opcode = .jal ∧ insn.callsOwnMethod env then
      ([pushconst (BitVec.ofNat 32 st.returnLocations.length), .popregister Reg.ra,
          .item (.goto (.addr (insn.extra <<< 2)))],
        { st with returnLocations := st.returnLocations ++ [insn.address + 8] })
    else (insn.callCode env, st)

/-- The target of a conditional branch. -/
def dst (insn : Instruction) : Word := insn.address + 4 + (insn.extra <<< 2)

/-- `pass2`, with that of the instruction in the delay slot. -/
def pass2 (env : Env) (insn : Instruction) (delayed : Emission) : Emission :=
  match insn.kind with
  | .jump =>
    delayed.seq (.lines (if env.getBranchTarget (insn.extra <<< 2) then
      [.item (.goto (.addr (insn.extra <<< 2)))] else []))
  | .jal => delayed.seq (insn.jalCode env)
  | .jalr => (Emission.lines [.pushregister insn.rs]).seq (delayed.seq (insn.jalCode env))
  | .jalReturn =>
    delayed.seq ((insn.jalCode env).seq (.lines [.item (.goto .functionReturn)]))
  | .jr =>
    if insn.rs = Reg.ra then delayed.seq (.lines [.item (.goto .functionReturn)])
    else (Emission.lines [.pushregister insn.rs]).seq
      (delayed.seq (.lines [.item (.goto .localJumptab)]))
  | .oneRegisterConditionalJump bc =>
    (Emission.lines [.pushregister insn.rs]).seq
      (delayed.seq (.lines [.item (.cond1 bc (.addr insn.dst))]))
  | .twoRegisterConditionalJump bc =>
    (Emission.lines [.pushregister insn.rs, .pushregister insn.rt]).seq
      (delayed.seq (.lines [.item (.cond2 bc (.addr insn.dst))]))
  | _ => .lines (insn.code env)

end Instruction

namespace Entry

def delayedPass2 (env : Env) (e : Entry) : Emission :=
  match e.delayed with
  | none => .nothing
  | some d => d.pass2 env .nothing

def hasLabel (env : Env) (e : Entry) : Bool :=
  (env.isBranchTarget e.insn.address || env.hasJumptabLabel e.insn.address) &&
    e.insn.kind != .delaySlotNop

def traced (env : Env) (insn : Instruction) : Bool :=
  !insn.kind.isNop && (env.config.traceStart.toNat ≤ insn.address.toNat &&
    insn.address.toNat < env.config.traceEnd.toNat)

/-- `pushRegister` of the tracer, which leaves out `ra`. -/
def traceRegister (reg : Reg) : Bc := if reg ≠ Reg.ra then .pushregister reg else pushconst 0

def traceRegisterValues (insn : Instruction) : List Bc :=
  [traceRegister insn.rs, traceRegister insn.rt, traceRegister insn.rd,
    op (.external ⟨"CRunTime/emitRegisterTrace", [.int, .int, .int], none⟩)]

def traceCode (env : Env) (e : Entry) : List Bc :=
  if traced env e.insn then
    [op (.external ⟨"ldc", [], some .ref⟩), op (.external ⟨"CRunTime/emitTrace", [.ref], none⟩)] ++
      e.insns.flatMap traceRegisterValues
  else []

/-- A delay-slot instruction that has a label is jumped over and emitted again. -/
def againCode (env : Env) (e : Entry) : Emission :=
  match e.delayed with
  | none => .nothing
  | some d =>
    if e.insn.hasDelaySlot && env.hasJumptabLabel d.address then
      (Emission.lines [.item (.goto (.out d.address)), .item (.label (.addr d.address))]).seq
        ((d.pass2 env .nothing).seq (.lines [.item (.label (.out d.address))]))
    else .nothing

/-- One round of the loop of `BasicBlock::pass2`. -/
def pass2 (env : Env) (e : Entry) : Emission :=
  (Emission.lines ((if e.hasLabel env then [.item (.label (.addr e.insn.address))] else []) ++
    e.traceCode env)).seq ((e.insn.pass2 env (e.delayedPass2 env)).seq (e.againCode env))

end Entry

namespace ExceptionHandler

def label : ExceptionHandler → Label
  | exception start stop | setjmp start stop _ => .handler start stop

/-- A handler starts with the exception on the stack. -/
def pass2 (env : Env) : ExceptionHandler → List Bc
  | exception start stop =>
    [.item (.label (.handler start stop)),
      op (.external ⟨"CRunTime/registerObject", [.ref], some .int⟩),
      .pushregister Reg.ecb, op .swap, .pushregister Reg.sp, op .swap, .pushregister Reg.ear,
      pushconst 0, pushconst 0, invokeCallTable env, op .pop, .item (.goto (.addr stop))]
  | setjmp start stop target =>
    [.item (.label (.handler start stop)), op .dup,
      op (.external ⟨"SetjmpException/getCookie", [.ref], some .int⟩), pushconst 2, intOp .ishr,
      .pushregister Reg.mem, op .swap, op .iaload, pushconst target,
      .item (.cond2 .if_icmpne (.setjmpNotThis start stop)),
      op (.external ⟨"SetjmpException/getValue", [.ref], some .int⟩), .popregister Reg.v0,
      .item (.goto (.addr target)), .item (.label (.setjmpNotThis start stop)), .item .athrow]

end ExceptionHandler

namespace JavaMethod

/-- A subroutine is called with the return address on top of the address to load. -/
def loadSubroutineOps (w : WordSize) (isSigned : Bool) : List Bc :=
  [.astore Reg.madr, op .dup, .pushregister Reg.mem, op .swap, pushconst 2, intOp .iushr,
    op .iaload, op .swap, pushconst w.lane, intOp .iand, pushconst w.lane, op .swap, intOp .isub,
    pushconst 3, intOp .ishl, intOp .iushr] ++ Instruction.extendCode w isSigned

def loadSubroutineBody (w : WordSize) (isSigned : Bool) : List Bc :=
  loadSubroutineOps w isSigned ++ [.ret Reg.madr]

def emitLoadSubroutine (w : WordSize) (isSigned : Bool) : List Bc :=
  .item (.label (.memoryRead (w.readWhat isSigned))) :: loadSubroutineBody w isSigned

/-- The stores have no subroutine. -/
def emitSubroutineForOp : Opcode → List Bc
  | .lb => emitLoadSubroutine .byte true
  | .lbu => emitLoadSubroutine .byte false
  | .lh => emitLoadSubroutine .half true
  | .lhu => emitLoadSubroutine .half false
  | _ => []

def opsToCheck : List Opcode := [.lb, .lbu, .lh, .lhu, .sb, .sh]

def subroutineOps (m : JavaMethod) : List Opcode :=
  (m.functions.flatMap (fun fn => opsToCheck.filter fn.opcodeIsUsed)).eraseDups

def emitSubroutines (m : JavaMethod) : List Bc := m.subroutineOps.flatMap emitSubroutineForOp

def initRegister (m : JavaMethod) (reg : Reg) : List Bc :=
  [if m.hasMultipleFunctions ∧ reg = Reg.ra then pushconst (-1)
    else if reg = Reg.mem then op .getMemory else pushconst 0, .popregister reg]

/-- The body of the loop over the registers. -/
def initStep (m : JavaMethod) (p : MethodPass1) (reg : Reg) : List Bc :=
  if reg = Reg.fna ∧ p.registerUsage.count reg > 0 ∧ m.hasMultipleFunctions = false then
    [.item .abort]
  else if p.registerIsArgument reg then []
  else if p.registerUsage.count reg > 0 then m.initRegister reg else []

/-- Zero all used registers that are not passed as arguments. -/
def initRegisters (m : JavaMethod) (p : MethodPass1) : List Bc :=
  (List.finRange 86).flatMap (m.initStep p)

def functionTable (m : JavaMethod) : List Bc :=
  if m.hasMultipleFunctions then
    [.pushregister Reg.fna,
      .item (.tableswitch (m.functions.map (fun fn => .addr fn.address)) .functionReturn)]
  else []

def functionCode (env : Env) (m : JavaMethod) (fn : Function) : Emission :=
  (Emission.lines (if m.hasMultipleFunctions then [.item (.label (.addr fn.address))] else [])).seq
    (.all ((fn.pass1 env).map (Entry.pass2 env)))

def jumptabCode (env : Env) (m : JavaMethod) : List Bc :=
  if m.functions.any Function.registerIndirectJumps then
    [.item (.goto .functionReturn), .item (.label .localJumptab),
      .item (.lookupswitch ((env.jumptabLabels m).map (fun a => (a, .addr a))) .functionReturn)]
  else []

def returnLocationCode (m : JavaMethod) (st : MethodState) : List Bc :=
  if m.hasMultipleFunctions ∧ st.returnLocations ≠ [] then
    [.pushregister Reg.ra,
      .item (.tableswitch (st.returnLocations.map .addr) .functionReturnNonLocal),
      .item (.label .functionReturnNonLocal)]
  else []

def returnCode (env : Env) (p : MethodPass1) : List Bc :=
  if env.config.threadSafe then
    if p.returnSize = 2 then
      [.pushregister Reg.v1, op .i2l, pushconst 32, op (.longShift .lshl), .pushregister Reg.v0,
        op .i2l, op (.longOp .lor), .item .lreturn]
    else if p.returnSize = 1 then [.pushregister Reg.v0, .item .ireturn]
    else [.item .return_]
  else
    (if p.returnSize = 2 then [.pushregister Reg.v1, op .putSavedV1] else []) ++
      if p.returnSize ≥ 1 then [.pushregister Reg.v0, .item .ireturn] else [.item .return_]

/-- The handlers that `pass1` of the catch instructions has added. -/
def catchHandlers (env : Env) (m : JavaMethod) : List ExceptionHandler :=
  (m.insns env).filterMap (fun insn =>
    if insn.kind = .catchInsn then
      some (.exception (env.tryInstruction insn.address) insn.address) else none)

def functionsCode (env : Env) (m : JavaMethod) : List Bc × MethodState :=
  Emission.all (m.functions.map (m.functionCode env)) ⟨[], m.catchHandlers env⟩

/-- The lines of the body, before registers become locals. -/
def pass2Lines (env : Env) (m : JavaMethod) : List Bc :=
  let p := m.pass1 env
  let fs := m.functionsCode env
  m.initRegisters p ++
    (if env.config.optimizePartialMemoryOps then
      .item (.goto .javamethodBegin) :: m.emitSubroutines else []) ++
    [.item (.label .javamethodBegin)] ++ m.functionTable ++ fs.1 ++ m.jumptabCode env ++
    [.item (.label .exceptionHandlers)] ++
    fs.2.exceptionHandlers.flatMap (ExceptionHandler.pass2 env) ++
    [.item (.label .functionReturn)] ++ m.returnLocationCode fs.2 ++ returnCode env p

def pass2 (env : Env) (m : JavaMethod) : List Item :=
  Bc.lowerAll (m.pass1 env).regalloc (m.pass2Lines env)

end JavaMethod

end Cibyl
