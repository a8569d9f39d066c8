import Cibyl.Emit
import Cibyl.Program

namespace Cibyl
set_option autoImplicit true

open Jvm (Op IntOp LongOp External ReadWhat WriteWhat)
open Emit (op intOp pushconst pushconst_u pushconst_l pushaddress pushindex)

def signext_16 (v : Word) : Word := (v.setWidth 16).signExtend 32

/-- The bytecode size from which on partial accesses are no longer inlined. -/
def inlineLimit : Nat := 32768

def WordSize.readWhat : WordSize → Bool → ReadWhat
  | .byte, true => .byte
  | .byte, false => .byteUnsigned
  | .half, true => .short
  | .half, false => .shortUnsigned

def WordSize.writeWhat : WordSize → WriteWhat
  | .byte => .byte
  | .half => .short

/-- `b_v`: selects the byte lane from the address. -/
def WordSize.lane : WordSize → Word
  | .byte => 3
  | .half => 2

def WordSize.mask : WordSize → Word
  | .byte => 0xff
  | .half => 0xffff

namespace Instruction

/-- The object looked up in `pass1`, which panics when there is none. -/
def method (env : Env) (insn : Instruction) : Option JavaMethod :=
  env.getMethodByAddress insn.address

def usingHi (env : Env) (insn : Instruction) : Bool :=
  (insn.method env).any (fun m => m.opcodeIsUsed .mfhi || m.opcodeIsUsed .mthi)

/-- Loads and stores of `ra` are left out of single-function methods. -/
def skipsRa (env : Env) (insn : Instruction) : Bool :=
  insn.rt == Reg.ra && !(insn.method env).any JavaMethod.hasMultipleFunctions

def inlinesPartial (env : Env) (insn : Instruction) : Bool :=
  !(env.config.optimizePartialMemoryOps || !env.config.optimizeInlines) &&
    !(insn.method env).any (fun m => m.bytecodeSize > inlineLimit)

def rfmtCode (bc : IntOp) (insn : Instruction) : List Bc :=
  [.pushregister insn.rs, .pushregister insn.rt, intOp bc, .popregister insn.rd]

def adduCode (insn : Instruction) : List Bc :=
  if insn.rt = 0 ∧ insn.rs = 0 ∧ insn.rd = 0 then []
  else if insn.rt ≠ 0 ∧ insn.rs ≠ 0 then insn.rfmtCode .iadd
  else if insn.rt = 0 then [.pushregister insn.rs, .popregister insn.rd]
  else [.pushregister insn.rt, .popregister insn.rd]

def subuCode (insn : Instruction) : List Bc :=
  if insn.rs = 0 then [.pushregister insn.rt, op (.intUn .ineg), .popregister insn.rd]
  else insn.rfmtCode .isub

def norCode (insn : Instruction) : List Bc :=
  (if insn.rs ≠ 0 ∨ insn.rt ≠ 0 then
    (if insn.rs ≠ 0 ∧ insn.rt ≠ 0 then
      [.pushregister insn.rs, .pushregister insn.rt, intOp .ior]
    else if insn.rs ≠ 0 then [.pushregister insn.rs]
    else [.pushregister insn.rt]) ++ [pushconst (-1), intOp .ixor]
  else [pushconst (-1)]) ++ [.popregister insn.rd]

def shiftCode (bc : IntOp) (insn : Instruction) : List Bc :=
  if insn.rt = 0 ∧ insn.extra = 0 ∧ insn.rd = 0 then []
  else [.pushregister insn.rt, pushconst insn.extra, intOp bc, .popregister insn.rd]

def shiftVCode (bc : IntOp) (insn : Instruction) : List Bc :=
  [.pushregister insn.rt, .pushregister insn.rs, intOp bc, .popregister insn.rd]

def ifmtCode (bc : IntOp) (insn : Instruction) : List Bc :=
  [.pushregister insn.rs, pushconst insn.extra, intOp bc, .popregister insn.rt]

def addiCode (insn : Instruction) : List Bc :=
  let extra := (signext_16 insn.extra).toInt
  if insn.rs = 0 then [pushconst insn.extra, .popregister insn.rt]
  else if insn.rt = insn.rs ∧ -32768 ≤ extra ∧ extra ≤ 32767 then [.iinc insn.rt extra]
  else insn.ifmtCode .iadd

def luiCode (insn : Instruction) : List Bc :=
  [pushconst_u (insn.extra <<< 16), .popregister insn.rt]

/-- Pop a `long` with its high half to `high` and its low half to `low`. -/
def splitLong (high low : Reg) : List Bc :=
  [op .dup2, pushconst 32, op (.longShift .lushr), op .l2i, .popregister high, op .l2i,
    .popregister low]

def mulDivCode (bc : UnsignedOp) (insn : Instruction) : List Bc :=
  [.pushregister insn.rs, .pushregister insn.rt,
    op (match bc with | .multu => .multu | .divu => .divu)] ++ splitLong Reg.hi Reg.lo

/-- `using_lo` starts as 0x123, so it holds in every method. -/
def multCode (env : Env) (insn : Instruction) : List Bc :=
  if insn.usingHi env then
    [.pushregister insn.rs, op .i2l, .pushregister insn.rt, op .i2l, op (.longOp .lmul)] ++
      splitLong Reg.hi Reg.lo
  else
    [.pushregister insn.rs, .pushregister insn.rt, intOp .imul, .popregister Reg.lo]

def divCode (env : Env) (insn : Instruction) : List Bc :=
  if insn.usingHi env then
    [.pushregister insn.rs, .pushregister insn.rt, op .dup2, intOp .idiv, .popregister Reg.lo,
      intOp .irem, .popregister Reg.hi]
  else
    [.pushregister insn.rs, .pushregister insn.rt, intOp .idiv, .popregister Reg.lo]

def mfxxCode (insn : Instruction) : List Bc := [.pushregister insn.rs, .popregister insn.rd]

def mtxxCode (dst : Reg) (insn : Instruction) : List Bc :=
  [.pushregister insn.rs, .popregister dst]

/-- The tail of the four set instructions: `lcmp` on the swapped operands gives 1 for less. -/
def lessCode (rd : Reg) : List Bc :=
  [op .lcmp, pushconst 1, intOp .iadd, pushconst 1, intOp .ishr, .popregister rd]

def pushUnsigned (r : Reg) : List Bc :=
  [.pushregister r, op .i2l, pushconst_l 0xffffffff, op (.longOp .land)]

def sltCode (insn : Instruction) : List Bc :=
  [.pushregister insn.rt, op .i2l, .pushregister insn.rs, op .i2l] ++ lessCode insn.rd

def sltuCode (insn : Instruction) : List Bc :=
  pushUnsigned insn.rt ++ pushUnsigned insn.rs ++ lessCode insn.rd

def sltiCode (insn : Instruction) : List Bc :=
  [pushconst insn.extra, op .i2l, .pushregister insn.rs, op .i2l] ++ lessCode insn.rt

def sltiuCode (insn : Instruction) : List Bc :=
  [pushconst_l (insn.extra.setWidth 64)] ++ pushUnsigned insn.rs ++ lessCode insn.rt

/-- Either a call to a subroutine or a regular function call. -/
def loadXXCode (env : Env) (bc : ReadWhat) (insn : Instruction) : List Bc :=
  pushaddress insn.rs insn.extra ++
    [if env.config.optimizePartialMemoryOps ∧ insn.opcode ≠ .lwl ∧ insn.opcode ≠ .lwr then
      .item (.jsr (.memoryRead bc))
    else op (.memoryRead bc), .popregister insn.rt]

def lwCode (env : Env) (insn : Instruction) : List Bc :=
  if insn.skipsRa env then []
  else
    [.pushregister Reg.mem] ++ pushindex insn.rs insn.extra ++ [op .iaload, .popregister insn.rt]

/-- `(b_v - ((rs + extra) & b_v)) << 3`. -/
def pushLaneShift (w : WordSize) (insn : Instruction) : List Bc :=
  [pushconst w.lane] ++ pushaddress insn.rs insn.extra ++
    [pushconst w.lane, intOp .iand, intOp .isub, pushconst 3, intOp .ishl]

def extendCode : WordSize → Bool → List Bc
  | .byte, true => [op (.intUn .i2b)]
  | .half, false => [op (.intUn .i2c)]
  | .half, true => [op (.intUn .i2s)]
  | .byte, false => [pushconst 0xff, intOp .iand]

def partialLoadCode (env : Env) (w : WordSize) (isSigned : Bool) (insn : Instruction) : List Bc :=
  if !insn.inlinesPartial env then insn.loadXXCode env (w.readWhat isSigned)
  else if insn.skipsRa env then []
  else
    [.pushregister Reg.mem] ++ pushindex insn.rs insn.extra ++ [op .iaload] ++
      insn.pushLaneShift w ++ [intOp .iushr] ++ extendCode w isSigned ++ [.popregister insn.rt]

def traceStore (bc : WriteWhat) (insn : Instruction) : List Bc :=
  [pushconst insn.address] ++ pushaddress insn.rs insn.extra ++
    [.pushregister insn.rt, op (.memoryWritePc bc)]

def storeXXCode (env : Env) (bc : WriteWhat) (insn : Instruction) : List Bc :=
  (if env.config.traceStores then insn.traceStore bc else []) ++
    pushaddress insn.rs insn.extra ++ [.pushregister insn.rt, op (.memoryWrite bc)]

def swCode (env : Env) (insn : Instruction) : List Bc :=
  if insn.skipsRa env then []
  else
    (if env.config.traceStores then insn.traceStore .word else []) ++
      [.pushregister Reg.mem] ++ pushindex insn.rs insn.extra ++
      [.pushregister insn.rt, op .iastore]

def partialStoreCode (env : Env) (w : WordSize) (insn : Instruction) : List Bc :=
  if !insn.inlinesPartial env then insn.storeXXCode env w.writeWhat
  else if insn.skipsRa env then []
  else
    [.pushregister Reg.mem] ++ pushindex insn.rs insn.extra ++
      [op .dup2, op .iaload, pushconst w.mask] ++ insn.pushLaneShift w ++
      [op .dup_x2, intOp .ishl, pushconst (-1), intOp .ixor, intOp .iand, op .swap,
        .pushregister insn.rt, pushconst w.mask, intOp .iand, op .swap, intOp .ishl, intOp .ior,
        op .iastore]

def syscallCode (env : Env) (insn : Instruction) : List Bc :=
  let sysc := env.getSyscall insn.extra
  op (.external ⟨"Syscalls/" ++ sysc.name, List.replicate sysc.nrArguments .int,
      if sysc.returnsValue then some .int else none⟩) ::
    if sysc.returnsValue then [.popregister Reg.v0] else []

/-- The register named by the low five bits of an argument word. -/
def argumentRegister (insn : Instruction) : Reg := registerField insn.extra 0

def catchCode (env : Env) (insn : Instruction) : List Bc :=
  let start := env.tryInstruction insn.address
  (env.exceptionClasses insn.extra).map (fun cl =>
      .item (.catch_ cl (.addr start) (.addr insn.address) (.handler start insn.address))) ++
    [.item (.label (.addr insn.address))]

/-- `pass2` of the classes that are not branches. The float classes only print a warning. -/
def code (env : Env) (insn : Instruction) : List Bc :=
  match insn.kind with
  | .rfmt bc => insn.rfmtCode bc
  | .addu => insn.adduCode
  | .subu => insn.subuCode
  | .nor => insn.norCode
  | .shiftInstruction bc => insn.shiftCode bc
  | .shiftInstructionV bc => insn.shiftVCode bc
  | .ifmt bc => insn.ifmtCode bc
  | .addi => insn.addiCode
  | .lui => insn.luiCode
  | .mulDiv bc => insn.mulDivCode bc
  | .mult => insn.multCode env
  | .div => insn.divCode env
  | .mfxx => insn.mfxxCode
  | .mtxx dst => insn.mtxxCode dst
  | .slt => insn.sltCode
  | .sltu => insn.sltuCode
  | .slti => insn.sltiCode
  | .sltiu => insn.sltiuCode
  | .loadXX bc => insn.loadXXCode env bc
  | .lw => insn.lwCode env
  | .partialLoad w isSigned => insn.partialLoadCode env w isSigned
  | .storeXX bc => insn.storeXXCode env bc
  | .sw => insn.swCode env
  | .partialStore w => insn.partialStoreCode env w
  | .syscallInsn => insn.syscallCode env
  | .syscallRegisterArgument => [.pushregister insn.argumentRegister]
  | .catchInsn => insn.catchCode env
  | _ => []

end Instruction

end Cibyl
