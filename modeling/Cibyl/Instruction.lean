import Cibyl.Jvm

namespace Cibyl
set_option autoImplicit true

open Jvm (IntOp Cond1 Cond2 ReadWhat WriteWhat)

/-- `word_size` of a partial load or store: 8 or 16. -/
inductive WordSize where
  | byte | half
  deriving DecidableEq, Repr

inductive UnsignedOp where
  | multu | divu
  deriving DecidableEq, Repr

/-- The class of an instruction object with its own members. -/
inductive Kind where
  | rfmt (bc : IntOp) | addu | subu | nor
  | shiftInstruction (bc : IntOp) | shiftInstructionV (bc : IntOp)
  | ifmt (bc : IntOp) | addi | lui
  | mulDiv (bc : UnsignedOp) | mult | div | mfxx | mtxx (dst : Reg)
  | slt | sltu | slti | sltiu
  | jump | jal | jalr | jalReturn | jr
  | oneRegisterConditionalJump (bc : Cond1) | twoRegisterConditionalJump (bc : Cond2)
  | loadXX (bc : ReadWhat) | lw | partialLoad (wordSize : WordSize) (isSigned : Bool)
  | storeXX (bc : WriteWhat) | sw | partialStore (wordSize : WordSize)
  | lwc1 | swc1
  | nop | delaySlotNop
  | syscallInsn | syscallRegisterArgument | catchInsn
  | compFmtFloat | compFmtDouble | cvtW | cmpFmtFloat | cmpFmtDouble
  deriving DecidableEq, Repr

structure Instruction where
  kind : Kind
  address : Word
  opcode : Opcode
  rs : Reg
  rt : Reg
  rd : Reg
  extra : Word
  deriving DecidableEq, Repr

namespace Kind

def isBranch : Kind → Bool
  | jump | jal | jalr | jalReturn | jr | oneRegisterConditionalJump _
  | twoRegisterConditionalJump _ => true
  | _ => false

def isNop : Kind → Bool
  | nop | delaySlotNop => true
  | _ => false

/-- `getBytecodeSize`; the default is twice the four bytes of an instruction. -/
def bytecodeSize : Kind → Nat
  | loadXX _ | lwc1 => 13
  | lw | sw => 11
  | partialLoad .. => 24
  | partialStore _ => 32
  | _ => 8

end Kind

namespace Instruction

def isBranch (insn : Instruction) : Bool := insn.kind.isBranch

def hasDelaySlot (insn : Instruction) : Bool := insn.isBranch

def isReturnJump (insn : Instruction) : Bool :=
  insn.kind == .jr && insn.rs == Reg.ra

def isRegisterIndirectJump (insn : Instruction) : Bool :=
  insn.kind == .jr && insn.rs != Reg.ra

end Instruction

namespace InstructionFactory

def createNop (address : Word) : Instruction :=
  ⟨.nop, address, .none, 0, 0, 0, 0⟩

def createDelaySlotNop (address : Word) : Instruction :=
  ⟨.delaySlotNop, address, .none, 0, 0, 0, 0⟩

def createTailCallJump (address extra : Word) : Instruction :=
  ⟨.jalReturn, address, .jal, 0, 0, 0, extra⟩

def bcondOpcode (word : Word) : Opcode :=
  if word &&& 0x1f0000 = 0 then .bltz
  else if word &&& 0x1f0000 = 0x10000 then .bgez
  else if word &&& 0x1f0000 = 0x100000 then .bltzal
  else if word &&& 0x1f0000 = 0x110000 then .bgezal
  else .unimp

def opEntry (word : Word) : Opcode × Fmt :=
  mipsOpEntries.getD ((word >>> 26) &&& 0x3f).toNat (.res, .ifmt)

/-- The last float compare lies past the end of its table; what is read there is not a MIPS
opcode the translator knows. -/
def decodeOpcode (word : Word) : Opcode :=
  match (opEntry word).1 with
  | .special => mipsSpecialTable.getD (word &&& 0x3f).toNat .res
  | .bcond => bcondOpcode word
  | .cop1 => mipsCop1Table.getD (word &&& 0x3f).toNat .res
  | opcode => opcode

/-- The immediate, shift amount or jump target, by the format of the table entry. -/
def decodeExtra (word : Word) : Word :=
  match opEntry word with
  | (opcode, .ifmt) =>
    let extra := word &&& 0xffff
    if !mipsZeroExtendOpcode opcode && extra &&& 0x8000 == 0x8000 then 0xffff0000 ||| extra
    else extra
  | (_, .rfmt) => (word >>> 6) &&& 0x1f
  | (_, .jfmt) => word &&& 0x03ffffff

/-- The class chosen for an opcode with the `rs`, `rt`, `rd` and `extra` of its constructor call. -/
def ofOpcode (address word : Word) (opcode : Opcode) (rs rt rd : Reg) (extra : Word) :
    Option Instruction :=
  let fs := encodingGetFs word
  let ft := encodingGetFt word
  let fd := encodingGetFd word
  let double := cp1FmtIsDouble (encodingGetCp1Fmt word)
  match opcode with
  | .addu => some ⟨.addu, address, opcode, rs, rt, rd, 0⟩
  | .add => some ⟨.rfmt .iadd, address, opcode, rs, rt, rd, 0⟩
  | .sub => some ⟨.rfmt .isub, address, opcode, rs, rt, rd, 0⟩
  | .subu => some ⟨.subu, address, opcode, rs, rt, rd, 0⟩
  | .xor => some ⟨.rfmt .ixor, address, opcode, rs, rt, rd, 0⟩
  | .and => some ⟨.rfmt .iand, address, opcode, rs, rt, rd, 0⟩
  | .or => some ⟨.rfmt .ior, address, opcode, rs, rt, rd, 0⟩
  | .nor => some ⟨.nor, address, opcode, rs, rt, rd, 0⟩
  | .srav => some ⟨.shiftInstructionV .ishr, address, opcode, rs, rt, rd, 0⟩
  | .sllv => some ⟨.shiftInstructionV .ishl, address, opcode, rs, rt, rd, 0⟩
  | .srlv => some ⟨.shiftInstructionV .iushr, address, opcode, rs, rt, rd, 0⟩
  | .sll => some ⟨.shiftInstruction .ishl, address, opcode, rs, rt, rd, extra⟩
  | .sra => some ⟨.shiftInstruction .ishr, address, opcode, rs, rt, rd, extra⟩
  | .srl => some ⟨.shiftInstruction .iushr, address, opcode, rs, rt, rd, extra⟩
  | .addi => some ⟨.addi, address, opcode, rs, rt, rd, extra⟩
  | .addiu => some ⟨.addi, address, opcode, rs, rt, rd, extra⟩
  | .xori => some ⟨.ifmt .ixor, address, opcode, rs, rt, rd, extra⟩
  | .andi => some ⟨.ifmt .iand, address, opcode, rs, rt, rd, extra⟩
  | .ori => some ⟨.ifmt .ior, address, opcode, rs, rt, rd, extra⟩
  | .jal => some ⟨.jal, address, opcode, 0, 0, 0, extra⟩
  | .jalr => some ⟨.jalr, address, opcode, rs, 0, 0, 0⟩
  | .j => some ⟨.jump, address, opcode, 0, 0, 0, extra⟩
  | .bgezal => some ⟨.jal, address, opcode, 0, 0, 0, extra⟩
  | .lw => some ⟨.lw, address, opcode, rs, rt, 0, extra⟩
  | .sw => some ⟨.sw, address, opcode, rs, rt, 0, extra⟩
  | .lb => some ⟨.partialLoad .byte true, address, opcode, rs, rt, 0, extra⟩
  | .lbu => some ⟨.partialLoad .byte false, address, opcode, rs, rt, 0, extra⟩
  | .lh => some ⟨.partialLoad .half true, address, opcode, rs, rt, 0, extra⟩
  | .lhu => some ⟨.partialLoad .half false, address, opcode, rs, rt, 0, extra⟩
  | .lwl => some ⟨.loadXX .wordLeft, address, opcode, rs, rt, 0, extra⟩
  | .lwr => some (createNop address)
  | .sb => some ⟨.partialStore .byte, address, opcode, rs, rt, 0, extra⟩
  | .sh => some ⟨.partialStore .half, address, opcode, rs, rt, 0, extra⟩
  | .swl => some ⟨.storeXX .wordLeft, address, opcode, rs, rt, 0, extra⟩
  | .swr => some (createNop address)
  | .brk => some (createNop address)
  | .mult => some ⟨.mult, address, opcode, rs, rt, 0, 0⟩
  | .multu => some ⟨.mulDiv .multu, address, opcode, rs, rt, rd, extra⟩
  | .div => some ⟨.div, address, opcode, rs, rt, 0, 0⟩
  | .divu => some ⟨.mulDiv .divu, address, opcode, rs, rt, rd, extra⟩
  | .mflo => some ⟨.mfxx, address, opcode, Reg.lo, 0, rd, 0⟩
  | .mfhi => some ⟨.mfxx, address, opcode, Reg.hi, 0, rd, 0⟩
  | .mtlo => some ⟨.mtxx Reg.lo, address, opcode, rd, 0, 0, 0⟩
  | .mthi => some ⟨.mtxx Reg.hi, address, opcode, rd, 0, 0, 0⟩
  | .jr => some ⟨.jr, address, opcode, rs, 0, 0, 0⟩
  | .lui => some ⟨.lui, address, opcode, 0, rt, 0, extra &&& 0xffff⟩
  | .sltu => some ⟨.sltu, address, opcode, rs, rt, rd, 0⟩
  | .slt => some ⟨.slt, address, opcode, rs, rt, rd, 0⟩
  | .sltiu => some ⟨.sltiu, address, opcode, rs, rt, 0, extra⟩
  | .slti => some ⟨.slti, address, opcode, rs, rt, 0, extra⟩
  | .beq =>
    if rt = 0 then some ⟨.oneRegisterConditionalJump .ifeq, address, opcode, rs, 0, 0, extra⟩
    else some ⟨.twoRegisterConditionalJump .if_icmpeq, address, opcode, rs, rt, 0, extra⟩
  | .bne =>
    if rt = 0 then some ⟨.oneRegisterConditionalJump .ifne, address, opcode, rs, 0, 0, extra⟩
    else some ⟨.twoRegisterConditionalJump .if_icmpne, address, opcode, rs, rt, 0, extra⟩
  | .bgez => some ⟨.oneRegisterConditionalJump .ifge, address, opcode, rs, 0, 0, extra⟩
  | .bgtz => some ⟨.oneRegisterConditionalJump .ifgt, address, opcode, rs, 0, 0, extra⟩
  | .blez => some ⟨.oneRegisterConditionalJump .ifle, address, opcode, rs, 0, 0, extra⟩
  | .bltz => some ⟨.oneRegisterConditionalJump .iflt, address, opcode, rs, 0, 0, extra⟩
  | .lwc1 => some ⟨.lwc1, address, opcode, rs, intToFpuReg rt, 0, extra⟩
  | .swc1 => some ⟨.swc1, address, opcode, rs, intToFpuReg rt, 0, extra⟩
  | .cvtW => some ⟨.cvtW, address, opcode, fs, 0, fd, 0⟩
  | .fadd | .fsub | .fmul | .fdiv =>
    some ⟨if double then .compFmtDouble else .compFmtFloat, address, opcode, fs, ft, fd, 0⟩
  | .cUle => some ⟨if double then .cmpFmtDouble else .cmpFmtFloat, address, opcode, fs, ft, 0, 0⟩
  | _ => none

/-- `none` where the source panics or exits: not an instruction, or one not implemented. -/
def create (address word : Word) : Option Instruction :=
  if word >>> 24 = 0xff then
    some ⟨.syscallInsn, address, .cibylSyscall, 0, 0, 0, word &&& 0x00ffffff⟩
  else if word >>> 16 = 0xfefe then
    some ⟨.syscallRegisterArgument, address, .cibylRegisterArgument, 0, 0, 0, word &&& 0x1f⟩
  else if word >>> 24 = 0xfd then
    some ⟨.catchInsn, address, .none, 0, 0, 0, word &&& 0x00ffffff⟩
  else
    ofOpcode address word (decodeOpcode word) (encodingGetRs word) (encodingGetRt word)
      (encodingGetRd word) (decodeExtra word)

end InstructionFactory

end Cibyl
