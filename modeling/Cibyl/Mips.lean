import Mathlib.Algebra.GroupWithZero.Nat
import Mathlib.Data.Nat.Notation
import Mathlib.Tactic.Common

namespace Cibyl
set_option autoImplicit true

/-- A `uint32_t` of the translator, a Java `int` and a MIPS register all have 32 bits. -/
abbrev Word := BitVec 32

abbrev DWord := BitVec 64

abbrev Byte := BitVec 8

/-- `MIPS_register_t` as an index below `N_REGS`. -/
abbrev Reg := Fin 86

instance Reg.neZero : NeZero 86 := ⟨by decide⟩

namespace Reg

abbrev zero : Reg := 0
abbrev v0 : Reg := 2
abbrev v1 : Reg := 3
abbrev a0 : Reg := 4
abbrev a1 : Reg := 5
abbrev a2 : Reg := 6
abbrev a3 : Reg := 7
abbrev s0 : Reg := 16
abbrev s1 : Reg := 17
abbrev s2 : Reg := 18
abbrev s3 : Reg := 19
abbrev s4 : Reg := 20
abbrev s5 : Reg := 21
abbrev s6 : Reg := 22
abbrev s7 : Reg := 23
abbrev sp : Reg := 29
abbrev s8 : Reg := 30
abbrev ra : Reg := 31
abbrev hi : Reg := 32
abbrev lo : Reg := 33
abbrev f0 : Reg := 40
abbrev madr : Reg := 81
abbrev ecb : Reg := 82
abbrev ear : Reg := 83
abbrev fna : Reg := 84
abbrev mem : Reg := 85

/-- Not the registers that the translator adds for an array and for a return address. -/
def Ordinary (r : Reg) : Prop := r ≠ mem ∧ r ≠ madr

instance (r : Reg) : Decidable (Ordinary r) := instDecidableAnd

end Reg

def mipsCallerSaved : List Reg :=
  [Reg.s0, Reg.s1, Reg.s2, Reg.s3, Reg.s4, Reg.s5, Reg.s6, Reg.s7, Reg.s8]

/-- The `mips_opcode_t` values the decoder tables can produce; `none` is the 0 of a nop. -/
inductive Opcode where
  | none
  | add | addi | addiu | addu | and | andi | beq | bgez | bgezal | bgtz | blez | bltz | bltzal
  | bne | div | divu | j | jal | jalr | jr | lb | lbu | lh | lhu | lui | lw | lwl | lwr
  | mfhi | mflo | mthi | mtlo | mult | multu | nor | or | ori | sb | sh | sll | sllv | slt
  | slti | sltiu | sltu | sra | srav | srl | srlv | sub | subu | sw | swl | swr | xor | xori
  | syscall | unimp | res | brk
  | lwc1 | swc1 | fadd | fsub | fmul | fdiv | fsqrt | fabs | fmov | fneg
  | roundL | truncL | ceilL | floorL | ceilW | floorW | roundW | truncW
  | cvtS | cvtD | cvtW | cvtL
  | cF | cUn | cEq | cUeq | cOlt | cUlt | cOle | cUle
  | cSf | cNgle | cSeq | cNgl | cLt | cNge | cLe | cNgt
  | special | bcond | cop0 | cop1 | cop2 | cop3
  | cibylSyscall | cibylRegisterArgument
  deriving DecidableEq, Repr

/-- `mips_fmt_t`. -/
inductive Fmt where
  | ifmt | jfmt | rfmt
  deriving DecidableEq, Repr

def mipsOpEntries : List (Opcode × Fmt) :=
  [(.special, .rfmt), (.bcond, .ifmt), (.j, .jfmt), (.jal, .jfmt),
   (.beq, .ifmt), (.bne, .ifmt), (.blez, .ifmt), (.bgtz, .ifmt),
   (.addi, .ifmt), (.addiu, .ifmt), (.slti, .ifmt), (.sltiu, .ifmt),
   (.andi, .ifmt), (.ori, .ifmt), (.xori, .ifmt), (.lui, .ifmt),
   (.cop0, .rfmt), (.cop1, .ifmt), (.cop2, .ifmt), (.cop3, .ifmt),
   (.res, .ifmt), (.res, .ifmt), (.res, .ifmt), (.res, .ifmt),
   (.res, .ifmt), (.res, .ifmt), (.res, .ifmt), (.res, .ifmt),
   (.res, .ifmt), (.res, .ifmt), (.res, .ifmt), (.res, .ifmt),
   (.lb, .ifmt), (.lh, .ifmt), (.lwl, .ifmt), (.lw, .ifmt),
   (.lbu, .ifmt), (.lhu, .ifmt), (.lwr, .ifmt), (.res, .ifmt),
   (.sb, .ifmt), (.sh, .ifmt), (.swl, .ifmt), (.sw, .ifmt),
   (.res, .ifmt), (.res, .ifmt), (.swr, .ifmt), (.res, .ifmt),
   (.unimp, .ifmt), (.lwc1, .ifmt), (.unimp, .ifmt), (.unimp, .ifmt),
   (.res, .ifmt), (.res, .ifmt), (.res, .ifmt), (.res, .ifmt),
   (.unimp, .ifmt), (.swc1, .ifmt), (.unimp, .ifmt), (.unimp, .ifmt),
   (.res, .ifmt), (.res, .ifmt), (.res, .ifmt), (.res, .ifmt)]

def mipsSpecialTable : List Opcode :=
  [.sll, .res, .srl, .sra, .sllv, .res, .srlv, .srav,
   .jr, .jalr, .res, .res, .syscall, .brk, .res, .res,
   .mfhi, .mthi, .mflo, .mtlo, .res, .res, .res, .res,
   .mult, .multu, .div, .divu, .res, .res, .res, .res,
   .add, .addu, .sub, .subu, .and, .or, .xor, .nor,
   .res, .res, .slt, .sltu, .res, .res, .res, .res,
   .res, .res, .res, .res, .res, .res, .res, .res,
   .res, .res, .res, .res, .res, .res, .res, .res]

/-- The source lists nine reserved entries for 38 to 47, so the table has 63 entries and the
float compares start at 47. -/
def mipsCop1Table : List Opcode :=
  [.fadd, .fsub, .fmul, .fdiv, .fsqrt, .fabs, .fmov, .fneg,
   .roundL, .truncL, .ceilL, .floorL, .roundW, .truncW, .ceilW, .floorW,
   .res, .res, .res, .res, .res, .res, .res, .res, .res,
   .res, .res, .res, .res, .res, .res, .res,
   .cvtS, .cvtD, .res, .res, .cvtW, .cvtL,
   .res, .res, .res, .res, .res, .res, .res, .res, .res,
   .cF, .cUn, .cEq, .cUeq, .cOlt, .cUlt, .cOle, .cUle,
   .cSf, .cNgle, .cSeq, .cNgl, .cLt, .cNge, .cLe, .cNgt]

def mipsZeroExtendOpcode : Opcode → Bool
  | .andi | .ori | .xori => true
  | _ => false

theorem and_31_lt (w : Word) : (w &&& 0x1f).toNat < 86 := by
  rw [BitVec.toNat_and]
  exact Nat.lt_of_le_of_lt Nat.and_le_right (by decide)

/-- The five-bit register field of `word` that starts at bit `sh`. -/
def registerField (word : Word) (sh : Nat) : Reg := ⟨((word >>> sh) &&& 0x1f).toNat, and_31_lt _⟩

def encodingGetRs (word : Word) : Reg := registerField word 21

def encodingGetRt (word : Word) : Reg := registerField word 16

def encodingGetRd (word : Word) : Reg := registerField word 11

theorem registerField_lt (word : Word) (sh : Nat) : (registerField word sh).val < 32 := by
  simp only [registerField, BitVec.toNat_and]
  exact Nat.lt_of_le_of_lt Nat.and_le_right (by decide)

/-- `mips_int_to_fpu_reg`, also the tail of `mips_encoding_get_fs` and its siblings. -/
def intToFpuReg (r : Reg) : Reg := Fin.ofNat 86 (r.val + 40)

def encodingGetFs (word : Word) : Reg := intToFpuReg (encodingGetRs word)

def encodingGetFt (word : Word) : Reg := intToFpuReg (encodingGetRt word)

def encodingGetFd (word : Word) : Reg := intToFpuReg (registerField word 6)

def encodingGetCp1Fmt (word : Word) : Word := (word >>> 21) &&& 0x1f

def cp1FmtIsDouble (fmt : Word) : Bool := (fmt &&& 1) == 1

end Cibyl
