import Cibyl.Mips
import Cibyl.Library.ByteLanes
import Mathlib.Data.BitVec

namespace Cibyl
set_option autoImplicit true

/-- The registers of a MIPS processor, with HI and LO among them; register zero reads as 0. -/
@[ext] structure RegFile where
  get : Reg → Word
  get_zero : get Reg.zero = 0

namespace RegFile

def set (regs : RegFile) (r : Reg) (v : Word) : RegFile where
  get i := if i = r ∧ r ≠ Reg.zero then v else regs.get i
  get_zero := by
    rw [if_neg (fun h => h.2 h.1.symm)]
    exact regs.get_zero

theorem get_set_same (regs : RegFile) (h : r ≠ Reg.zero) (v : Word) :
    (regs.set r v).get r = v := if_pos ⟨rfl, h⟩

theorem get_set_ne (regs : RegFile) (h : i ≠ r) (v : Word) :
    (regs.set r v).get i = regs.get i := if_neg (fun h' => h h'.1)

def setAll (regs : RegFile) : List (Reg × Word) → RegFile
  | [] => regs
  | (r, v) :: ws => (regs.set r v).setAll ws

end RegFile

namespace Arch

def op (word : Word) : Nat := (word.extractLsb' 26 6).toNat

def funct (word : Word) : Nat := (word.extractLsb' 0 6).toNat

def reg (word : Word) (sh : Nat) : Reg :=
  ⟨(word.extractLsb' sh 5).toNat, Nat.lt_trans (BitVec.isLt _) (by decide)⟩

def rs (word : Word) : Reg := reg word 21

def rt (word : Word) : Reg := reg word 16

def rd (word : Word) : Reg := reg word 11

def shamt (word : Word) : Nat := (word.extractLsb' 6 5).toNat

def imm (word : Word) : BitVec 16 := word.extractLsb' 0 16

def specialOpcode : Nat → Option Opcode
  | 0x00 => some .sll
  | 0x02 => some .srl
  | 0x03 => some .sra
  | 0x04 => some .sllv
  | 0x06 => some .srlv
  | 0x07 => some .srav
  | 0x10 => some .mfhi
  | 0x12 => some .mflo
  | 0x18 => some .mult
  | 0x19 => some .multu
  | 0x1a => some .div
  | 0x1b => some .divu
  | 0x20 => some .add
  | 0x21 => some .addu
  | 0x22 => some .sub
  | 0x23 => some .subu
  | 0x24 => some .and
  | 0x25 => some .or
  | 0x26 => some .xor
  | 0x27 => some .nor
  | 0x2a => some .slt
  | 0x2b => some .sltu
  | _ => none

def immediateOpcode : Nat → Option Opcode
  | 0x08 => some .addi
  | 0x09 => some .addiu
  | 0x0a => some .slti
  | 0x0b => some .sltiu
  | 0x0c => some .andi
  | 0x0d => some .ori
  | 0x0e => some .xori
  | 0x0f => some .lui
  | _ => none

/-- The arithmetic or logical instruction that MIPS-I defines `word` to be. -/
def aluOpcode (word : Word) : Option Opcode :=
  if op word = 0 then specialOpcode (funct word) else immediateOpcode (op word)

def lowWord (p : Int) : Word := BitVec.ofInt 32 p

def highWord (p : Int) : Word := BitVec.ofInt 32 (p / 2 ^ 32)

def flag (p : Prop) [Decidable p] : Word := if p then 1 else 0

/-- The registers an instruction writes with their new values; HI and LO hold the halves of a
product, or remainder and quotient. -/
def writes (o : Opcode) (word : Word) (regs : RegFile) : List (Reg × Word) :=
  let s := regs.get (rs word)
  let t := regs.get (rt word)
  let signed := (imm word).signExtend 32
  let unsigned := (imm word).setWidth 32
  match o with
  | .add | .addu => [(rd word, s + t)]
  | .sub | .subu => [(rd word, s - t)]
  | .and => [(rd word, s &&& t)]
  | .or => [(rd word, s ||| t)]
  | .xor => [(rd word, s ^^^ t)]
  | .nor => [(rd word, ~~~(s ||| t))]
  | .sll => [(rd word, t <<< shamt word)]
  | .srl => [(rd word, t >>> shamt word)]
  | .sra => [(rd word, t.sshiftRight (shamt word))]
  | .sllv => [(rd word, t <<< (s.toNat % 32))]
  | .srlv => [(rd word, t >>> (s.toNat % 32))]
  | .srav => [(rd word, t.sshiftRight (s.toNat % 32))]
  | .slt => [(rd word, flag (s.toInt < t.toInt))]
  | .sltu => [(rd word, flag (s.toNat < t.toNat))]
  | .addi | .addiu => [(rt word, s + signed)]
  | .slti => [(rt word, flag (s.toInt < signed.toInt))]
  | .sltiu => [(rt word, flag (s.toNat < signed.toNat))]
  | .andi => [(rt word, s &&& unsigned)]
  | .ori => [(rt word, s ||| unsigned)]
  | .xori => [(rt word, s ^^^ unsigned)]
  | .lui => [(rt word, unsigned <<< 16)]
  | .mfhi => [(rd word, regs.get Reg.hi)]
  | .mflo => [(rd word, regs.get Reg.lo)]
  | .mult => [(Reg.lo, lowWord (s.toInt * t.toInt)), (Reg.hi, highWord (s.toInt * t.toInt))]
  | .multu => [(Reg.lo, lowWord (s.toNat * t.toNat)), (Reg.hi, highWord (s.toNat * t.toNat))]
  | .div => [(Reg.lo, lowWord (s.toInt.tdiv t.toInt)), (Reg.hi, lowWord (s.toInt.tmod t.toInt))]
  | .divu =>
    [(Reg.lo, BitVec.ofNat 32 (s.toNat / t.toNat)), (Reg.hi, BitVec.ofNat 32 (s.toNat % t.toNat))]
  | _ => []

def sources (o : Opcode) (word : Word) : List Reg :=
  match o with
  | .add | .addu | .sub | .subu | .and | .or | .xor | .nor | .sllv | .srlv | .srav | .slt | .sltu
  | .mult | .multu | .div | .divu => [rs word, rt word]
  | .sll | .srl | .sra => [rt word]
  | .addi | .addiu | .slti | .sltiu | .andi | .ori | .xori => [rs word]
  | .mfhi => [Reg.hi]
  | .mflo => [Reg.lo]
  | _ => []

/-- The load or store that the `op` field names. -/
def memoryOpcode : Nat → Option Opcode
  | 0x20 => some .lb
  | 0x21 => some .lh
  | 0x23 => some .lw
  | 0x24 => some .lbu
  | 0x25 => some .lhu
  | 0x28 => some .sb
  | 0x29 => some .sh
  | 0x2b => some .sw
  | _ => none

def effective (word : Word) (regs : RegFile) : Word :=
  regs.get (rs word) + (imm word).signExtend 32

/-- The bytes that are read or written, and what the address is a multiple of. -/
def accessSize : Opcode → Nat
  | .lh | .lhu | .sh => 2
  | .lw | .sw => 4
  | _ => 1

/-- The value a load takes from big-endian memory. -/
def load (o : Opcode) (f : Lanes.Flat) (a : Nat) : Word :=
  match o with
  | .lb => (f a).signExtend 32
  | .lbu => (f a).setWidth 32
  | .lh => (Lanes.readShort f a).signExtend 32
  | .lhu => (Lanes.readShort f a).setWidth 32
  | _ => Lanes.readWord f a

def store (o : Opcode) (f : Lanes.Flat) (a : Nat) (v : Word) : Lanes.Flat :=
  Lanes.write (accessSize o) f a v

/-- The branch inside a function that MIPS-I defines `word` to be, calls left out. -/
def branchOpcode (word : Word) : Option Opcode :=
  match op word with
  | 0x00 => if funct word = 0x08 then some .jr else none
  | 0x01 => if rt word = 0 then some .bltz else if rt word = 1 then some .bgez else none
  | 0x02 => some .j
  | 0x04 => some .beq
  | 0x05 => some .bne
  | 0x06 => some .blez
  | 0x07 => some .bgtz
  | _ => none

/-- Where a branch goes on once its delay slot has run: at an address, at the address in a
register, behind the delay slot, or in the caller. -/
inductive Destination where
  | address (a : Word) | register (v : Word) | next | caller
  deriving DecidableEq, Repr

/-- The condition of a conditional branch. -/
def taken (o : Opcode) (word : Word) (regs : RegFile) : Prop :=
  let s := regs.get (rs word)
  match o with
  | .beq => s = regs.get (rt word)
  | .bne => s ≠ regs.get (rt word)
  | .blez => s.toInt ≤ 0
  | .bgtz => 0 < s.toInt
  | .bltz => s.toInt < 0
  | .bgez => 0 ≤ s.toInt
  | _ => False

instance (o : Opcode) (word : Word) (regs : RegFile) : Decidable (taken o word regs) := by
  rw [taken.eq_def]
  dsimp only
  split <;> infer_instance

/-- Four times the target field. -/
def jumpTarget (word : Word) : Word := (word.extractLsb' 0 26).setWidth 32 <<< 2

def branchTarget (address word : Word) : Word := address + 4 + ((imm word).signExtend 32 <<< 2)

def destination (o : Opcode) (address word : Word) (regs : RegFile) : Destination :=
  match o with
  | .j => .address (jumpTarget word)
  | .jr => if rs word = Reg.ra then .caller else .register (regs.get (rs word))
  | o => if taken o word regs then .address (branchTarget address word) else .next

def destinations (o : Opcode) (word : Word) (regs : RegFile) : List Reg :=
  (writes o word regs).map Prod.fst

end Arch

end Cibyl
