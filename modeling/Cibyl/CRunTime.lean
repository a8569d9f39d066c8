import Cibyl.Mips
import Mathlib.Data.BitVec

namespace Cibyl
set_option autoImplicit true

def ishl (x s : Word) : Word := x <<< (s.toNat % 32)

def ishr (x s : Word) : Word := x.sshiftRight (s.toNat % 32)

def iushr (x s : Word) : Word := x >>> (s.toNat % 32)

def lshl (x : DWord) (s : Word) : DWord := x <<< (s.toNat % 64)

def lshr (x : DWord) (s : Word) : DWord := x.sshiftRight (s.toNat % 64)

def lushr (x : DWord) (s : Word) : DWord := x >>> (s.toNat % 64)

theorem lshr_32 (v : DWord) : (lshr v 32).setWidth 32 = v.extractLsb' 32 32 := by
  have hs : (32 : Word).toNat % 64 = 32 := rfl
  apply BitVec.eq_of_getLsbD_eq
  intro i hi
  rw [lshr, hs]
  simp only [BitVec.getLsbD_setWidth, BitVec.getLsbD_sshiftRight, BitVec.getLsbD_extractLsb', hi]
  grind

theorem and_low_half (v : DWord) : (v &&& 0xffffffff).setWidth 32 = v.extractLsb' 0 32 := by
  have hm : (0xffffffff : DWord) = BitVec.ofNat 64 (2 ^ 32 - 1) := rfl
  apply BitVec.eq_of_getLsbD_eq
  intro i hi
  rw [hm]
  simp only [BitVec.getLsbD_setWidth, BitVec.getLsbD_and, BitVec.getLsbD_extractLsb',
    BitVec.getLsbD_ofNat, Nat.testBit_two_pow_sub_one, hi]
  grind

/-- `(x & 0xffffffffl)` of an `int` is the zero extension. -/
theorem signExtend_and_mask (x : Word) : x.signExtend 64 &&& 0xffffffff = x.setWidth 64 := by
  have hm : (0xffffffff : DWord) = BitVec.ofNat 64 (2 ^ 32 - 1) := rfl
  apply BitVec.eq_of_getLsbD_eq
  intro i hi
  rw [hm]
  simp only [BitVec.getLsbD_setWidth, BitVec.getLsbD_and, BitVec.getLsbD_signExtend,
    BitVec.getLsbD_ofNat, Nat.testBit_two_pow_sub_one, hi]
  grind

theorem long_of_halves (high low : Word) :
    lshl (high.setWidth 64) 32 ||| low.setWidth 64 = high ++ low := by
  have hs : (32 : Word).toNat % 64 = 32 := rfl
  apply BitVec.eq_of_getLsbD_eq
  intro i hi
  rw [lshl, hs]
  simp only [BitVec.getLsbD_or, BitVec.getLsbD_shiftLeft, BitVec.getLsbD_setWidth,
    BitVec.getLsbD_append, hi]
  grind

theorem long_halves (high low : Word) :
    lshl (high.signExtend 64 &&& 0xffffffff) 32 ||| (low.signExtend 64 &&& 0xffffffff) =
      high ++ low := by
  rw [signExtend_and_mask, signExtend_and_mask, long_of_halves]

inductive JavaException where
  | arrayIndexOutOfBounds | arithmetic | thrown (object : Nat)
  deriving DecidableEq, Repr

/-- `CRunTime.memory`. It is only allocated by `init`, as `new int[memorySize / 4]` for an `int`
size, so its bytes can be counted by a non-negative `int`. -/
@[ext] structure Memory where
  words : List Word
  size_lt : 4 * words.length < 2 ^ 31

/-- Java code over the memory array. An exception keeps the stores made before it. -/
def MemM (α : Type) : Type := Memory → Except JavaException α × Memory

namespace MemM

instance : Monad MemM where
  pure a := fun m => (.ok a, m)
  bind x f := fun m =>
    match x m with
    | (.ok a, m') => f a m'
    | (.error e, m') => (.error e, m')

@[simp] theorem pure_apply (a : α) (m : Memory) : (pure a : MemM α) m = (.ok a, m) := rfl

theorem bind_of_ok {x : MemM α} (h : x m = (.ok a, m')) (f : α → MemM β) :
    (x >>= f) m = f a m' := by
  simp only [bind, h]

theorem bind_of_error {x : MemM α} (h : x m = (.error e, m')) (f : α → MemM β) :
    (x >>= f) m = (.error e, m') := by
  simp only [bind, h]

end MemM

namespace Memory

/-- The index check of a Java array access. -/
def InBounds (m : Memory) (i : Word) : Prop := 0 ≤ i.toInt ∧ i.toInt < m.words.length

instance (m : Memory) (i : Word) : Decidable (m.InBounds i) := instDecidableAnd

theorem inBounds_iff {m : Memory} : m.InBounds i ↔ i.toNat < m.words.length := by
  have hs := m.size_lt
  have hi := i.isLt
  rw [InBounds, BitVec.toInt_eq_toNat_cond]
  split <;> omega

def get (m : Memory) (i : Word) (h : m.InBounds i) : Word :=
  m.words.get ⟨i.toNat, inBounds_iff.mp h⟩

def set (m : Memory) (i v : Word) : Memory :=
  ⟨m.words.set i.toNat v, by rw [List.length_set]; exact m.size_lt⟩

/-- `memory[i]`. -/
def load (i : Word) : MemM Word := fun m =>
  if h : m.InBounds i then (.ok (m.get i h), m) else (.error .arrayIndexOutOfBounds, m)

/-- `memory[i] = v`. -/
def store (i v : Word) : MemM Unit := fun m =>
  if m.InBounds i then (.ok (), m.set i v) else (.error .arrayIndexOutOfBounds, m)

theorem load_of_inBounds (h : i.toNat < m.words.length) :
    load i m = (.ok m.words[i.toNat], m) := dif_pos (inBounds_iff.mpr h)

theorem load_of_not_inBounds (h : ¬ i.toNat < m.words.length) :
    load i m = (.error .arrayIndexOutOfBounds, m) := dif_neg (mt inBounds_iff.mp h)

theorem store_of_inBounds (h : i.toNat < m.words.length) :
    store i v m = (.ok (), m.set i v) := if_pos (inBounds_iff.mpr h)

theorem store_of_not_inBounds (h : ¬ i.toNat < m.words.length) :
    store i v m = (.error .arrayIndexOutOfBounds, m) := if_neg (mt inBounds_iff.mp h)

@[simp] theorem words_set (m : Memory) (i v : Word) : (m.set i v).words = m.words.set i.toNat v :=
  rfl

end Memory

namespace CRunTime

def memoryWriteByte (address inp : Word) : MemM Unit := do
  let value := inp &&& 0xff
  let cur ← Memory.load (address.sdiv 4)
  let b := ishl (3 - (address &&& 3)) 3
  let cur := cur &&& ~~~(ishl 0xff b)
  let cur := cur ||| ishl value b
  Memory.store (address.sdiv 4) cur

def memoryWriteShort (address inp : Word) : MemM Unit := do
  let value := inp &&& 0xffff
  let cur ← Memory.load (address.sdiv 4)
  let b := ishl (2 - (address &&& 2)) 3
  let cur := cur &&& ~~~(ishl 0xffff b)
  let cur := cur ||| ishl value b
  Memory.store (address.sdiv 4) cur

def memoryWriteWord (address inp : Word) : MemM Unit := Memory.store (address.sdiv 4) inp

def memoryWriteLong (address : Word) (inp : DWord) : MemM Unit := do
  Memory.store (ishr address 2) ((lshr inp 32).setWidth 32)
  Memory.store (ishr (address + 4) 2) ((inp &&& 0xffffffff).setWidth 32)

def memoryReadLong (address : Word) : MemM DWord := do
  let low := (← Memory.load (ishr (address + 4) 2)).signExtend 64 &&& 0xffffffff
  let high := (← Memory.load (ishr address 2)).signExtend 64 &&& 0xffffffff
  return lshl high 32 ||| low

def memoryReadWord (address : Word) : MemM Word := Memory.load (ishr address 2)

def memoryReadByteUnsigned (address : Word) : MemM Word := do
  let val ← Memory.load (ishr address 2)
  let b := ishl (3 - (address &&& 3)) 3
  return iushr val b &&& 0xff

def memoryReadByte (address : Word) : MemM Word := do
  let val ← Memory.load (ishr address 2)
  let b := ishl (3 - (address &&& 3)) 3
  let out := iushr val b &&& 0xff
  if out &&& ishl 1 7 ≠ 0 then return out ||| 0xffffff00
  return out

def memoryReadShortUnsigned (address : Word) : MemM Word := do
  let val ← Memory.load (ishr address 2)
  let b := ishl (2 - (address &&& 2)) 3
  return iushr val b &&& 0xffff

def memoryReadShort (address : Word) : MemM Word := do
  let out ← memoryReadShortUnsigned address
  if out &&& ishl 1 15 ≠ 0 then return out ||| 0xffff0000
  return out

/-- The `lwl` helper, which reads a whole unaligned word. -/
def memoryReadWordLeft (address : Word) : MemM Word := do
  let b0 ← memoryReadByteUnsigned (address + 3)
  let b1 ← memoryReadByteUnsigned (address + 2)
  let b2 ← memoryReadByteUnsigned (address + 1)
  let b3 ← memoryReadByteUnsigned (address + 0)
  return b0 ||| ishl b1 8 ||| ishl b2 16 ||| ishl b3 24

def memoryWriteWordLeft (address rtVal : Word) : MemM Unit := do
  memoryWriteByte (address + 3) rtVal
  memoryWriteByte (address + 2) (ishr rtVal 8)
  memoryWriteByte (address + 1) (ishr rtVal 16)
  memoryWriteByte (address + 0) (ishr rtVal 24)

/-- The traced range is read from the data header; what is printed has no effect on the memory. -/
def assertMemoryWrite (address : Word) : MemM Unit := do
  if (← memoryReadWord 16).sle address then
    let _ ← memoryReadWord 20

def memoryWriteBytePc (_pc address inp : Word) : MemM Unit := do
  assertMemoryWrite address
  memoryWriteByte address inp

def memoryWriteShortPc (_pc address inp : Word) : MemM Unit := do
  assertMemoryWrite address
  memoryWriteShort address inp

def memoryWriteWordPc (_pc address inp : Word) : MemM Unit := do
  assertMemoryWrite address
  memoryWriteWord address inp

def memoryWriteWordLeftPc (_pc address rtVal : Word) : MemM Unit := do
  assertMemoryWrite address
  memoryWriteWordLeft address rtVal

def divu (rsVal rtVal : Word) : Except JavaException DWord :=
  if rtVal = 0 then .error .arithmetic
  else if rsVal.slt 0 ∨ rtVal.slt 0 then
    let a := rsVal.signExtend 64 &&& 0xffffffff
    let b := rtVal.signExtend 64 &&& 0xffffffff
    .ok (lshl (a.srem b) 32 ||| a.sdiv b)
  else
    let low := (rsVal.sdiv rtVal).signExtend 64
    let high := (rsVal.srem rtVal).signExtend 64
    .ok (lshl high 32 ||| low)

def multu (rsVal rtVal : Word) : DWord :=
  let a := rsVal.signExtend 64 &&& 0xffffffff
  let b := rtVal.signExtend 64 &&& 0xffffffff
  a * b

end CRunTime

end Cibyl
