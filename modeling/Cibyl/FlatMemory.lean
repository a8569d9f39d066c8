import Cibyl.CRunTime
import Cibyl.Library.ByteLanes

namespace Cibyl
set_option autoImplicit true

open CRunTime

theorem msb_eq_false {a : Word} (h : a.toNat < 2 ^ 31) : a.msb = false := by
  rw [BitVec.msb_eq_decide]
  exact decide_eq_false (by omega)

theorem sdiv_four_toNat {a : Word} (h : a.toNat < 2 ^ 31) : (a.sdiv 4).toNat = a.toNat / 4 := by
  have h₄ : (4 : Word).msb = false := by decide
  rw [BitVec.sdiv_eq, msb_eq_false h, h₄]
  exact BitVec.toNat_udiv

theorem ishr_two_toNat {a : Word} (h : a.toNat < 2 ^ 31) : (ishr a 2).toNat = a.toNat / 4 := by
  rw [ishr, BitVec.sshiftRight_eq_of_msb_false (msb_eq_false h), BitVec.toNat_ushiftRight]
  exact Nat.shiftRight_eq_div_pow _ 2

theorem iushr_two_toNat (a : Word) : (iushr a 2).toNat = a.toNat / 4 := by
  rw [iushr, BitVec.toNat_ushiftRight]
  exact Nat.shiftRight_eq_div_pow _ 2

theorem and_three_toNat (a : Word) : (a &&& 3).toNat = a.toNat % 4 := by
  rw [BitVec.toNat_and]
  exact Nat.and_two_pow_sub_one_eq_mod a.toNat 2

theorem and_two_toNat {a : Word} (h : a.toNat % 2 = 0) : (a &&& 2).toNat = a.toNat % 4 := by
  have h₀ : a.getLsbD 0 = false := by
    rw [← BitVec.testBit_toNat, Nat.testBit_zero]
    exact decide_eq_false (by omega)
  have he : a &&& 2 = a &&& 3 := by
    apply BitVec.eq_of_getLsbD_eq
    intro i hi
    rw [BitVec.getLsbD_and, BitVec.getLsbD_and]
    have h₂ : (2 : Word).getLsbD i = decide (1 = i) := by
      rw [show (2 : Word) = BitVec.twoPow 32 1 from rfl, BitVec.getLsbD_twoPow]
      simp
    have h₃ : (3 : Word).getLsbD i = decide (i < 2) := by
      have hm := Lanes.getLsbD_mask 2 i
      rwa [decide_eq_true hi, Bool.true_and] at hm
    rw [h₂, h₃]
    match i with
    | 0 => rw [h₀, Bool.false_and, Bool.false_and]
    | 1 => rfl
    | i + 2 =>
      rw [decide_eq_false (by omega), decide_eq_false (by omega)]
  rw [he, and_three_toNat]

theorem ishl_three_toNat {x : Word} (h : x.toNat ≤ 3) : (ishl x 3).toNat = 8 * x.toNat := by
  have h₃ : (3 : Word).toNat % 32 = 3 := by decide
  rw [ishl, h₃, BitVec.toNat_shiftLeft, Nat.shiftLeft_eq]
  omega

/-- The shift that brings the addressed byte to the bottom of its word. -/
theorem byteShift_toNat (a : Word) :
    (ishl (3 - (a &&& 3)) 3).toNat = 8 * (3 - a.toNat % 4) := by
  have ha := and_three_toNat a
  have hle : a &&& 3 ≤ (3 : Word) := by
    rw [BitVec.le_def, ha]
    exact Nat.le_of_lt_succ (Nat.mod_lt _ (by decide))
  have hs : (3 - (a &&& 3) : Word).toNat = 3 - a.toNat % 4 := by
    rw [BitVec.toNat_sub_of_le hle, ha]
    rfl
  rw [ishl_three_toNat (by omega), hs]

theorem shortShift_toNat {a : Word} (h : a.toNat % 2 = 0) :
    (ishl (2 - (a &&& 2)) 3).toNat = 8 * (2 - a.toNat % 4) := by
  have ha := and_two_toNat h
  have hle : a &&& 2 ≤ (2 : Word) := by
    rw [BitVec.le_def, ha]
    change a.toNat % 4 ≤ 2
    omega
  have hs : (2 - (a &&& 2) : Word).toNat = 2 - a.toNat % 4 := by
    rw [BitVec.toNat_sub_of_le hle, ha]
    rfl
  rw [ishl_three_toNat (by omega), hs]

theorem ishl_byteShift (x a : Word) :
    ishl x (ishl (3 - (a &&& 3)) 3) = x <<< (8 * (3 - a.toNat % 4)) := by
  rw [ishl, byteShift_toNat, Nat.mod_eq_of_lt (by omega)]

theorem ishl_shortShift {a : Word} (h : a.toNat % 2 = 0) (x : Word) :
    ishl x (ishl (2 - (a &&& 2)) 3) = x <<< (8 * (2 - a.toNat % 4)) := by
  rw [ishl, shortShift_toNat h, Nat.mod_eq_of_lt (by omega)]

/-- The flat big-endian memory a word array stands for. -/
def Memory.flat (m : Memory) : Lanes.Flat := Lanes.byteAt m.words

theorem byte_lane (m : Memory) (a : Word) (h : a.toNat / 4 < m.words.length) :
    iushr m.words[a.toNat / 4] (ishl (3 - (a &&& 3)) 3) &&& 0xff =
      (m.flat a.toNat).setWidth 32 := by
  have hl : 8 * (3 - a.toNat % 4) % 32 = 8 * (3 - a.toNat % 4) := by omega
  rw [iushr, byteShift_toNat, hl, Memory.flat, Lanes.byteAt_eq h]
  exact Lanes.shift_mask 8 _ _

theorem short_lane (m : Memory) {a : Word} (ha : a.toNat % 2 = 0)
    (h : a.toNat / 4 < m.words.length) :
    iushr m.words[a.toNat / 4] (ishl (2 - (a &&& 2)) 3) &&& 0xffff =
      (Lanes.readShort m.flat a.toNat).setWidth 32 := by
  have hl : 8 * (2 - a.toNat % 4) % 32 = 8 * (2 - a.toNat % 4) := by omega
  rw [iushr, shortShift_toNat ha, hl, Memory.flat, Lanes.readShort_byteAt ha h]
  exact Lanes.shift_mask 16 _ _

/-- The sign extension of `memoryReadByte` and `memoryReadShort`. -/
theorem sign_extend_or {n : Nat} (hn : 0 < n) (hn' : n < 32) (b : BitVec n) :
    (if b.setWidth 32 &&& ishl 1 (BitVec.ofNat 32 (n - 1)) ≠ 0
      then b.setWidth 32 ||| ~~~BitVec.ofNat 32 (2 ^ n - 1) else b.setWidth 32) =
      b.signExtend 32 := by
  have hs : (BitVec.ofNat 32 (n - 1)).toNat % 32 = n - 1 := by
    rw [BitVec.toNat_ofNat]
    omega
  rw [ishl, hs, show (1 : Word) = 1#32 from rfl, ← BitVec.twoPow_eq,
    Lanes.and_signBit hn (Nat.le_of_lt hn'), Lanes.signExtend_or]
  cases b.msb with
  | false => rfl
  | true => exact if_pos (Lanes.twoPow_ne_zero (by omega))

namespace Memory

def size (m : Memory) : Nat := 4 * m.words.length

theorem word_lt {m : Memory} (h : a < m.size) : a / 4 < m.words.length := by
  rw [size] at h
  omega

theorem lt_of_lt_size {m : Memory} (h : a < m.size) : a < 2 ^ 31 :=
  Nat.lt_trans h m.size_lt

theorem load_ishr {m : Memory} {a : Word} (h : a.toNat < m.size) :
    load (ishr a 2) m = (.ok (m.words.get ⟨a.toNat / 4, word_lt h⟩), m) := by
  have hi := ishr_two_toNat (lt_of_lt_size h)
  rw [load_of_inBounds (by rw [hi]; exact word_lt h)]
  simp only [hi, List.get_eq_getElem]

theorem load_sdiv {m : Memory} {a : Word} (h : a.toNat < m.size) :
    load (a.sdiv 4) m = (.ok (m.words.get ⟨a.toNat / 4, word_lt h⟩), m) := by
  have hi := sdiv_four_toNat (lt_of_lt_size h)
  rw [load_of_inBounds (by rw [hi]; exact word_lt h)]
  simp only [hi, List.get_eq_getElem]

/-- The array with word `i` replaced. -/
def setWord (m : Memory) (i : Nat) (v : Word) : Memory :=
  ⟨m.words.set i v, by rw [List.length_set]; exact m.size_lt⟩

@[simp] theorem size_setWord (m : Memory) (i : Nat) (v : Word) : (m.setWord i v).size = m.size := by
  rw [size, size, setWord, List.length_set]

theorem store_ishr {m : Memory} {a : Word} (h : a.toNat < m.size) :
    store (ishr a 2) v m = (.ok (), m.setWord (a.toNat / 4) v) := by
  have hi := ishr_two_toNat (lt_of_lt_size h)
  rw [store_of_inBounds (by rw [hi]; exact word_lt h), set, setWord]
  simp only [hi]

theorem store_sdiv {m : Memory} {a : Word} (h : a.toNat < m.size) :
    store (a.sdiv 4) v m = (.ok (), m.setWord (a.toNat / 4) v) := by
  have hi := sdiv_four_toNat (lt_of_lt_size h)
  rw [store_of_inBounds (by rw [hi]; exact word_lt h), set, setWord]
  simp only [hi]

theorem flat_setWord {m : Memory} (ha : a % 4 = 0) (h : a < m.size) (v : Word) :
    (m.setWord (a / 4) v).flat = Lanes.write 4 m.flat a v :=
  Lanes.byteAt_set_word ha (word_lt h) v

theorem flat_setWord_insert {m : Memory} (hn : a % 4 + n ≤ 4) (h : a < m.size) (v : Word) :
    (m.setWord (a / 4) (Lanes.insert (8 * n) (m.words.get ⟨a / 4, word_lt h⟩) v
      (8 * (4 - n - a % 4)))).flat = Lanes.write n m.flat a v :=
  Lanes.byteAt_set_insert hn (word_lt h) v

end Memory

theorem add_four_toNat {m : Memory} {a : Word} (h : a.toNat + 4 < m.size) :
    (a + 4).toNat = a.toNat + 4 := by
  have hs := Memory.lt_of_lt_size h
  have h₄ : (4 : Word).toNat = 4 := rfl
  rw [BitVec.toNat_add, h₄]
  exact Nat.mod_eq_of_lt (by omega)

theorem ite_pure {c : Prop} [Decidable c] (x y : α) (m : Memory) :
    (if c then (pure x : MemM α) else pure y) m = (.ok (if c then x else y), m) := by
  split <;> rfl

theorem ok_congr {x y : α} (h : x = y) (m : Memory) :
    ((.ok x, m) : Except JavaException α × Memory) = (.ok y, m) := by rw [h]

namespace CRunTime

theorem memoryReadByteUnsigned_ok {m : Memory} {a : Word} (h : a.toNat < m.size) :
    memoryReadByteUnsigned a m = (.ok ((m.flat a.toNat).setWidth 32), m) := by
  rw [memoryReadByteUnsigned, MemM.bind_of_ok (Memory.load_ishr h), MemM.pure_apply]
  exact ok_congr (byte_lane m a (Memory.word_lt h)) m

theorem memoryReadByte_ok {m : Memory} {a : Word} (h : a.toNat < m.size) :
    memoryReadByte a m = (.ok ((m.flat a.toNat).signExtend 32), m) := by
  have hl := byte_lane m a (Memory.word_lt h)
  have hs := sign_extend_or (n := 8) (by decide) (by decide) (m.flat a.toNat)
  rw [memoryReadByte, MemM.bind_of_ok (Memory.load_ishr h)]
  simp only [List.get_eq_getElem, hl]
  exact (ite_pure _ _ m).trans (ok_congr hs m)

theorem memoryReadShortUnsigned_ok {m : Memory} {a : Word} (ha : a.toNat % 2 = 0)
    (h : a.toNat < m.size) :
    memoryReadShortUnsigned a m = (.ok ((Lanes.readShort m.flat a.toNat).setWidth 32), m) := by
  rw [memoryReadShortUnsigned, MemM.bind_of_ok (Memory.load_ishr h), MemM.pure_apply]
  exact ok_congr (short_lane m ha (Memory.word_lt h)) m

theorem memoryReadShort_ok {m : Memory} {a : Word} (ha : a.toNat % 2 = 0)
    (h : a.toNat < m.size) :
    memoryReadShort a m = (.ok ((Lanes.readShort m.flat a.toNat).signExtend 32), m) := by
  have hs := sign_extend_or (n := 16) (by decide) (by decide) (Lanes.readShort m.flat a.toNat)
  rw [memoryReadShort, MemM.bind_of_ok (memoryReadShortUnsigned_ok ha h)]
  exact (ite_pure _ _ m).trans (ok_congr hs m)

theorem memoryReadWord_ok {m : Memory} {a : Word} (ha : a.toNat % 4 = 0) (h : a.toNat < m.size) :
    memoryReadWord a m = (.ok (Lanes.readWord m.flat a.toNat), m) := by
  rw [memoryReadWord, Memory.load_ishr h, Memory.flat,
    Lanes.readWord_byteAt ha (Memory.word_lt h), List.get_eq_getElem]

theorem memoryReadLong_ok {m : Memory} {a : Word} (ha : a.toNat % 4 = 0)
    (h : a.toNat + 4 < m.size) :
    memoryReadLong a m = (.ok (Lanes.readLong m.flat a.toNat), m) := by
  have h₄ := add_four_toNat h
  have h₀ : a.toNat < m.size := by omega
  have hd : (a.toNat + 4) / 4 = a.toNat / 4 + 1 := by omega
  have hl : a.toNat / 4 + 1 < m.words.length := hd ▸ Memory.word_lt h
  have h₄' : (a + 4).toNat < m.size := by rw [h₄]; exact h
  rw [memoryReadLong, MemM.bind_of_ok (Memory.load_ishr h₄'),
    MemM.bind_of_ok (Memory.load_ishr h₀), MemM.pure_apply, Memory.flat,
    Lanes.readLong_byteAt ha hl]
  simp only [List.get_eq_getElem, h₄, hd]
  exact ok_congr (long_halves _ _) m

theorem memoryWriteByte_ok {m : Memory} {a : Word} (h : a.toNat < m.size) (v : Word) :
    memoryWriteByte a v m = (.ok (), m.setWord (a.toNat / 4)
      (Lanes.insert 8 (m.words.get ⟨a.toNat / 4, Memory.word_lt h⟩) v
        (8 * (3 - a.toNat % 4)))) := by
  rw [memoryWriteByte, MemM.bind_of_ok (Memory.load_sdiv h), Memory.store_sdiv h]
  simp only [ishl_byteShift]
  rfl

theorem memoryWriteShort_ok {m : Memory} {a : Word} (ha : a.toNat % 2 = 0)
    (h : a.toNat < m.size) (v : Word) :
    memoryWriteShort a v m = (.ok (), m.setWord (a.toNat / 4)
      (Lanes.insert 16 (m.words.get ⟨a.toNat / 4, Memory.word_lt h⟩) v
        (8 * (2 - a.toNat % 4)))) := by
  rw [memoryWriteShort, MemM.bind_of_ok (Memory.load_sdiv h), Memory.store_sdiv h]
  simp only [ishl_shortShift ha]
  rfl

theorem memoryWriteWord_ok {m : Memory} {a : Word} (h : a.toNat < m.size) (v : Word) :
    memoryWriteWord a v m = (.ok (), m.setWord (a.toNat / 4) v) := Memory.store_sdiv h

theorem memoryWriteLong_ok {m : Memory} {a : Word} (h : a.toNat + 4 < m.size) (v : DWord) :
    memoryWriteLong a v m = (.ok (), (m.setWord (a.toNat / 4) (v.extractLsb' 32 32)).setWord
      ((a.toNat + 4) / 4) (v.extractLsb' 0 32)) := by
  have h₄ := add_four_toNat h
  have h₀ : a.toNat < m.size := by omega
  have h₄' : (a + 4).toNat < (m.setWord (a.toNat / 4) (v.extractLsb' 32 32)).size := by
    rw [Memory.size_setWord, h₄]
    exact h
  rw [memoryWriteLong, lshr_32, and_low_half, MemM.bind_of_ok (Memory.store_ishr h₀),
    Memory.store_ishr h₄', h₄]

theorem flat_writeLong {m : Memory} (ha : a % 4 = 0) (h : a + 4 < m.size) (v : DWord) :
    ((m.setWord (a / 4) (v.extractLsb' 32 32)).setWord ((a + 4) / 4) (v.extractLsb' 0 32)).flat =
      Lanes.write 8 m.flat a v := by
  have h' : a + 4 < (m.setWord (a / 4) (v.extractLsb' 32 32)).size := by
    rw [Memory.size_setWord]
    exact h
  have hv : v.extractLsb' 32 32 ++ v.extractLsb' 0 32 = v := by
    apply BitVec.eq_of_getLsbD_eq
    intro i hi
    simp only [BitVec.getLsbD_append, BitVec.getLsbD_extractLsb']
    grind
  rw [Memory.flat_setWord (by omega) h', Memory.flat_setWord ha (by omega), Lanes.write_append, hv]

end CRunTime

/-- A call of one of the memory routines. -/
inductive Access where
  | writeByte (address inp : Word)
  | writeShort (address inp : Word)
  | writeWord (address inp : Word)
  | writeLong (address : Word) (inp : DWord)
  | readByte (address : Word)
  | readByteUnsigned (address : Word)
  | readShort (address : Word)
  | readShortUnsigned (address : Word)
  | readWord (address : Word)
  | readLong (address : Word)
  deriving DecidableEq

namespace Access

inductive Result where
  | void | int (v : Word) | long (v : DWord)
  deriving DecidableEq

def address : Access → Word
  | writeByte a _ | writeShort a _ | writeWord a _ | writeLong a _ | readByte a
  | readByteUnsigned a | readShort a | readShortUnsigned a | readWord a | readLong a => a

def bytes : Access → Nat
  | writeByte .. | readByte _ | readByteUnsigned _ => 1
  | writeShort .. | readShort _ | readShortUnsigned _ => 2
  | writeWord .. | readWord _ => 4
  | writeLong .. | readLong _ => 8

def alignment (a : Access) : Nat := min a.bytes 4

def InRange (size : Nat) (a : Access) : Prop :=
  a.address.toNat % a.alignment = 0 ∧ a.address.toNat + a.bytes ≤ size

instance (size : Nat) (a : Access) : Decidable (a.InRange size) := instDecidableAnd

def call : Access → MemM Result
  | writeByte a v => do memoryWriteByte a v; return .void
  | writeShort a v => do memoryWriteShort a v; return .void
  | writeWord a v => do memoryWriteWord a v; return .void
  | writeLong a v => do memoryWriteLong a v; return .void
  | readByte a => do return .int (← memoryReadByte a)
  | readByteUnsigned a => do return .int (← memoryReadByteUnsigned a)
  | readShort a => do return .int (← memoryReadShort a)
  | readShortUnsigned a => do return .int (← memoryReadShortUnsigned a)
  | readWord a => do return .int (← memoryReadWord a)
  | readLong a => do return .long (← memoryReadLong a)

/-- What the access means on a flat array of bytes. -/
def onFlat (f : Lanes.Flat) : Access → Result × Lanes.Flat
  | writeByte a v => (.void, Lanes.write 1 f a.toNat v)
  | writeShort a v => (.void, Lanes.write 2 f a.toNat v)
  | writeWord a v => (.void, Lanes.write 4 f a.toNat v)
  | writeLong a v => (.void, Lanes.write 8 f a.toNat v)
  | readByte a => (.int ((f a.toNat).signExtend 32), f)
  | readByteUnsigned a => (.int ((f a.toNat).setWidth 32), f)
  | readShort a => (.int ((Lanes.readShort f a.toNat).signExtend 32), f)
  | readShortUnsigned a => (.int ((Lanes.readShort f a.toNat).setWidth 32), f)
  | readWord a => (.int (Lanes.readWord f a.toNat), f)
  | readLong a => (.long (Lanes.readLong f a.toNat), f)

def callAll : List Access → MemM (List Result)
  | [] => pure []
  | a :: as => do
    let r ← a.call
    let rs ← callAll as
    return r :: rs

def allOnFlat (f : Lanes.Flat) : List Access → List Result × Lanes.Flat
  | [] => ([], f)
  | a :: as =>
    let (r, f) := a.onFlat f
    let (rs, f) := allOnFlat f as
    (r :: rs, f)

/-- The array `m'` holds what `m` held after `a` on the flat memory, and `a` returned `r`. -/
def Refines (a : Access) (m : Memory) (r : Result) (m' : Memory) : Prop :=
  (r, m'.flat) = a.onFlat m.flat ∧ m'.size = m.size

theorem bytes_pos (a : Access) : 0 < a.bytes := by
  cases a <;> exact Nat.zero_lt_succ _

theorem address_lt {a : Access} (h : a.address.toNat + a.bytes ≤ size) : a.address.toNat < size :=
  Nat.lt_of_lt_of_le (Nat.lt_add_of_pos_right a.bytes_pos) h

theorem call_refines (h : a.InRange m.size) :
    ∃ r m', call a m = (.ok r, m') ∧ a.Refines m r m' := by
  obtain ⟨ha, hr⟩ := h
  have hs := address_lt hr
  cases a with
  | writeByte a v =>
    refine ⟨_, _, MemM.bind_of_ok (memoryWriteByte_ok hs v) _, ?_, Memory.size_setWord ..⟩
    exact congrArg _ (Memory.flat_setWord_insert (n := 1) (by omega) hs v)
  | writeShort a v =>
    change a.toNat % 2 = 0 at ha
    refine ⟨_, _, MemM.bind_of_ok (memoryWriteShort_ok ha hs v) _, ?_, Memory.size_setWord ..⟩
    exact congrArg _ (Memory.flat_setWord_insert (n := 2) (a := a.toNat) (by omega) hs v)
  | writeWord a v =>
    refine ⟨_, _, MemM.bind_of_ok (memoryWriteWord_ok hs v) _, ?_, Memory.size_setWord ..⟩
    exact congrArg _ (Memory.flat_setWord ha hs v)
  | writeLong a v =>
    change a.toNat % 4 = 0 at ha
    change a.toNat + 8 ≤ m.size at hr
    refine ⟨_, _, MemM.bind_of_ok (memoryWriteLong_ok (by omega) v) _, ?_, ?_⟩
    · exact congrArg _ (flat_writeLong ha (by omega) v)
    · rw [Memory.size_setWord, Memory.size_setWord]
  | readByte a => exact ⟨_, m, MemM.bind_of_ok (memoryReadByte_ok hs) _, rfl, rfl⟩
  | readByteUnsigned a => exact ⟨_, m, MemM.bind_of_ok (memoryReadByteUnsigned_ok hs) _, rfl, rfl⟩
  | readShort a =>
    exact ⟨_, m, MemM.bind_of_ok (memoryReadShort_ok ha hs) _, rfl, rfl⟩
  | readShortUnsigned a =>
    exact ⟨_, m, MemM.bind_of_ok (memoryReadShortUnsigned_ok ha hs) _, rfl, rfl⟩
  | readWord a =>
    exact ⟨_, m, MemM.bind_of_ok (memoryReadWord_ok ha hs) _, rfl, rfl⟩
  | readLong a =>
    change a.toNat + 8 ≤ m.size at hr
    exact ⟨_, m, MemM.bind_of_ok (memoryReadLong_ok (a := a) ha (by omega)) _, rfl, rfl⟩

/-- The word array is flat big-endian byte memory to every sequence of accesses. -/
theorem callAll_refines (as : List Access) (m : Memory) (h : ∀ a ∈ as, a.InRange m.size) :
    ∃ m', callAll as m = (.ok (allOnFlat m.flat as).1, m') ∧
      m'.flat = (allOnFlat m.flat as).2 ∧ m'.size = m.size := by
  induction as generalizing m with
  | nil => exact ⟨m, rfl, rfl, rfl⟩
  | cons a as ih =>
    obtain ⟨r, m₁, hc, hf, hs⟩ := call_refines (h a (List.mem_cons_self ..))
    obtain ⟨m₂, hc₂, hf₂, hs₂⟩ := ih m₁ (fun b hb => hs ▸ h b (List.mem_cons_of_mem _ hb))
    have hr : r = (a.onFlat m.flat).1 := congrArg Prod.fst hf
    have hm : m₁.flat = (a.onFlat m.flat).2 := congrArg Prod.snd hf
    refine ⟨m₂, ?_, ?_, hs₂.trans hs⟩
    · rw [callAll, MemM.bind_of_ok hc, MemM.bind_of_ok hc₂, MemM.pure_apply, hr, hm]
      rfl
    · rw [hf₂, hm]
      rfl

theorem callAll_refines_mixed :
    ∃ m', callAll [.writeWord 4 0x11223344, .writeByte 6 0xff, .readShort 6]
        ⟨[0, 0], by decide⟩ = (.ok [.void, .void, .int 0xffffff44], m') := by
  obtain ⟨m', hc, _⟩ := callAll_refines [.writeWord 4 0x11223344, .writeByte 6 0xff, .readShort 6]
    ⟨[0, 0], by decide⟩ (by decide)
  exact ⟨m', hc.trans (by rfl)⟩

end Access

end Cibyl
