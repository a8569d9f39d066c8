import Cibyl.Library.BoundedLoop
import Cibyl.UnalignedPair

namespace Cibyl
set_option autoImplicit true

/-- A Java array of bytes, whose length is an `int`. -/
structure JavaBytes where
  bytes : List Byte
  length_lt : bytes.length < 2 ^ 31

namespace JavaBytes

/-- `bytes[i]`. -/
def load (b : JavaBytes) (i : Word) : Except JavaException Byte :=
  if h : 0 ≤ i.toInt ∧ i.toNat < b.bytes.length then .ok (b.bytes.get ⟨i.toNat, h.2⟩)
  else .error .arrayIndexOutOfBounds

/-- `bytes[i] = v`. -/
def store (b : JavaBytes) (i : Word) (v : Byte) : Except JavaException Unit × JavaBytes :=
  if 0 ≤ i.toInt ∧ i.toNat < b.bytes.length then
    (.ok (), ⟨b.bytes.set i.toNat v, by rw [List.length_set]; exact b.length_lt⟩)
  else (.error .arrayIndexOutOfBounds, b)

variable {b : JavaBytes} {i : Word}

theorem toInt_nonneg (h : i.toNat < b.bytes.length) : 0 ≤ i.toInt := by
  have hl := b.length_lt
  rw [BitVec.toInt_eq_toNat_of_lt (by omega)]
  exact Int.natCast_nonneg _

theorem load_ok (h : i.toNat < b.bytes.length) : b.load i = .ok (b.bytes.get ⟨i.toNat, h⟩) :=
  dif_pos ⟨toInt_nonneg h, h⟩

theorem store_ok (h : i.toNat < b.bytes.length) (v : Byte) :
    ∃ b', b.store i v = (.ok (), b') ∧ b'.bytes = b.bytes.set i.toNat v :=
  ⟨_, if_pos ⟨toInt_nonneg h, h⟩, rfl⟩

end JavaBytes

/-- The variables of a copy. -/
structure Copy where
  addr : Word
  off : Word
  size : Word

def Copy.step (x : Copy) (n : Word) : Copy := ⟨x.addr + n, x.off + n, x.size - n⟩

namespace CRunTime

/-- A byte of the array as an `int`. -/
def arrayByte (bytes : JavaBytes) (i : Word) : MemM Word := fun m =>
  (Except.map (BitVec.signExtend 32) (bytes.load i), m)

def memcpyHead (bytes : JavaBytes) (x : Copy) : MemM (Turn Copy Unit) :=
  if x.addr &&& 3 ≠ 0 ∧ 0 < x.size.toInt then do
    let b ← arrayByte bytes x.off
    memoryWriteByte x.addr b
    return if x.size - 1 = 0 then .ret () else .next (x.step 1)
  else return .leave x

/-- The inner loop shifts `n` bytes into a word. -/
def assemble (bytes : JavaBytes) : Nat → Word → Word → MemM Word
  | 0, _, i => return i
  | n + 1, off, i => do
    let b := (← arrayByte bytes off) &&& 0xff
    assemble bytes n (off + 1) (ishl i 8 ||| b)

def memcpyWords (bytes : JavaBytes) (x : Copy) : MemM (Turn Copy Unit) :=
  if 3 < x.size.toInt then do
    let i ← assemble bytes 4 x.off 0
    memoryWriteWord x.addr i
    return .next (x.step 4)
  else return .leave x

def memcpyTail (bytes : JavaBytes) (x : Copy) : MemM (Turn Copy Unit) :=
  if 0 < x.size.toInt then do
    let b ← arrayByte bytes x.off
    memoryWriteByte x.addr b
    return .next (x.step 1)
  else return .leave x

/-- `memcpy(addr, bytes, off, size)`, with a bound on the turns of each loop. -/
def memcpy (fuel : Nat) (bytes : JavaBytes) (x : Copy) : MemM (Option Unit) := fun m =>
  Exit.andThen (boundedLoop (memcpyHead bytes) fuel x m) fun x m =>
    Exit.andThen (boundedLoop (memcpyWords bytes) fuel x m) fun x m =>
      Exit.andThen (boundedLoop (memcpyTail bytes) fuel x m) fun _ m => (.ok (some ()), m)

def memcpyBackTurn (m : Memory) (x : Copy) (bytes : JavaBytes) :
    Except JavaException (Turn Copy Unit) × JavaBytes :=
  if 0 < x.size.toInt then
    match (memoryReadByte x.addr m).1 with
    | .error e => (.error e, bytes)
    | .ok v =>
      match bytes.store x.off (v.setWidth 8) with
      | (.error e, bytes) => (.error e, bytes)
      | (.ok (), bytes) => (.ok (.next (x.step 1)), bytes)
  else (.ok (.leave x), bytes)

/-- `memcpy(bytes, off, addr, size)`. -/
def memcpyBack (fuel : Nat) (m : Memory) (x : Copy) (bytes : JavaBytes) :
    Except JavaException (Option Unit) × JavaBytes :=
  Exit.andThen (boundedLoop (memcpyBackTurn m) fuel x bytes) fun _ bytes => (.ok (some ()), bytes)

end CRunTime

theorem and_three_eq_zero (a : Word) : a &&& 3 = 0 ↔ a.toNat % 4 = 0 := by
  rw [← and_three_toNat]
  exact ⟨fun h => congrArg BitVec.toNat h, fun h => BitVec.eq_of_toNat_eq h⟩

/-- The byte `i` of the array. -/
def JavaBytes.at (b : JavaBytes) (i : Nat) : Byte := b.bytes.getD i 0

/-- The bytes of the array that are to be copied. -/
def JavaBytes.source (bytes : JavaBytes) (off n : Nat) : List Byte := (bytes.bytes.drop off).take n

theorem JavaBytes.load_at {b : JavaBytes} (h : i.toNat < b.bytes.length) :
    b.load i = .ok (b.at i.toNat) := by
  rw [load_ok h, JavaBytes.at, List.getD_eq_getElem?_getD, List.getElem?_eq_getElem h]
  rfl

variable {bytes : JavaBytes} {i : Nat}

theorem JavaBytes.source_succ (h : i < bytes.bytes.length) (n : Nat) :
    bytes.source i (n + 1) = bytes.at i :: bytes.source (i + 1) n := by
  rw [source, List.drop_eq_getElem_cons h, JavaBytes.at, List.getD_eq_getElem?_getD,
    List.getElem?_eq_getElem h]
  rfl

theorem JavaBytes.source_one (h : i < bytes.bytes.length) : bytes.source i 1 = [bytes.at i] := by
  rw [source_succ h]
  rfl

theorem JavaBytes.source_four (h : i + 3 < bytes.bytes.length) : bytes.source i 4 =
    [bytes.at i, bytes.at (i + 1), bytes.at (i + 2), bytes.at (i + 3)] := by
  have h₁ : i + 1 < bytes.bytes.length := by omega
  have h₂ : i + 1 + 1 < bytes.bytes.length := by omega
  rw [source_succ (Nat.lt_of_succ_lt h₁), source_succ h₁, source_succ h₂, source_one h]

namespace CRunTime

theorem arrayByte_ok {bytes : JavaBytes} {i : Word} (h : i.toNat < bytes.bytes.length)
    (m : Memory) :
    arrayByte bytes i m = (.ok ((bytes.at i.toNat).signExtend 32), m) := by
  rw [arrayByte, JavaBytes.load_at h]
  rfl

theorem signExtend_low (b : Byte) : (b.signExtend 32).setWidth 8 = b := by
  apply BitVec.eq_of_getLsbD_eq
  intro i hi
  have hi' : i < 32 := by omega
  simp only [BitVec.getLsbD_setWidth, BitVec.getLsbD_signExtend, hi, hi', decide_true, if_true,
    Bool.true_and]

theorem signExtend_injective {a b : Byte} (h : a.signExtend 32 = b.signExtend 32) : a = b := by
  have hl := congrArg (BitVec.setWidth 8) h
  rwa [signExtend_low, signExtend_low] at hl

theorem signExtend_eq_zero {a : Byte} : a.signExtend 32 = 0 ↔ a = 0 :=
  ⟨fun h => signExtend_injective (b := 0) h, fun h => by rw [h]; rfl⟩

theorem signExtend_and_ff (b : Byte) : b.signExtend 32 &&& 0xff = b.setWidth 32 := by
  have hm : (0xff : Word) = BitVec.ofNat 32 (2 ^ 8 - 1) := rfl
  apply BitVec.eq_of_getLsbD_eq
  intro i hi
  rw [hm, BitVec.getLsbD_and, Lanes.getLsbD_mask, BitVec.getLsbD_signExtend,
    BitVec.getLsbD_setWidth, decide_eq_true hi]
  by_cases h : i < 8
  · rw [if_pos h, decide_eq_true h, Bool.true_and, Bool.true_and, Bool.and_true]
  · rw [decide_eq_false h, BitVec.getLsbD_of_ge b i (Nat.le_of_not_lt h)]
    simp only [Bool.and_false]

theorem assemble_ok {bytes : JavaBytes} {off : Word} (h : off.toNat + 3 < bytes.bytes.length)
    (m : Memory) : assemble bytes 4 off 0 m =
    (.ok (bytes.at off.toNat ++ bytes.at (off.toNat + 1) ++
      bytes.at (off.toNat + 2) ++ bytes.at (off.toNat + 3)), m) := by
  have hl := bytes.length_lt
  have next (n : Nat) (hn : n ≤ 3) : (off + BitVec.ofNat 32 n).toNat = off.toNat + n := by
    rw [BitVec.toNat_add, BitVec.toNat_ofNat]
    omega
  have byte (n : Nat) (hn : n ≤ 3) : arrayByte bytes (off + BitVec.ofNat 32 n) m =
      (.ok ((bytes.at (off.toNat + n)).signExtend 32), m) := by
    have hb : arrayByte bytes (off + BitVec.ofNat 32 n) m = _ :=
      arrayByte_ok (by rw [next n hn]; omega) m
    rwa [next n hn] at hb
  have e₀ : arrayByte bytes off m = _ := arrayByte_ok (by omega) m
  have e₁ : arrayByte bytes (off + 1) m = _ := byte 1 (by decide)
  have e₂ : arrayByte bytes (off + 2) m = _ := byte 2 (by decide)
  have e₃ : arrayByte bytes (off + 3) m = _ := byte 3 (by decide)
  have a₂ : off + 1 + 1 = off + 2 := BitVec.add_assoc off 1 1
  have a₃ : off + 2 + 1 = off + 3 := BitVec.add_assoc off 2 1
  have s₈ (x : Word) : ishl x 8 = x <<< 8 := rfl
  have hz (x : Word) : ishl 0 8 ||| x = x := by
    exact (congrArg (· ||| x) (BitVec.zero_shiftLeft (w := 32) 8)).trans BitVec.zero_or
  rw [assemble, MemM.bind_of_ok e₀, assemble, MemM.bind_of_ok e₁, assemble, a₂,
    MemM.bind_of_ok e₂, assemble, a₃, MemM.bind_of_ok e₃, assemble, MemM.pure_apply]
  refine ok_congr ?_ m
  rw [hz, s₈, s₈, s₈, signExtend_and_ff, signExtend_and_ff, signExtend_and_ff, signExtend_and_ff,
    Lanes.shifted_in]

/-- The ranges of a copy lie within the memory and the array. -/
structure CopyInRange (m : Memory) (bytes : JavaBytes) (x : Copy) : Prop where
  size : 0 ≤ x.size.toInt
  memory : x.addr.toNat + x.size.toNat ≤ m.size
  array : x.off.toNat + x.size.toNat ≤ bytes.bytes.length

/-- The first `k` bytes of the copy that began with `x` and `m` have been made. -/
structure Copied (m : Memory) (bytes : JavaBytes) (x : Copy) (k : Nat) (y : Copy) (m' : Memory) :
    Prop where
  range : CopyInRange m bytes x
  addr : y.addr.toNat = x.addr.toNat + k
  off : y.off.toNat = x.off.toNat + k
  size : y.size.toNat + k = x.size.toNat
  memory : m'.flat = Lanes.put m.flat x.addr.toNat (bytes.source x.off.toNat k)
  length : m'.size = m.size

section

variable {m m' : Memory} {bytes : JavaBytes} {x y : Copy} {k : Nat}

theorem CopyInRange.start (h : CopyInRange m bytes x) : Copied m bytes x 0 x m where
  range := h
  addr := rfl
  off := rfl
  size := rfl
  memory := by
    rw [JavaBytes.source, List.take_zero, Lanes.put_nil]
  length := rfl

theorem toInt_of_size (h : CopyInRange m bytes x) (hy : y.size.toNat ≤ x.size.toNat) :
    y.size.toInt = y.size.toNat := by
  have hl := bytes.length_lt
  have ha := h.array
  exact BitVec.toInt_eq_toNat_of_lt (by omega)

theorem step_toNat (hr : CopyInRange m bytes x) (ha : y.addr.toNat = x.addr.toNat + k)
    (ho : y.off.toNat = x.off.toNat + k) (hs : y.size.toNat + k = x.size.toNat)
    (hn : n ≤ y.size.toNat) :
    (y.addr + BitVec.ofNat 32 n).toNat = x.addr.toNat + (k + n) ∧
      (y.off + BitVec.ofNat 32 n).toNat = x.off.toNat + (k + n) ∧
      (y.size - BitVec.ofNat 32 n).toNat + (k + n) = x.size.toNat := by
  have hm := hr.memory
  have hb := hr.array
  have hl := bytes.length_lt
  have hw := m.size_lt
  rw [Memory.size] at hm
  have hn32 : (BitVec.ofNat 32 n).toNat = n := by
    rw [BitVec.toNat_ofNat]
    exact Nat.mod_eq_of_lt (by omega)
  refine ⟨?_, ?_, ?_⟩
  · rw [BitVec.toNat_add_of_lt (by omega)]
    omega
  · rw [BitVec.toNat_add_of_lt (by omega)]
    omega
  · rw [BitVec.toNat_sub_of_le (by rw [BitVec.le_def]; omega)]
    omega

namespace Copied

theorem toInt_size (h : Copied m bytes x k y m') : y.size.toInt = y.size.toNat := by
  have hs := h.size
  exact toInt_of_size h.range (by omega)

/-- The next `n` bytes are written behind those already there. -/
theorem advance (h : Copied m bytes x k y m') {n : Nat} (hn : n ≤ y.size.toNat)
    (hf : m₂.flat = Lanes.put m'.flat y.addr.toNat (bytes.source y.off.toNat n))
    (hz : m₂.size = m'.size) : Copied m bytes x (k + n) (y.step (BitVec.ofNat 32 n)) m₂ where
  range := h.range
  addr := (step_toNat h.range h.addr h.off h.size hn).1
  off := (step_toNat h.range h.addr h.off h.size hn).2.1
  size := (step_toNat h.range h.addr h.off h.size hn).2.2
  memory := by
    have hs := h.size
    have hb := h.range.array
    have hlen : (bytes.source x.off.toNat k).length = k := by
      rw [JavaBytes.source, List.length_take, List.length_drop]
      omega
    have hp := Lanes.put_append m.flat x.addr.toNat (bytes.source x.off.toNat k)
      (bytes.source y.off.toNat n)
    rw [hlen] at hp
    rw [hf, h.memory, h.addr, hp, h.off]
    congr 1
    rw [JavaBytes.source, JavaBytes.source, JavaBytes.source, List.take_add, List.drop_drop]
  length := hz.trans h.length

theorem addr_lt (h : Copied m bytes x k y m') (hn : 0 < y.size.toNat) : y.addr.toNat < m'.size := by
  have hs := h.size
  have hm := h.range.memory
  rw [h.length, h.addr]
  omega

theorem off_lt (h : Copied m bytes x k y m') {n : Nat} (hn : n < y.size.toNat) :
    y.off.toNat + n < bytes.bytes.length := by
  have hs := h.size
  have hb := h.range.array
  rw [h.off]
  omega

end Copied

/-- One byte more, as the head and the tail copy it. -/
theorem Copied.byte (h : Copied m bytes x k y m') (hn : 0 < y.size.toNat) :
    ∃ v m₂, arrayByte bytes y.off m' = (.ok v, m') ∧ memoryWriteByte y.addr v m' = (.ok (), m₂) ∧
      Copied m bytes x (k + 1) (y.step 1) m₂ := by
  have hoff : y.off.toNat < bytes.bytes.length := h.off_lt hn
  obtain ⟨m₂, hw, hz, hf⟩ := memoryWriteByte_flat (h.addr_lt hn)
    ((bytes.at y.off.toNat).signExtend 32)
  refine ⟨_, m₂, arrayByte_ok hoff m', hw, h.advance (n := 1) hn ?_ hz⟩
  rw [hf, Lanes.write_one, signExtend_low, JavaBytes.source_one hoff]

/-- Four bytes more, as a word. -/
theorem Copied.word (h : Copied m bytes x k y m') (hn : 3 < y.size.toNat)
    (ha : y.addr.toNat % 4 = 0) :
    ∃ v m₂, assemble bytes 4 y.off 0 m' = (.ok v, m') ∧ memoryWriteWord y.addr v m' = (.ok (), m₂) ∧
      Copied m bytes x (k + 4) (y.step 4) m₂ := by
  have hoff := h.off_lt hn
  have hlt := h.addr_lt (Nat.lt_of_le_of_lt (Nat.zero_le _) hn)
  refine ⟨_, _, assemble_ok hoff m', memoryWriteWord_ok hlt _, h.advance (n := 4) hn ?_
    (Memory.size_setWord ..)⟩
  rw [Memory.flat_setWord ha hlt, Lanes.write_four, JavaBytes.source_four hoff]

/-- Behind the loop with result `r`, `k` bytes have been made and `D k y` holds. -/
def CopyExit (m : Memory) (bytes : JavaBytes) (x : Copy) (D : Copy → Prop) :
    Exit Copy Unit → Memory → Prop
  | .leave y, m' => D y ∧ ∃ k, Copied m bytes x k y m'
  | .ret (), m' => ∃ y, Copied m bytes x x.size.toNat y m'

theorem size_pos (h : Copied m bytes x k y m') : 0 < y.size.toInt ↔ 0 < y.size.toNat := by
  rw [h.toInt_size]
  exact Int.natCast_pos

theorem memcpyHead_turn (h : Copied m bytes x k y m') :
    ∃ t m₂, memcpyHead bytes y m' = (.ok t, m₂) ∧
    t.Ensures (fun y m' => ∃ k, Copied m bytes x k y m')
      (CopyExit m bytes x fun y => y.addr.toNat % 4 = 0 ∨ y.size.toNat = 0)
      (fun y => y.size.toNat) y m₂ := by
  by_cases hc : y.addr &&& 3 ≠ 0 ∧ 0 < y.size.toInt
  · have hn := (size_pos h).mp hc.2
    obtain ⟨v, m₂, hr, hw, hk⟩ := h.byte hn
    refine ⟨if y.size - 1 = 0 then .ret () else .next (y.step 1), m₂, ?_, ?_⟩
    · rw [memcpyHead, if_pos hc, MemM.bind_of_ok hr, MemM.bind_of_ok hw]
      rfl
    · have hs := h.size
      have hk' := hk.size
      split
      · next hz =>
        have h0 : (y.step 1).size.toNat = 0 := congrArg BitVec.toNat hz
        have he : k + 1 = x.size.toNat := by omega
        exact ⟨_, he ▸ hk⟩
      · have hlt : (y.step 1).size.toNat < y.size.toNat := by omega
        exact ⟨⟨_, hk⟩, hlt⟩
  · refine ⟨.leave y, m', by rw [memcpyHead, if_neg hc]; rfl, ?_, k, h⟩
    by_cases ha : y.addr &&& 3 = 0
    · exact .inl ((and_three_eq_zero _).mp ha)
    · exact .inr (Nat.eq_zero_of_not_pos fun hn => hc ⟨ha, (size_pos h).mpr hn⟩)

theorem memcpyHead_ends (h : Copied m bytes x k y m') (hf : y.size.toNat < fuel) :
    ∃ r m₂, boundedLoop (memcpyHead bytes) fuel y m' = (.ok (some r), m₂) ∧
      CopyExit m bytes x (fun y => y.addr.toNat % 4 = 0 ∨ y.size.toNat = 0) r m₂ :=
  boundedLoop_ends (I := fun y m' => ∃ k, Copied m bytes x k y m') (μ := fun y => y.size.toNat)
    (fun _ _ ⟨_, h⟩ => memcpyHead_turn h) ⟨k, h⟩ hf

theorem memcpyWords_turn (h : Copied m bytes x k y m')
    (ha : y.addr.toNat % 4 = 0 ∨ y.size.toNat = 0) :
    ∃ t m₂, memcpyWords bytes y m' = (.ok t, m₂) ∧
      t.Ensures (fun y m' => (y.addr.toNat % 4 = 0 ∨ y.size.toNat = 0) ∧
        ∃ k, Copied m bytes x k y m') (CopyExit m bytes x fun _ => True)
        (fun y => y.size.toNat) y m₂ := by
  by_cases hc : 3 < y.size.toInt
  · have hn : 3 < y.size.toNat := by
      have hi := h.toInt_size
      omega
    obtain ⟨v, m₂, hr, hw, hk⟩ := h.word hn (ha.resolve_right (by omega))
    refine ⟨.next (y.step 4), m₂, ?_, ⟨.inl ?_, _, hk⟩, ?_⟩
    · rw [memcpyWords, if_pos hc, MemM.bind_of_ok hr, MemM.bind_of_ok hw]
      rfl
    · have h₁ := h.addr
      have h₂ := hk.addr
      omega
    · have h₁ := h.size
      have h₂ := hk.size
      have hlt : (y.step 4).size.toNat < y.size.toNat := by omega
      exact hlt
  · exact ⟨.leave y, m', by rw [memcpyWords, if_neg hc]; rfl, trivial, k, h⟩

theorem memcpyWords_ends (h : Copied m bytes x k y m')
    (ha : y.addr.toNat % 4 = 0 ∨ y.size.toNat = 0) (hf : y.size.toNat < fuel) :
    ∃ r m₂, boundedLoop (memcpyWords bytes) fuel y m' = (.ok (some r), m₂) ∧
      CopyExit m bytes x (fun _ => True) r m₂ :=
  boundedLoop_ends (I := fun y m' => (y.addr.toNat % 4 = 0 ∨ y.size.toNat = 0) ∧
      ∃ k, Copied m bytes x k y m') (μ := fun y => y.size.toNat)
    (fun _ _ ⟨ha, _, h⟩ => memcpyWords_turn h ha) ⟨ha, k, h⟩ hf

theorem memcpyTail_turn (h : Copied m bytes x k y m') :
    ∃ t m₂, memcpyTail bytes y m' = (.ok t, m₂) ∧
    t.Ensures (fun y m' => ∃ k, Copied m bytes x k y m')
      (CopyExit m bytes x fun y => y.size.toNat = 0) (fun y => y.size.toNat) y m₂ := by
  by_cases hc : 0 < y.size.toInt
  · have hn := (size_pos h).mp hc
    obtain ⟨v, m₂, hr, hw, hk⟩ := h.byte hn
    refine ⟨.next (y.step 1), m₂, ?_, ⟨_, hk⟩, ?_⟩
    · rw [memcpyTail, if_pos hc, MemM.bind_of_ok hr, MemM.bind_of_ok hw]
      rfl
    · have h₁ := h.size
      have h₂ := hk.size
      have hlt : (y.step 1).size.toNat < y.size.toNat := by omega
      exact hlt
  · refine ⟨.leave y, m', by rw [memcpyTail, if_neg hc]; rfl, ?_, k, h⟩
    exact Nat.eq_zero_of_not_pos fun hn => hc ((size_pos h).mpr hn)

theorem memcpyTail_ends (h : Copied m bytes x k y m') (hf : y.size.toNat < fuel) :
    ∃ r m₂, boundedLoop (memcpyTail bytes) fuel y m' = (.ok (some r), m₂) ∧
      CopyExit m bytes x (fun y => y.size.toNat = 0) r m₂ :=
  boundedLoop_ends (I := fun y m' => ∃ k, Copied m bytes x k y m') (μ := fun y => y.size.toNat)
    (fun _ _ ⟨_, h⟩ => memcpyTail_turn h) ⟨k, h⟩ hf

theorem Copied.le (h : Copied m bytes x k y m') : y.size.toNat ≤ x.size.toNat := by
  have hs := h.size
  omega

/-- The three loops together have copied all the bytes. -/
theorem memcpy_copies (h : CopyInRange m bytes x) (hf : x.size.toNat < fuel) :
    ∃ m', memcpy fuel bytes x m = (.ok (some ()), m') ∧ m'.size = m.size ∧
      m'.flat = Lanes.put m.flat x.addr.toNat (bytes.source x.off.toNat x.size.toNat) := by
  have done {y m'} (h : Copied m bytes x x.size.toNat y m') : m'.size = m.size ∧
      m'.flat = Lanes.put m.flat x.addr.toNat (bytes.source x.off.toNat x.size.toNat) :=
    ⟨h.length, h.memory⟩
  obtain ⟨r₁, m₁, e₁, q₁⟩ := memcpyHead_ends h.start hf
  rw [memcpy, e₁]
  cases r₁ with
  | ret =>
    obtain ⟨y, hy⟩ := q₁
    exact ⟨m₁, rfl, done hy⟩
  | leave y =>
    obtain ⟨ha, k₁, h₁⟩ := q₁
    obtain ⟨r₂, m₂, e₂, q₂⟩ := memcpyWords_ends h₁ ha (Nat.lt_of_le_of_lt h₁.le hf)
    simp only [Exit.andThen, e₂]
    cases r₂ with
    | ret =>
      obtain ⟨y, hy⟩ := q₂
      exact ⟨m₂, rfl, done hy⟩
    | leave z =>
      obtain ⟨-, k₂, h₂⟩ := q₂
      obtain ⟨r₃, m₃, e₃, q₃⟩ := memcpyTail_ends h₂ (Nat.lt_of_le_of_lt h₂.le hf)
      simp only [e₃]
      cases r₃ with
      | ret =>
        obtain ⟨y, hy⟩ := q₃
        exact ⟨m₃, rfl, done hy⟩
      | leave u =>
        obtain ⟨hz, k₃, h₃⟩ := q₃
        have hk : k₃ = x.size.toNat := by
          have hs := h₃.size
          omega
        exact ⟨m₃, rfl, done (hk ▸ h₃)⟩

end

/-- The list with `ys` in place of its elements from `i` on. -/
def splice (xs : List α) (i : Nat) (ys : List α) : List α :=
  xs.take i ++ ys ++ xs.drop (i + ys.length)

@[simp] theorem splice_nil (xs : List α) (i : Nat) : splice xs i [] = xs := by
  rw [splice, List.append_nil]
  exact List.take_append_drop i xs

theorem splice_set {xs ys : List α} (h : i + ys.length < xs.length) (v : α) :
    (splice xs i ys).set (i + ys.length) v = splice xs i (ys ++ [v]) := by
  have hl : (xs.take i ++ ys).length = i + ys.length := by
    rw [List.length_append, List.length_take, Nat.min_eq_left (by omega)]
  rw [splice, List.set_append_right _ _ (Nat.le_of_eq hl), hl, Nat.sub_self,
    List.drop_eq_getElem_cons h, List.set_cons_zero, splice, List.length_append,
    ← List.append_assoc, List.append_assoc _ [v]]
  rfl

theorem splice_length {xs ys : List α} (h : i + ys.length ≤ xs.length) :
    (splice xs i ys).length = xs.length := by
  rw [splice, List.length_append, List.length_append, List.length_take, List.length_drop]
  omega

/-- The bytes of the memory from `a` on. -/
def memoryBytes (m : Memory) (a n : Nat) : List Byte := (List.range n).map fun i => m.flat (a + i)

theorem memoryBytes_length (m : Memory) (a n : Nat) : (memoryBytes m a n).length = n := by
  rw [memoryBytes, List.length_map, List.length_range]

theorem memoryBytes_succ (m : Memory) (a n : Nat) :
    memoryBytes m a (n + 1) = memoryBytes m a n ++ [m.flat (a + n)] := by
  rw [memoryBytes, List.range_succ, List.map_append]
  rfl

/-- Bytes that were put into the memory are found there. -/
theorem memoryBytes_put {m m' : Memory} {bs : List Byte} (h : m'.flat = Lanes.put m.flat a bs) :
    memoryBytes m' a bs.length = bs := by
  apply List.ext_getElem?
  intro i
  rw [memoryBytes, List.getElem?_map, h]
  by_cases hi : i < bs.length
  · have hr : a ≤ a + i ∧ a + i < a + bs.length := by omega
    rw [List.getElem?_range hi, List.getElem?_eq_getElem hi, Option.map_some, Lanes.put_of_mem hr,
      Nat.add_sub_cancel_left, List.getD_eq_getElem?_getD, List.getElem?_eq_getElem hi]
    rfl
  · rw [List.getElem?_eq_none (by rw [List.length_range]; exact Nat.le_of_not_lt hi),
      List.getElem?_eq_none (Nat.le_of_not_lt hi)]
    rfl

/-- The first `k` bytes of the copy into `other` have been made. -/
structure CopiedBack (m : Memory) (x : Copy) (other : JavaBytes) (k : Nat) (y : Copy)
    (b : JavaBytes) : Prop where
  addr : y.addr.toNat = x.addr.toNat + k
  off : y.off.toNat = x.off.toNat + k
  size : y.size.toNat + k = x.size.toNat
  bytes : b.bytes = splice other.bytes x.off.toNat (memoryBytes m x.addr.toNat k)

variable {m : Memory} {x : Copy} {other : JavaBytes}

theorem memcpyBack_turn (hr : CopyInRange m other x) (h : CopiedBack m x other k y b) :
    ∃ t b', memcpyBackTurn m y b = (.ok t, b') ∧
      t.Ensures (fun y b => ∃ k, CopiedBack m x other k y b)
        (fun r b => ∃ y k, r = .leave y ∧ y.size.toNat = 0 ∧ CopiedBack m x other k y b)
        (fun y => y.size.toNat) y b' := by
  have ha := h.addr
  have ho := h.off
  have hs := h.size
  have hm := hr.memory
  have hb := hr.array
  have hi := toInt_of_size (y := y) hr (by omega)
  by_cases hc : 0 < y.size.toInt
  · have hlt : y.addr.toNat < m.size := by omega
    have hspl : (splice other.bytes x.off.toNat (memoryBytes m x.addr.toNat k)).length =
        other.bytes.length := splice_length (by rw [memoryBytes_length]; omega)
    have hoff : y.off.toNat < b.bytes.length := by
      rw [h.bytes, hspl]
      omega
    obtain ⟨b', hb', hset⟩ := JavaBytes.store_ok hoff (m.flat y.addr.toNat)
    obtain ⟨ha', ho', hs'⟩ := step_toNat hr ha ho hs (n := 1) (by omega)
    have hk : CopiedBack m x other (k + 1) (y.step 1) b' := by
      refine ⟨ha', ho', hs', ?_⟩
      have hl : x.off.toNat + (memoryBytes m x.addr.toNat k).length < other.bytes.length := by
        rw [memoryBytes_length]
        omega
      have hset' := splice_set hl (m.flat y.addr.toNat)
      rw [memoryBytes_length, ← ho] at hset'
      rw [hset, h.bytes, hset', memoryBytes_succ, ← ha]
    have hless : (y.step 1).size.toNat < y.size.toNat := by
      have hs₁ := hk.size
      omega
    refine ⟨.next (y.step 1), b', ?_, ⟨_, hk⟩, hless⟩
    rw [memcpyBackTurn, if_pos hc, memoryReadByte_ok hlt]
    simp only [signExtend_low, hb']
  · refine ⟨.leave y, b, by rw [memcpyBackTurn, if_neg hc], y, k, rfl, ?_, h⟩
    omega

theorem memcpyBack_copies (hr : CopyInRange m other x) (hf : x.size.toNat < fuel) :
    ∃ b, memcpyBack fuel m x other = (.ok (some ()), b) ∧
      b.bytes = splice other.bytes x.off.toNat (memoryBytes m x.addr.toNat x.size.toNat) := by
  have start : CopiedBack m x other 0 x other := by
    refine ⟨rfl, rfl, rfl, ?_⟩
    exact (splice_nil other.bytes _).symm
  obtain ⟨r, b, he, y, k, rfl, hz, hk⟩ := boundedLoop_ends
    (I := fun y b => ∃ k, CopiedBack m x other k y b) (μ := fun y => y.size.toNat)
    (Q := fun r b => ∃ y k, r = .leave y ∧ y.size.toNat = 0 ∧ CopiedBack m x other k y b)
    (fun _ _ ⟨_, h⟩ => memcpyBack_turn hr h) ⟨0, start⟩ hf
  refine ⟨b, by rw [memcpyBack, he]; rfl, ?_⟩
  have hs := hk.size
  have hkx : k = x.size.toNat := by omega
  rw [hk.bytes, hkx]

/-- `memcpy` puts exactly the bytes of the array at `addr`, and a `memcpy` from there puts them
into another array. -/
theorem memcpy_bytewise (m : Memory) (bytes other : JavaBytes) (addr off off₂ size : Word)
    (h : CopyInRange m bytes ⟨addr, off, size⟩)
    (h₂ : off₂.toNat + size.toNat ≤ other.bytes.length) (hf : size.toNat < fuel) :
    ∃ m', memcpy fuel bytes ⟨addr, off, size⟩ m = (.ok (some ()), m') ∧ m'.size = m.size ∧
      m'.flat = Lanes.put m.flat addr.toNat (bytes.source off.toNat size.toNat) ∧
      ∃ other', memcpyBack fuel m' ⟨addr, off₂, size⟩ other = (.ok (some ()), other') ∧
        other'.bytes = splice other.bytes off₂.toNat (bytes.source off.toNat size.toNat) := by
  obtain ⟨m', he, hz, hm⟩ := memcpy_copies h hf
  have hr : CopyInRange m' other ⟨addr, off₂, size⟩ := ⟨h.size, hz ▸ h.memory, h₂⟩
  obtain ⟨b, hb, hs⟩ := memcpyBack_copies hr hf
  refine ⟨m', he, hz, hm, b, hb, ?_⟩
  have hl : (bytes.source off.toNat size.toNat).length = size.toNat := by
    have ha := h.array
    rw [JavaBytes.source, List.length_take, List.length_drop]
    exact Nat.min_eq_left (Nat.le_sub_of_add_le (Nat.add_comm _ _ ▸ ha))
  have hput := memoryBytes_put hm
  rw [hl] at hput
  rw [hs, hput]

/-- Six bytes to an address that is not a word's. -/
theorem memcpy_bytewise_six :
    ∃ m', memcpy 7 ⟨[1, 2, 3, 4, 5, 6, 7], by decide⟩ ⟨3, 1, 6⟩
        ⟨List.replicate 4 0, by decide⟩ = (.ok (some ()), m') ∧
      m'.flat = Lanes.put (Lanes.byteAt (List.replicate 4 0)) 3 [2, 3, 4, 5, 6, 7] := by
  obtain ⟨m', he, -, hm, -⟩ := memcpy_bytewise ⟨List.replicate 4 0, by decide⟩
    ⟨[1, 2, 3, 4, 5, 6, 7], by decide⟩ ⟨List.replicate 6 0, by decide⟩ 3 1 0 6
    ⟨by decide, by decide, by decide⟩ (by decide) (by decide : (6 : Word).toNat < 7)
  exact ⟨m', he, hm⟩

end CRunTime

end Cibyl
