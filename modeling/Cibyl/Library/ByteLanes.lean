import Mathlib.Data.BitVec
import Mathlib.Tactic.Common

namespace Lanes
set_option autoImplicit true

/-- The bits `b .. b + n - 1` of `w` replaced by the low bits of `v`. -/
def insert (n : Nat) (w v : BitVec 32) (b : Nat) : BitVec 32 :=
  (w &&& ~~~(BitVec.ofNat 32 (2 ^ n - 1) <<< b)) |||
    ((v &&& BitVec.ofNat 32 (2 ^ n - 1)) <<< b)

theorem getLsbD_mask (n i : Nat) :
    (BitVec.ofNat 32 (2 ^ n - 1)).getLsbD i = (decide (i < 32) && decide (i < n)) := by
  rw [BitVec.getLsbD_ofNat, Nat.testBit_two_pow_sub_one]

theorem getLsbD_insert (n : Nat) (w v : BitVec 32) (b i : Nat) (hi : i < 32) :
    (insert n w v b).getLsbD i =
      if b ≤ i ∧ i < b + n then v.getLsbD (i - b) else w.getLsbD i := by
  have hm : i - b < 32 := by omega
  simp only [insert, BitVec.getLsbD_or, BitVec.getLsbD_and, BitVec.getLsbD_not,
    BitVec.getLsbD_shiftLeft, getLsbD_mask, hi, hm, decide_true, Bool.true_and]
  by_cases h : b ≤ i
  · by_cases h' : i < b + n
    · have hn : i - b < n := by omega
      simp [h, h', hn, Nat.not_lt.mpr h]
    · have hn : ¬ i - b < n := by omega
      simp [h, h', hn]
  · simp [h, Nat.lt_of_not_le h]

/-- The bits `b .. b + n - 1` of `w` as a number of `n` bits. -/
theorem shift_mask (n : Nat) (w : BitVec 32) (b : Nat) :
    (w >>> b) &&& BitVec.ofNat 32 (2 ^ n - 1) = (w.extractLsb' b n).setWidth 32 := by
  apply BitVec.eq_of_getLsbD_eq
  intro i hi
  simp only [BitVec.getLsbD_and, BitVec.getLsbD_ushiftRight, getLsbD_mask, BitVec.getLsbD_setWidth,
    BitVec.getLsbD_extractLsb', hi, decide_true, Bool.true_and]
  exact Bool.and_comm _ _

/-- A field is masked in place or shifted down first. -/
theorem and_field (n : Nat) (w : BitVec 32) (b : Nat) : w &&& BitVec.ofNat 32 (2 ^ n - 1) <<< b =
    ((w >>> b) &&& BitVec.ofNat 32 (2 ^ n - 1)) <<< b := by
  apply BitVec.eq_of_getLsbD_eq
  intro i hi
  simp only [BitVec.getLsbD_and, BitVec.getLsbD_shiftLeft, BitVec.getLsbD_ushiftRight]
  by_cases hb : i < b
  · simp [hb]
  · rw [Nat.add_sub_of_le (Nat.le_of_not_lt hb)]
    cases w.getLsbD i <;> simp

/-- The sign bit of an `n`-bit number in a word. -/
theorem and_signBit (hn : 0 < n) (hn' : n ≤ 32) (b : BitVec n) :
    b.setWidth 32 &&& BitVec.twoPow 32 (n - 1) =
      if b.msb then BitVec.twoPow 32 (n - 1) else 0 := by
  have hi : n - 1 < 32 := by omega
  rw [BitVec.and_twoPow, BitVec.getLsbD_setWidth, BitVec.msb_eq_getLsbD_last]
  simp only [hi, decide_true, Bool.true_and]
  rfl

theorem twoPow_ne_zero (h : i < 32) : BitVec.twoPow 32 i ≠ 0 := by
  intro he
  have hb : (BitVec.twoPow 32 i).getLsbD i = true := by
    rw [BitVec.getLsbD_twoPow, decide_eq_true h, decide_eq_true rfl]
    rfl
  rw [he] at hb
  exact absurd (BitVec.getLsbD_zero.symm.trans hb) Bool.false_ne_true

theorem signExtend_or (b : BitVec n) :
    b.signExtend 32 =
      if b.msb then b.setWidth 32 ||| ~~~BitVec.ofNat 32 (2 ^ n - 1) else b.setWidth 32 := by
  apply BitVec.eq_of_getLsbD_eq
  intro i hi
  rw [BitVec.getLsbD_signExtend]
  cases hb : b.msb with
  | false =>
    rw [if_neg Bool.false_ne_true, BitVec.getLsbD_setWidth, decide_eq_true hi, Bool.true_and]
    split
    · rfl
    · next hin => exact (BitVec.getLsbD_of_ge b i (Nat.le_of_not_lt hin)).symm
  | true =>
    rw [if_pos rfl, BitVec.getLsbD_or, BitVec.getLsbD_setWidth, BitVec.getLsbD_not, getLsbD_mask,
      decide_eq_true hi]
    by_cases hin : i < n
    · simp [hin]
    · simp [hin]

/-- Lane `k` of a word: lane 0 holds the most significant byte. -/
def byte (w : BitVec 32) (k : Nat) : BitVec 8 := w.extractLsb' (8 * (3 - k)) 8

/-- Flat byte memory. -/
abbrev Flat := Nat → BitVec 8

/-- The byte at address `a` of the flat memory that the words `m` stand for. -/
def byteAt (m : List (BitVec 32)) : Flat := fun a => byte (m.getD (a / 4) 0) (a % 4)

def readShort (f : Flat) (a : Nat) : BitVec 16 := f a ++ f (a + 1)

def readWord (f : Flat) (a : Nat) : BitVec 32 := f a ++ f (a + 1) ++ f (a + 2) ++ f (a + 3)

def readLong (f : Flat) (a : Nat) : BitVec 64 := readWord f a ++ readWord f (a + 4)

/-- Store the low `n` bytes of `v` at `a`, most significant byte first. -/
def write (n : Nat) (f : Flat) (a : Nat) (v : BitVec w) : Flat := fun i =>
  if a ≤ i ∧ i < a + n then v.extractLsb' (8 * (n - 1 - (i - a))) 8 else f i

theorem write_of_mem (h : a ≤ i ∧ i < a + n) (v : BitVec w) :
    write n f a v i = v.extractLsb' (8 * (n - 1 - (i - a))) 8 := if_pos h

theorem write_of_not_mem (h : ¬ (a ≤ i ∧ i < a + n)) (v : BitVec w) :
    write n f a v i = f i := if_neg h

theorem byteAt_eq (h : a / 4 < m.length) : byteAt m a = byte m[a / 4] (a % 4) := by
  simp only [byteAt, List.getD_eq_getElem?_getD, List.getElem?_eq_getElem h, Option.getD_some]

theorem readShort_byteAt (ha : a % 2 = 0) (h : a / 4 < m.length) :
    readShort (byteAt m) a = m[a / 4].extractLsb' (8 * (2 - a % 4)) 16 := by
  have hd : (a + 1) / 4 = a / 4 := by omega
  have hm : (a + 1) % 4 = a % 4 + 1 := by omega
  apply BitVec.eq_of_getLsbD_eq
  intro i hi
  simp only [readShort, byteAt, hd, hm, List.getD_eq_getElem?_getD, List.getElem?_eq_getElem h,
    Option.getD_some, byte, BitVec.getLsbD_append, BitVec.getLsbD_extractLsb', hi]
  split
  · next hl =>
    simp only [hl, decide_true, Bool.true_and]
    congr 1
    omega
  · next hl =>
    have hi' : i - 8 < 8 := by omega
    simp only [hi', decide_true, Bool.true_and]
    congr 1
    omega

theorem readWord_byteAt (ha : a % 4 = 0) (h : a / 4 < m.length) :
    readWord (byteAt m) a = m[a / 4] := by
  have hd (j : Nat) (hj : j < 4) : (a + j) / 4 = a / 4 := by omega
  have hm (j : Nat) (hj : j < 4) : (a + j) % 4 = j := by omega
  have hb (j : Nat) (hj : j < 4) : byteAt m (a + j) = byte m[a / 4] j := by
    simp only [byteAt, hd j hj, hm j hj, List.getD_eq_getElem?_getD, List.getElem?_eq_getElem h,
      Option.getD_some]
  have hb₀ := hb 0 (by decide)
  rw [Nat.add_zero] at hb₀
  apply BitVec.eq_of_getLsbD_eq
  intro i hi
  rw [readWord, hb₀, hb 1 (by decide), hb 2 (by decide), hb 3 (by decide)]
  simp only [byte, BitVec.getLsbD_append, BitVec.getLsbD_extractLsb']
  grind

/-- Inserting `n` bytes into the word that holds them is a flat store of `n` bytes. -/
theorem byteAt_set_insert (hn : a % 4 + n ≤ 4) (h : a / 4 < m.length) (v : BitVec 32) :
    byteAt (m.set (a / 4) (insert (8 * n) m[a / 4] v (8 * (4 - n - a % 4)))) =
      write n (byteAt m) a v := by
  funext j
  by_cases hj : j / 4 = a / 4
  · apply BitVec.eq_of_getLsbD_eq
    intro i hi
    have hp : 8 * (3 - j % 4) + i < 32 := by omega
    simp only [byteAt, byte, hj, List.getD_eq_getElem?_getD, List.getElem?_set_self h,
      Option.getD_some, BitVec.getLsbD_extractLsb', hi, decide_true, Bool.true_and,
      getLsbD_insert _ _ _ _ _ hp]
    by_cases hr : a ≤ j ∧ j < a + n
    · rw [write_of_mem hr, if_pos (by omega), BitVec.getLsbD_extractLsb']
      simp only [hi, decide_true, Bool.true_and]
      congr 1
      omega
    · rw [write_of_not_mem hr, if_neg (by omega)]
      simp only [byteAt, byte, hj, List.getD_eq_getElem?_getD, List.getElem?_eq_getElem h,
        Option.getD_some, BitVec.getLsbD_extractLsb', hi, decide_true, Bool.true_and]
  · rw [write_of_not_mem (by omega)]
    simp only [byteAt, List.getD_eq_getElem?_getD, List.getElem?_set_ne (Ne.symm hj)]

theorem insert_all (w v : BitVec 32) : insert 32 w v 0 = v := by
  apply BitVec.eq_of_getLsbD_eq
  intro i hi
  rw [getLsbD_insert _ _ _ _ _ hi, if_pos ⟨Nat.zero_le i, by omega⟩, Nat.sub_zero]

theorem byteAt_set_word (ha : a % 4 = 0) (h : a / 4 < m.length) (v : BitVec 32) :
    byteAt (m.set (a / 4) v) = write 4 (byteAt m) a v := by
  have hs := byteAt_set_insert (n := 4) (by omega) h v
  rwa [ha, insert_all] at hs

theorem write_append (f : Flat) (a : Nat) (u v : BitVec 32) :
    write 4 (write 4 f a u) (a + 4) v = write 8 f a (u ++ v) := by
  funext i
  apply BitVec.eq_of_getLsbD_eq
  intro j hj
  simp only [write]
  split
  · next h =>
    have hr : a ≤ i ∧ i < a + 8 := by omega
    simp only [if_pos hr, BitVec.getLsbD_extractLsb', BitVec.getLsbD_append, hj, decide_true,
      Bool.true_and]
    grind
  · next h =>
    split
    · next h' =>
      have hr : a ≤ i ∧ i < a + 8 := by omega
      simp only [if_pos hr, BitVec.getLsbD_extractLsb', BitVec.getLsbD_append, hj, decide_true,
        Bool.true_and]
      grind
    · next h' =>
      have hr : ¬ (a ≤ i ∧ i < a + 8) := by omega
      simp only [if_neg hr]

theorem readLong_byteAt (ha : a % 4 = 0) (h : a / 4 + 1 < m.length) :
    readLong (byteAt m) a = m[a / 4] ++ m[a / 4 + 1] := by
  have hd : (a + 4) / 4 = a / 4 + 1 := by omega
  have h₁ := readWord_byteAt (m := m) ha (by omega)
  have h₂ := readWord_byteAt (m := m) (a := a + 4) (by omega) (by omega)
  simp only [readLong, h₁, h₂, hd]

theorem byte_append (b0 b1 b2 b3 : BitVec 8) (hk : k < 4) :
    byte (b0 ++ b1 ++ b2 ++ b3) k = [b0, b1, b2, b3][k] := by
  have hk' : k = 0 ∨ k = 1 ∨ k = 2 ∨ k = 3 := by omega
  apply BitVec.eq_of_getLsbD_eq
  intro i hi
  rw [byte, BitVec.getLsbD_extractLsb', decide_eq_true hi, Bool.true_and]
  simp only [BitVec.getLsbD_append]
  rcases hk' with rfl | rfl | rfl | rfl
  · rw [if_neg (by omega), if_neg (by omega), if_neg (by omega)]
    exact congrArg b0.getLsbD (by omega)
  · rw [if_neg (by omega), if_neg (by omega), if_pos (by omega)]
    exact congrArg b1.getLsbD (by omega)
  · rw [if_neg (by omega), if_pos (by omega)]
    exact congrArg b2.getLsbD (by omega)
  · rw [if_pos (by omega)]
    exact congrArg b3.getLsbD (by omega)
theorem setWidth_and_mask (b : BitVec 8) : b.setWidth 32 &&& 0xff = b.setWidth 32 := by
  apply BitVec.eq_of_getLsbD_eq
  intro i hi
  rw [BitVec.getLsbD_and, show (0xff : BitVec 32) =
    BitVec.ofNat 32 (2 ^ 8 - 1) from rfl, getLsbD_mask]
  by_cases h : i < 8
  · simp [h, hi]
  · simp [h, hi, BitVec.getLsbD_of_ge b i (by omega)]
/-- Four bytes shifted into place. -/
theorem or_shifted (b0 b1 b2 b3 : BitVec 8) :
    b0.setWidth 32 <<< 24 ||| b1.setWidth 32 <<< 16 ||| b2.setWidth 32 <<< 8 ||| b3.setWidth 32 =
      b0 ++ b1 ++ b2 ++ b3 := by
  apply BitVec.eq_of_getLsbD_eq
  intro i hi
  simp only [BitVec.getLsbD_append, BitVec.getLsbD_or, BitVec.getLsbD_shiftLeft,
    BitVec.getLsbD_setWidth, hi, decide_true, Bool.true_and]
  by_cases h3 : i < 8
  · simp [h3, show i < 16 by omega, show i < 24 by omega]
  · rw [BitVec.getLsbD_of_ge b3 i (by omega)]
    by_cases h2 : i < 16
    · simp [h3, h2, show i < 24 by omega, show i - 8 < 8 by omega, show i - 8 < 32 by omega]
    · rw [BitVec.getLsbD_of_ge b2 (i - 8) (by omega)]
      by_cases h1 : i < 24
      · simp [h3, h2, h1, show ¬ i - 8 < 8 by omega, show i - 16 < 8 by omega,
          show i - 16 < 32 by omega, Nat.sub_sub]
      · rw [BitVec.getLsbD_of_ge b1 (i - 16) (by omega)]
        simp [h3, h2, h1, show ¬ i - 8 < 8 by omega, show ¬ i - 16 < 8 by omega,
          show i - 24 < 32 by omega, Nat.sub_sub]

/-- The memory with the bytes from `a` on. -/
def put (f : Flat) (a : Nat) (bs : List (BitVec 8)) : Flat := fun i =>
  if a ≤ i ∧ i < a + bs.length then bs.getD (i - a) 0 else f i

theorem put_of_mem {bs : List (BitVec 8)} (h : a ≤ i ∧ i < a + bs.length) :
    put f a bs i = bs.getD (i - a) 0 := if_pos h

theorem put_of_not_mem {bs : List (BitVec 8)} (h : ¬ (a ≤ i ∧ i < a + bs.length)) :
    put f a bs i = f i := if_neg h

@[simp] theorem put_nil (f : Flat) (a : Nat) : put f a [] = f := by
  funext i
  exact put_of_not_mem fun h => Nat.not_lt.mpr h.1 h.2

theorem put_append (f : Flat) (a : Nat) (bs cs : List (BitVec 8)) :
    put (put f a bs) (a + bs.length) cs = put f a (bs ++ cs) := by
  funext i
  have hl : (bs ++ cs).length = bs.length + cs.length := List.length_append
  by_cases hc : a + bs.length ≤ i ∧ i < a + bs.length + cs.length
  · have hi : i - (a + bs.length) = i - a - bs.length := by omega
    rw [put_of_mem hc, put_of_mem (by omega), List.getD_eq_getElem?_getD,
      List.getD_eq_getElem?_getD, List.getElem?_append_right (by omega), hi]
  · rw [put_of_not_mem hc]
    by_cases hb : a ≤ i ∧ i < a + bs.length
    · rw [put_of_mem hb, put_of_mem (by omega), List.getD_eq_getElem?_getD,
        List.getD_eq_getElem?_getD, List.getElem?_append_left (by omega)]
    · rw [put_of_not_mem hb, put_of_not_mem (by omega)]

theorem write_one (f : Flat) (a : Nat) (v : BitVec 32) :
    write 1 f a v = put f a [v.setWidth 8] := by
  funext i
  by_cases h : a ≤ i ∧ i < a + 1
  · have hi : i - a = 0 := by omega
    rw [write_of_mem h, put_of_mem h, hi]
    apply BitVec.eq_of_getLsbD_eq
    intro j hj
    rw [BitVec.getLsbD_extractLsb', decide_eq_true hj, Bool.true_and]
    simp [hj]
  · rw [write_of_not_mem h, put_of_not_mem h]

theorem write_four (f : Flat) (a : Nat) (b0 b1 b2 b3 : BitVec 8) :
    write 4 f a (b0 ++ b1 ++ b2 ++ b3) = put f a [b0, b1, b2, b3] := by
  funext i
  by_cases h : a ≤ i ∧ i < a + 4
  · have hk : i - a < 4 := by omega
    rw [write_of_mem h, put_of_mem h]
    rw [List.getD_eq_getElem?_getD, List.getElem?_eq_getElem hk]
    exact byte_append b0 b1 b2 b3 hk
  · rw [write_of_not_mem h, put_of_not_mem h]

/-- A word that is shifted together from four bytes. -/
theorem shifted_in (b0 b1 b2 b3 : BitVec 8) :
    ((b0.setWidth 32 <<< 8 ||| b1.setWidth 32) <<< 8 ||| b2.setWidth 32) <<< 8 ||| b3.setWidth 32 =
      b0 ++ b1 ++ b2 ++ b3 := by
  rw [← or_shifted, BitVec.shiftLeft_or_distrib, BitVec.shiftLeft_or_distrib,
    BitVec.shiftLeft_or_distrib, ← BitVec.shiftLeft_add, ← BitVec.shiftLeft_add,
    ← BitVec.shiftLeft_add]

end Lanes
