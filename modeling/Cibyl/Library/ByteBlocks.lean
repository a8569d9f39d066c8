import Cibyl.Library.ByteLanes

namespace Lanes
set_option autoImplicit true

/-- The `n` bytes from `a` on. -/
def bytes (f : Flat) (a n : Nat) : List (BitVec 8) := (List.range n).map (fun i => f (a + i))

variable {f : Flat} {a b n : Nat} {bs cs : List (BitVec 8)}

@[simp] theorem length_bytes (f : Flat) (a n : Nat) : (bytes f a n).length = n := by
  rw [bytes, List.length_map, List.length_range]

@[simp] theorem bytes_zero (f : Flat) (a : Nat) : bytes f a 0 = [] := rfl

theorem bytes_succ (f : Flat) (a n : Nat) : bytes f a (n + 1) = f a :: bytes f (a + 1) n := by
  rw [bytes, List.range_succ_eq_map, List.map_cons, List.map_map, bytes]
  refine congrArg (f a :: ·) (List.map_congr_left fun i _ => ?_)
  exact congrArg f (by rw [Nat.succ_eq_add_one]; omega)

theorem bytes_succ_last (f : Flat) (a n : Nat) :
    bytes f a (n + 1) = bytes f a n ++ [f (a + n)] := by
  rw [bytes, List.range_succ, List.map_append]
  rfl

theorem bytes_congr {g : Flat} (h : ∀ i, a ≤ i → i < a + n → f i = g i) :
    bytes f a n = bytes g a n := by
  refine List.map_congr_left fun i hi => h _ (Nat.le_add_right ..) ?_
  exact Nat.add_lt_add_left (List.mem_range.mp hi) a

/-- Bytes stored elsewhere are not read. -/
theorem bytes_put (h : a + n ≤ b ∨ b + bs.length ≤ a) :
    bytes (put f b bs) a n = bytes f a n :=
  bytes_congr fun i _ _ => put_of_not_mem (by omega)

theorem put_cons (f : Flat) (a : Nat) (b : BitVec 8) (bs : List (BitVec 8)) :
    put (put f a [b]) (a + 1) bs = put f a (b :: bs) :=
  put_append f a [b] bs

/-- Bytes that are stored in front of the others. -/
theorem put_before (f : Flat) (a : Nat) (bs cs : List (BitVec 8)) :
    put (put f (a + bs.length) cs) a bs = put f a (bs ++ cs) := by
  rw [← put_append]
  funext i
  by_cases hb : a ≤ i ∧ i < a + bs.length
  · have hc : ¬ (a + bs.length ≤ i ∧ i < a + bs.length + cs.length) := by omega
    rw [put_of_mem hb, put_of_not_mem hc, put_of_mem hb]
  · rw [put_of_not_mem hb]
    by_cases hc : a + bs.length ≤ i ∧ i < a + bs.length + cs.length
    · rw [put_of_mem hc, put_of_mem hc]
    · rw [put_of_not_mem hc, put_of_not_mem hc, put_of_not_mem hb]

/-- Lists of one length that are stored alike are the same. -/
theorem put_injective (hl : bs.length = cs.length) (h : put f a bs = put f a cs) : bs = cs := by
  apply List.ext_getElem hl
  intro i hi hi'
  have hf := congrFun h (a + i)
  rw [put_of_mem (by omega), put_of_mem (by omega), Nat.add_sub_cancel_left] at hf
  simpa only [List.getD_eq_getElem?_getD, List.getElem?_eq_getElem hi,
    List.getElem?_eq_getElem hi', Option.getD_some] using hf

/-- The bytes of a word, the most significant first. -/
def wordBytes (w : BitVec 32) : List (BitVec 8) := [byte w 0, byte w 1, byte w 2, byte w 3]

theorem write_word (f : Flat) (a : Nat) (w : BitVec 32) :
    write 4 f a w = put f a (wordBytes w) := by
  funext i
  by_cases h : a ≤ i ∧ i < a + 4
  · rw [write_of_mem h, put_of_mem h]
    obtain ⟨k, rfl⟩ := Nat.exists_eq_add_of_le h.1
    have hk : k < 4 := by omega
    rw [Nat.add_sub_cancel_left]
    match k, hk with
    | 0, _ | 1, _ | 2, _ | 3, _ => rfl
  · rw [write_of_not_mem h, put_of_not_mem h]

theorem byte_or (v w : BitVec 32) (k : Nat) : byte (v ||| w) k = byte v k ||| byte w k := by
  apply BitVec.eq_of_getLsbD_eq
  intro i hi
  simp only [byte, BitVec.getLsbD_extractLsb', BitVec.getLsbD_or, hi, decide_true, Bool.true_and]

/-- A shift by whole bytes moves the lanes. -/
theorem byte_shiftLeft (w : BitVec 32) (hj : j + k < 4) :
    byte (w <<< (8 * j)) k = byte w (k + j) := by
  apply BitVec.eq_of_getLsbD_eq
  intro i hi
  have hlt : 8 * (3 - k) + i < 32 := by omega
  have hge : ¬ 8 * (3 - k) + i < 8 * j := by omega
  have he : 8 * (3 - k) + i - 8 * j = 8 * (3 - (k + j)) + i := by omega
  simp only [byte, BitVec.getLsbD_extractLsb', BitVec.getLsbD_shiftLeft, hi, hlt, hge, he,
    decide_true, decide_false, Bool.not_false, Bool.true_and]

theorem byte_shiftLeft_zero (w : BitVec 32) (hk : k < 4) (hj : 4 ≤ j + k) :
    byte (w <<< (8 * j)) k = 0#8 := by
  apply BitVec.eq_of_getLsbD_eq
  intro i hi
  have hlt : 8 * (3 - k) + i < 8 * j := by omega
  simp only [byte, BitVec.getLsbD_extractLsb', BitVec.getLsbD_shiftLeft, hlt, decide_true,
    Bool.not_true, Bool.and_false, Bool.false_and]
  exact (BitVec.getLsbD_zero ..).symm

theorem byte_three (w : BitVec 32) : byte w 3 = w.setWidth 8 := by
  apply BitVec.eq_of_getLsbD_eq
  intro i hi
  simp only [byte, BitVec.getLsbD_extractLsb', BitVec.getLsbD_setWidth, hi, decide_true,
    Bool.true_and]
  exact congrArg w.getLsbD (Nat.zero_add i)

end Lanes
