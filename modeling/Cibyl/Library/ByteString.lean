import Cibyl.Library.ByteLanes

namespace Lanes
set_option autoImplicit true

/-- The memory with `n` bytes from `a` on: the string, and zeros behind it. -/
def fill (f : Flat) (a : Nat) (cs : List (BitVec 8)) (n : Nat) : Flat := fun i =>
  if a ≤ i ∧ i < a + n then cs.getD (i - a) 0 else f i

variable {f : Flat} {a n k i : Nat} {cs : List (BitVec 8)}

theorem fill_of_mem (h : a ≤ i ∧ i < a + n) : fill f a cs n i = cs.getD (i - a) 0 := if_pos h

theorem fill_of_not_mem (h : ¬ (a ≤ i ∧ i < a + n)) : fill f a cs n i = f i := if_neg h

@[simp] theorem fill_none (f : Flat) (a : Nat) (cs : List (BitVec 8)) : fill f a cs 0 = f := by
  funext i
  exact fill_of_not_mem fun h => Nat.not_lt.mpr h.1 h.2

/-- Filling goes on where it stopped. -/
theorem fill_put {bs : List (BitVec 8)} (h : ∀ j < bs.length, bs.getD j 0 = cs.getD (k + j) 0) :
    put (fill f a cs k) (a + k) bs = fill f a cs (k + bs.length) := by
  funext i
  by_cases hb : a + k ≤ i ∧ i < a + k + bs.length
  · have hi : k + (i - (a + k)) = i - a := by omega
    rw [put_of_mem hb, fill_of_mem (by omega), h _ (by omega), hi]
  · rw [put_of_not_mem hb]
    by_cases hk : a ≤ i ∧ i < a + k
    · rw [fill_of_mem hk, fill_of_mem (by omega)]
    · rw [fill_of_not_mem hk, fill_of_not_mem (by omega)]

/-- Filling further changes nothing when the bytes are already there. -/
theorem fill_eq_iff (h : k ≤ n) :
    fill f a cs k = fill f a cs n ↔ ∀ j, k ≤ j → j < n → f (a + j) = cs.getD j 0 := by
  constructor
  · intro he j hk hn
    have hj := congrFun he (a + j)
    rwa [fill_of_not_mem (by omega), fill_of_mem (by omega), Nat.add_sub_cancel_left] at hj
  · intro hf
    funext i
    by_cases hi : a ≤ i ∧ i < a + k
    · rw [fill_of_mem hi, fill_of_mem (by omega)]
    · rw [fill_of_not_mem hi]
      by_cases hn : a ≤ i ∧ i < a + n
      · have hia : a + (i - a) = i := Nat.add_sub_cancel' hn.1
        have hj := hf (i - a) (by omega) (by omega)
        rw [fill_of_mem hn, ← hj, hia]
      · rw [fill_of_not_mem hn]

/-- Strings that are alike as far as is filled. -/
theorem fill_congr {ds : List (BitVec 8)} (h : ∀ j < n, cs.getD j 0 = ds.getD j 0) :
    fill f a cs n = fill f a ds n := by
  funext i
  by_cases hi : a ≤ i ∧ i < a + n
  · rw [fill_of_mem hi, fill_of_mem hi, h _ (by omega)]
  · rw [fill_of_not_mem hi, fill_of_not_mem hi]

/-- Bytes shifted into a word from the right. -/
def shiftIn : BitVec 32 → List (BitVec 8) → BitVec 32
  | i, [] => i
  | i, b :: bs => shiftIn (i <<< 8 ||| b.setWidth 32) bs

theorem shiftIn_zeros (i : BitVec 32) (n : Nat) :
    shiftIn i (List.replicate n 0) = i <<< (8 * n) := by
  induction n generalizing i with
  | zero => exact (BitVec.shiftLeft_zero i).symm
  | succ n ih =>
    have hz : i <<< 8 ||| (0 : BitVec 8).setWidth 32 = i <<< 8 := BitVec.or_zero
    rw [List.replicate_succ, shiftIn, ih, hz, ← BitVec.shiftLeft_add, Nat.mul_succ, Nat.add_comm]

theorem write_shiftIn (f : Flat) (a : Nat) {bs : List (BitVec 8)} (h : bs.length = 4) :
    write 4 f a (shiftIn 0 bs) = put f a bs := by
  obtain ⟨b0, b1, b2, b3, rfl⟩ : ∃ b0 b1 b2 b3, bs = [b0, b1, b2, b3] := by
    match bs, h with
    | [b0, b1, b2, b3], _ => exact ⟨b0, b1, b2, b3, rfl⟩
  have hz (x : BitVec 32) : (0 : BitVec 32) <<< 8 ||| x = x :=
    (congrArg (· ||| x) (BitVec.zero_shiftLeft (w := 32) 8)).trans BitVec.zero_or
  rw [shiftIn, shiftIn, shiftIn, shiftIn, shiftIn, hz, shifted_in, write_four]

end Lanes
