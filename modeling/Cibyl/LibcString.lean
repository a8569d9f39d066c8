import Cibyl.Library.ByteBlocks

namespace Cibyl
set_option autoImplicit true

open Lanes (Flat put write readWord byte bytes wordBytes bytes_succ bytes_put put_cons put_append)

namespace Libc

/-- The bytes up to where the pointer is aligned, with what is left. -/
def memsetHead (c : BitVec 32) : Nat → Nat → Flat → Nat × Nat × Flat
  | 0, p, f => (0, p, f)
  | n + 1, p, f =>
    if p % 4 ≠ 0 then memsetHead c n (p + 1) (put f p [c.setWidth 8]) else (n + 1, p, f)

/-- Whole words, while there are more than four bytes. -/
def memsetMiddle (i_c : BitVec 32) : Nat → Nat → Flat → Nat × Nat × Flat
  | n + 5, p, f => memsetMiddle i_c (n + 1) (p + 4) (write 4 f p i_c)
  | n, p, f => (n, p, f)

def memsetLast (c : BitVec 32) : Nat → Nat → Flat → Flat
  | 0, _, f => f
  | n + 1, p, f => memsetLast c n (p + 1) (put f p [c.setWidth 8])

def memset (s : Nat) (c : BitVec 32) (n : Nat) (f : Flat) : Nat × Flat :=
  let (n, p, f) :=
    if n > 4 then
      let (n, p, f) := memsetHead c n s f
      let i_c := c <<< 24 ||| c <<< 16 ||| c <<< 8 ||| c
      memsetMiddle i_c n p f
    else (n, s, f)
  (s, memsetLast c n p f)

/-- The words of a copy; `n` is a multiple of four. -/
def memcpyWords : Nat → Nat → Nat → Flat → Flat
  | n + 4, d, s, f => memcpyWords n (d + 4) (s + 4) (write 4 f d (readWord f s))
  | _, _, _, f => f

def memcpyBytes : Nat → Nat → Nat → Flat → Flat
  | 0, _, _, f => f
  | n + 1, d, s, f => memcpyBytes n (d + 1) (s + 1) (put f d [f s])

def memcpy (dest src n : Nat) (f : Flat) : Nat × Flat :=
  if (src ||| dest ||| n) % 4 = 0 then (dest, memcpyWords n dest src f)
  else (dest, memcpyBytes n dest src f)

/-- The loop that begins with the last byte. -/
def memmoveBack : Nat → Nat → Nat → Flat → Flat
  | 0, _, _, f => f
  | n + 1, s, p, f => memmoveBack n s p (put f (s + n) [f (p + n)])

def memmove (s1 s2 n : Nat) (f : Flat) : Nat × Flat :=
  if s2 ≥ s1 then (s1, memcpyBytes n s1 s2 f) else (s1, memmoveBack n s1 s2 f)

/-- How many bytes stand in front of the next word. -/
def headLength (p : Nat) : Nat := (4 - p % 4) % 4

/-- The upper bytes have only bits of the lowest. -/
def Spreads (c : BitVec 32) : Prop := ∀ k < 3, byte c k ||| byte c 3 = byte c 3

instance (c : BitVec 32) : Decidable (Spreads c) := Nat.decidableBallLT ..

theorem memsetLast_eq (c : BitVec 32) (n p : Nat) (f : Flat) :
    memsetLast c n p f = put f p (List.replicate n (c.setWidth 8)) := by
  induction n generalizing p f with
  | zero => exact (Lanes.put_nil f p).symm
  | succ n ih => rw [memsetLast, ih, put_cons, List.replicate_succ]

theorem headLength_succ (h : p % 4 ≠ 0) : headLength p = headLength (p + 1) + 1 := by
  rw [headLength, headLength]
  omega

theorem memsetHead_eq (c : BitVec 32) (h : headLength p ≤ n) (f : Flat) :
    memsetHead c n p f = (n - headLength p, p + headLength p,
      put f p (List.replicate (headLength p) (c.setWidth 8))) := by
  induction n generalizing p f with
  | zero =>
    rw [Nat.le_zero.mp h]
    simp [memsetHead]
  | succ n ih =>
    rw [memsetHead]
    split
    · next ha =>
      have hs := headLength_succ ha
      rw [ih (by omega), put_cons, hs, List.replicate_succ]
      refine congrArg₂ Prod.mk (by omega) (congrArg₂ Prod.mk (by omega) rfl)
    · next ha =>
      have h0 : headLength p = 0 := by
        rw [headLength]
        omega
      rw [h0]
      simp

theorem memsetMiddle_eq (w : BitVec 32) (n p : Nat) (f : Flat) :
    memsetMiddle w n p f = (n - 4 * ((n - 1) / 4), p + 4 * ((n - 1) / 4),
      put f p (List.replicate ((n - 1) / 4) (wordBytes w)).flatten) := by
  fun_induction memsetMiddle w n p f with
  | case1 n p f ih =>
    have hk : (n + 5 - 1) / 4 = (n + 1 - 1) / 4 + 1 := by omega
    have hp := put_append f p (wordBytes w) (List.replicate ((n + 1 - 1) / 4) (wordBytes w)).flatten
    rw [ih, hk, Lanes.write_word, List.replicate_succ, List.flatten_cons]
    exact congrArg₂ Prod.mk (by omega) (congrArg₂ Prod.mk (by omega) hp)
  | case2 n p f h =>
    have hk : (n - 1) / 4 = 0 := by
      have hn : ¬ 5 ≤ n := fun hn => h (n - 5) (by omega)
      omega
    rw [hk]
    simp

theorem wordBytes_spread (c : BitVec 32) :
    wordBytes (c <<< 24 ||| c <<< 16 ||| c <<< 8 ||| c) = List.replicate 4 (byte c 3) ↔
      Spreads c := by
  have hs (j k : Nat) (h : j + k < 4) := Lanes.byte_shiftLeft (k := k) c h
  have hz (j k : Nat) (hk : k < 4) (h : 4 ≤ j + k) := Lanes.byte_shiftLeft_zero c hk h
  have h0 : byte (c <<< 24 ||| c <<< 16 ||| c <<< 8 ||| c) 0 =
      byte c 3 ||| byte c 2 ||| byte c 1 ||| byte c 0 := by
    rw [Lanes.byte_or, Lanes.byte_or, Lanes.byte_or, hs 3 0 (by decide), hs 2 0 (by decide),
      hs 1 0 (by decide)]
  have h1 : byte (c <<< 24 ||| c <<< 16 ||| c <<< 8 ||| c) 1 =
      byte c 3 ||| byte c 2 ||| byte c 1 := by
    rw [Lanes.byte_or, Lanes.byte_or, Lanes.byte_or, hz 3 1 (by decide) (by decide),
      hs 2 1 (by decide), hs 1 1 (by decide), BitVec.zero_or]
  have h2 : byte (c <<< 24 ||| c <<< 16 ||| c <<< 8 ||| c) 2 = byte c 3 ||| byte c 2 := by
    rw [Lanes.byte_or, Lanes.byte_or, Lanes.byte_or, hz 3 2 (by decide) (by decide),
      hz 2 2 (by decide) (by decide), hs 1 2 (by decide), BitVec.zero_or, BitVec.zero_or]
  have h3 : byte (c <<< 24 ||| c <<< 16 ||| c <<< 8 ||| c) 3 = byte c 3 := by
    rw [Lanes.byte_or, Lanes.byte_or, Lanes.byte_or, hz 3 3 (by decide) (by decide),
      hz 2 3 (by decide) (by decide), hz 1 3 (by decide) (by decide), BitVec.zero_or,
      BitVec.zero_or, BitVec.zero_or]
  have hl : List.replicate 4 (byte c 3) = [byte c 3, byte c 3, byte c 3, byte c 3] := rfl
  rw [wordBytes, h0, h1, h2, h3, hl]
  simp only [List.cons.injEq, and_true]
  constructor
  · rintro ⟨he0, he1, he2⟩ k hk
    rw [he2] at he1 he0
    rw [he1] at he0
    rw [BitVec.or_comm]
    match k, hk with
    | 0, _ => exact he0
    | 1, _ => exact he1
    | 2, _ => exact he2
  · intro h
    have h (k : Nat) (hk : k < 3) : byte c 3 ||| byte c k = byte c 3 :=
      (BitVec.or_comm ..).trans (h k hk)
    rw [h 2 (by decide), h 1 (by decide), h 0 (by decide)]
    exact ⟨rfl, rfl, rfl⟩

theorem length_words (w : BitVec 32) (k : Nat) :
    (List.replicate k (wordBytes w)).flatten.length = 4 * k := by
  rw [List.length_flatten, List.map_replicate, List.sum_replicate_nat, Nat.mul_comm]
  rfl

/-- What `memset` leaves: single bytes, whole words, and single bytes again. -/
theorem memset_eq (s : Nat) (c : BitVec 32) (f : Flat) (h : 4 < n) :
    memset s c n f = (s, put f s (List.replicate (headLength s) (c.setWidth 8) ++
      ((List.replicate ((n - headLength s - 1) / 4)
        (wordBytes (c <<< 24 ||| c <<< 16 ||| c <<< 8 ||| c))).flatten ++
      List.replicate (n - headLength s - 4 * ((n - headLength s - 1) / 4)) (c.setWidth 8)))) := by
  have hh : headLength s ≤ n := by
    rw [headLength]
    omega
  simp only [memset, if_pos h, memsetHead_eq c hh, memsetMiddle_eq, memsetLast_eq]
  have hw := length_words (c <<< 24 ||| c <<< 16 ||| c <<< 8 ||| c)
  generalize wordBytes (c <<< 24 ||| c <<< 16 ||| c <<< 8 ||| c) = w at hw ⊢
  generalize headLength s = a
  generalize (n - a - 1) / 4 = k
  have hp := put_append f s (List.replicate a (c.setWidth 8)) (List.replicate k w).flatten
  rw [List.length_replicate] at hp
  have hq := put_append f s (List.replicate a (c.setWidth 8) ++ (List.replicate k w).flatten)
    (List.replicate (n - a - 4 * k) (c.setWidth 8))
  rw [List.length_append, List.length_replicate, hw, ← Nat.add_assoc] at hq
  rw [hp, hq, List.append_assoc]

/-- The words are stored when more than four bytes are left at the first aligned address. -/
def StoresWords (s n : Nat) : Prop := headLength s + 4 < n

instance (s n : Nat) : Decidable (StoresWords s n) := Nat.decLt ..

/-- `memset` fills its range exactly where no word is stored or the upper bytes of `c` add no bit to
its lowest. -/
theorem memset_fills_iff (s : Nat) (c : BitVec 32) (n : Nat) (f : Flat) :
    memset s c n f = (s, put f s (List.replicate n (c.setWidth 8))) ↔
      ¬ StoresWords s n ∨ Spreads c := by
  have hb := (Lanes.byte_three c).symm
  by_cases hn : 4 < n
  · rw [memset_eq s c f hn, hb]
    generalize hk : (n - headLength s - 1) / 4 = k
    have hh : headLength s ≤ 3 := Nat.le_of_lt_succ (Nat.mod_lt _ (by decide))
    have hlen : n = headLength s + (4 * k + (n - headLength s - 4 * k)) := by omega
    have hfill : List.replicate n (byte c 3) = List.replicate (headLength s) (byte c 3) ++
        (List.replicate (4 * k) (byte c 3) ++
          List.replicate (n - headLength s - 4 * k) (byte c 3)) := by
      rw [List.replicate_append_replicate, List.replicate_append_replicate, ← hlen]
    constructor
    · intro h
      by_contra hno
      obtain ⟨hs, hc⟩ := not_or.mp hno
      have hs := not_not.mp hs
      obtain ⟨j, rfl⟩ : ∃ j, k = j + 1 := Nat.exists_eq_succ_of_ne_zero (by
        rw [StoresWords] at hs
        omega)
      refine hc ((wordBytes_spread c).mp ?_)
      have hl := Lanes.put_injective (by
        simp only [List.length_append, List.length_replicate, length_words]
        omega) (Prod.mk.inj h).2
      rw [hfill] at hl
      have hl := List.append_cancel_left hl
      rw [List.replicate_succ, List.flatten_cons, List.append_assoc,
        show 4 * (j + 1) = 4 + 4 * j by omega, ← List.replicate_append_replicate,
        List.append_assoc] at hl
      exact List.append_inj_left hl rfl
    · intro h
      refine congrArg (fun bs => (s, put f s bs)) ?_
      rw [hfill]
      refine congrArg (List.replicate (headLength s) (byte c 3) ++ ·) ?_
      refine congrArg (· ++ List.replicate (n - headLength s - 4 * k) (byte c 3)) ?_
      rcases h with h | h
      · have h0 : k = 0 := by
          rw [StoresWords] at h
          omega
        rw [h0]
        rfl
      · rw [(wordBytes_spread c).mpr h, List.flatten_replicate_replicate, Nat.mul_comm]
  · have hs : ¬ StoresWords s n := by
      rw [StoresWords]
      omega
    have hm : memset s c n f = (s, memsetLast c n s f) := by
      rw [memset, if_neg hn]
    rw [hm, memsetLast_eq]
    exact iff_of_true rfl (.inl hs)

/-- `memset(0, -2, 8)` stores a word of other bytes. -/
theorem memset_minus_two : memset 0 (-2) 8 (fun _ => 0) ≠
    (0, put (fun _ => 0) 0 (List.replicate 8 ((-2 : BitVec 32).setWidth 8))) := by
  intro h
  have h0 := congrArg (fun r => r.2 0) h
  have hl : (memset 0 (-2) 8 (fun _ => 0)).2 0 = 0xff#8 := by decide
  have hr : put (fun _ => 0) 0 (List.replicate 8 ((-2 : BitVec 32).setWidth 8)) 0 = 0xfe#8 := by
    decide
  exact absurd (hl.symm.trans (h0.trans hr)) (by decide)

theorem bytes_words (f : Flat) (a n : Nat) :
    bytes f a (n + 4) = [f a, f (a + 1), f (a + 2), f (a + 3)] ++ bytes f (a + 4) n := by
  rw [bytes_succ, bytes_succ, bytes_succ, bytes_succ]
  rfl

/-- A copy upwards, whose source is not written before it is read. -/
theorem memcpyBytes_eq (n d s : Nat) (f : Flat) (h : d ≤ s ∨ s + n ≤ d) :
    memcpyBytes n d s f = put f d (bytes f s n) := by
  induction n generalizing d s f with
  | zero => exact (Lanes.put_nil f d).symm
  | succ n ih =>
    have hs : s + 1 + n ≤ d ∨ d + [f s].length ≤ s + 1 := by
      rw [List.length_singleton]
      omega
    rw [memcpyBytes, ih _ _ _ (by omega), bytes_put hs, put_cons, bytes_succ]

theorem memcpyWords_eq (n d s : Nat) (f : Flat) (h : d ≤ s ∨ s + n ≤ d) (hn : n % 4 = 0) :
    memcpyWords n d s f = put f d (bytes f s n) := by
  fun_induction memcpyWords n d s f with
  | case1 n d s f ih =>
    have hs : s + 4 + n ≤ d ∨ d + [f s, f (s + 1), f (s + 2), f (s + 3)].length ≤ s + 4 := by
      simp only [List.length_cons, List.length_nil]
      omega
    have hw : write 4 f d (readWord f s) = put f d [f s, f (s + 1), f (s + 2), f (s + 3)] :=
      Lanes.write_four f d ..
    rw [ih (by omega) (by omega), hw, bytes_put hs, bytes_words]
    exact put_append f d [f s, f (s + 1), f (s + 2), f (s + 3)] (bytes f (s + 4) n)
  | case2 n d s f hne =>
    have h0 : n = 0 := by
      have hlt : ¬ 4 ≤ n := fun h => hne (n - 4) (by omega)
      omega
    rw [h0]
    exact (Lanes.put_nil f d).symm

/-- A copy downwards, whose source does not begin behind the destination. -/
theorem memmoveBack_eq (n s p : Nat) (f : Flat) (h : p ≤ s) :
    memmoveBack n s p f = put f s (bytes f p n) := by
  induction n generalizing f with
  | zero => exact (Lanes.put_nil f s).symm
  | succ n ih =>
    have hp := Lanes.put_before f s (bytes f p n) [f (p + n)]
    rw [Lanes.length_bytes] at hp
    rw [memmoveBack, ih, bytes_put (by omega), hp, Lanes.bytes_succ_last]

theorem mod_four_of_or (h : (a ||| n) % 4 = 0) : n % 4 = 0 := by
  rw [Nat.or_mod_two_pow (n := 2)] at h
  exact (Nat.or_eq_zero_iff.mp h).2

/-- The ranges have no byte in common. -/
def Apart (d s n : Nat) : Prop := d + n ≤ s ∨ s + n ≤ d

/-- `memcpy` copies between ranges that are apart, and `memmove` in every case. -/
theorem copies_correct (d s n : Nat) (f : Flat) :
    (Apart d s n → memcpy d s n f = (d, put f d (bytes f s n))) ∧
      memmove d s n f = (d, put f d (bytes f s n)) := by
  constructor
  · intro h
    have hd : d ≤ s ∨ s + n ≤ d := by
      rw [Apart] at h
      omega
    rw [memcpy]
    split
    · next ha => rw [memcpyWords_eq n d s f hd (mod_four_of_or ha)]
    · rw [memcpyBytes_eq n d s f hd]
  · rw [memmove]
    split
    · next hle => rw [memcpyBytes_eq n d s f (.inl hle)]
    · next hgt => rw [memmoveBack_eq n d s f (by omega)]

theorem copies_correct_eight :
    memcpy 8 0 8 (BitVec.ofNat 8) = (8, put (BitVec.ofNat 8) 8 [0, 1, 2, 3, 4, 5, 6, 7]) ∧
      memmove 2 0 8 (BitVec.ofNat 8) = (2, put (BitVec.ofNat 8) 2 [0, 1, 2, 3, 4, 5, 6, 7]) :=
  ⟨(copies_correct 8 0 8 (BitVec.ofNat 8)).1 (.inr (by decide)),
    (copies_correct 2 0 8 (BitVec.ofNat 8)).2⟩

end Libc

end Cibyl
