import Cibyl.Mips
import Mathlib.Algebra.Group.Int.Defs
import Mathlib.Data.List.Induction
import Mathlib.Data.List.TakeDrop
import Mathlib.Data.List.TakeWhile
import Mathlib.Tactic.SplitIfs

namespace Cibyl
set_option autoImplicit true

/-- The byte of a character. -/
def ch (c : Char) : Byte := BitVec.ofNat 8 c.toNat

/-- What `*nptr` is as an `int`. -/
def ascii (c : Char) : Int := c.toNat

def isspace (c : Int) : Bool :=
  c == ascii ' ' || c == 12 || c == 10 || c == 13 || c == 9 || c == 11

def isdigit (c : Int) : Bool := ascii '0' ≤ c && c ≤ ascii '9'

def isxdigit (c : Int) : Bool :=
  isdigit c || (ascii 'A' ≤ c && c ≤ ascii 'F') || (ascii 'a' ≤ c && c ≤ ascii 'f')

namespace Libc

/-- The string from the first character on that is no white space. -/
def skipSpaces (nptr : List Byte) : List Byte := nptr.dropWhile (fun c => isspace c.toInt)

/-- Whether the number is negative, and what follows the sign. -/
def takeSign : List Byte → Bool × List Byte
  | [] => (false, [])
  | c :: nptr =>
    if c = ch '-' then (true, nptr) else if c = ch '+' then (false, nptr) else (false, c :: nptr)

/-- The base, and what follows the prefix. -/
def takePrefix (base : Int) : List Byte → Int × List Byte
  | c :: d :: nptr =>
    if (base = 0 ∨ base = 16) ∧ c = ch '0' ∧ d = ch 'x' then (16, nptr) else (base, c :: d :: nptr)
  | nptr => (base, nptr)

/-- What a digit adds to the number. -/
def digitOf (base c : Int) : Int :=
  if ascii 'a' ≤ c ∧ c < ascii 'a' + (base - 10) then c - ascii 'a' + 10
  else if ascii 'A' ≤ c ∧ c < ascii 'A' + (base - 10) then c - ascii 'A' + 10
  else c - ascii '0'

/-- The number, whether there was a digit, and what follows the digits. -/
def digits (base : Int) : DWord → Bool → List Byte → DWord × Bool × List Byte
  | num, converted, [] => (num, converted, [])
  | num, converted, c :: nptr =>
    if isxdigit c.toInt = true ∧ ¬ (base = 10 ∧ isdigit c.toInt = false) then
      digits base (num * BitVec.ofInt 64 base + BitVec.ofInt 64 (digitOf base c.toInt)) true nptr
    else (num, converted, c :: nptr)

/-- `*endptr` is the rest of the string. -/
def strtoll (nptr : List Byte) (base : Int) : Option (DWord × List Byte) :=
  if base = 10 ∨ base = 16 ∨ base = 0 then
    let (negative, s) := takeSign (skipSpaces nptr)
    let (base, s) := takePrefix base s
    let (num, converted, s) := digits base 0 false s
    some (if negative then -num else num, if converted then s else nptr)
  else none

end Libc

namespace Numeral

/-- The value of a digit. -/
def value (c : Byte) : Nat :=
  if c.toNat ≤ 57 then c.toNat - 48 else if c.toNat ≤ 70 then c.toNat - 55 else c.toNat - 87

def IsDigit (base : Nat) (c : Byte) : Prop :=
  (48 ≤ c.toNat ∧ c.toNat ≤ 57 ∨ 65 ≤ c.toNat ∧ c.toNat ≤ 70 ∨ 97 ≤ c.toNat ∧ c.toNat ≤ 102) ∧
    value c < base

instance (base : Nat) (c : Byte) : Decidable (IsDigit base c) := instDecidableAnd

/-- A prefix counts when a digit follows it. -/
def HexPrefix : List Byte → Prop
  | c :: x :: d :: _ => c = ch '0' ∧ (x = ch 'x' ∨ x = ch 'X') ∧ IsDigit 16 d
  | _ => False

instance : (s : List Byte) → Decidable (HexPrefix s)
  | _ :: _ :: _ :: _ => instDecidableAnd
  | [] | [_] | [_, _] => instDecidableFalse

/-- The base of the number that begins here, and where its digits begin. -/
def start (base : Nat) (s : List Byte) : Nat × List Byte :=
  if base ≠ 10 ∧ HexPrefix s then (16, s.drop 2)
  else if base = 0 then (if s.head? = some (ch '0') then 8 else 10, s)
  else (base, s)

def run (base : Nat) (s : List Byte) : List Byte := s.takeWhile (fun c => IsDigit base c)

def rest (base : Nat) (s : List Byte) : List Byte := s.dropWhile (fun c => IsDigit base c)

def number (base : Nat) (ds : List Byte) : Nat := ds.foldl (fun n c => n * base + value c) 0

def signed (negative : Bool) (n : Nat) : Int := if negative then -(n : Int) else n

/-- The number that follows a sign, and what follows the number. -/
def readUnsigned (negative : Bool) (base : Nat) (s : List Byte) : Option (Int × List Byte) :=
  let (base, s) := start base s
  if run base s = [] then none else some (signed negative (number base (run base s)), rest base s)

/-- The number that C reads from a string, and what follows it. -/
def read (base : Nat) (s : List Byte) : Option (Int × List Byte) :=
  let (negative, s) := Libc.takeSign (Libc.skipSpaces s)
  readUnsigned negative base s

def Fits (n : Int) : Prop := -2 ^ 63 ≤ n ∧ n < 2 ^ 63

instance (n : Int) : Decidable (Fits n) := instDecidableAnd

theorem toInt_between {c : Byte} {a b : Nat} (hb : b < 128) :
    ((a : Int) ≤ c.toInt ∧ c.toInt ≤ b) ↔ a ≤ c.toNat ∧ c.toNat ≤ b := by
  rw [BitVec.toInt_eq_toNat_cond]
  have := c.isLt
  split <;> omega

theorem isdigit_iff {c : Byte} : isdigit c.toInt = true ↔ 48 ≤ c.toNat ∧ c.toNat ≤ 57 := by
  rw [← toInt_between (by decide), isdigit, Bool.and_eq_true, decide_eq_true_iff,
    decide_eq_true_iff]
  rfl

theorem isxdigit_iff {c : Byte} : isxdigit c.toInt = true ↔ IsDigit 16 c := by
  have hA := toInt_between (c := c) (a := 65) (b := 70) (by decide)
  have ha := toInt_between (c := c) (a := 97) (b := 102) (by decide)
  have hv (h : 48 ≤ c.toNat ∧ c.toNat ≤ 57 ∨ 65 ≤ c.toNat ∧ c.toNat ≤ 70 ∨
      97 ≤ c.toNat ∧ c.toNat ≤ 102) : value c < 16 := by
    rw [value]
    split
    · omega
    · split <;> omega
  rw [isxdigit, Bool.or_eq_true, Bool.or_eq_true, isdigit_iff, Bool.and_eq_true, Bool.and_eq_true,
    decide_eq_true_iff, decide_eq_true_iff, decide_eq_true_iff, decide_eq_true_iff, IsDigit,
    and_iff_left_of_imp hv, ← hA, ← ha, or_assoc]
  rfl

theorem isDigit_ten_iff {c : Byte} : IsDigit 10 c ↔ 48 ≤ c.toNat ∧ c.toNat ≤ 57 := by
  rw [IsDigit, value]
  split
  · omega
  · split <;> omega

theorem IsDigit.mono {c : Byte} (h : IsDigit a c) (hab : a ≤ b) : IsDigit b c :=
  ⟨h.1, Nat.lt_of_lt_of_le h.2 hab⟩

theorem isDigit_of_le {c : Byte} (hb : b ≤ 10) : IsDigit b c ↔ 48 ≤ c.toNat ∧ c.toNat < 48 + b := by
  rw [IsDigit, value]
  split
  · omega
  · split <;> omega

end Numeral

namespace Libc

open Numeral

variable {c : Byte} {s nptr : List Byte}

theorem toInt_of_digit (h : IsDigit 16 c) : c.toInt = c.toNat := by
  rw [BitVec.toInt_eq_toNat_cond, if_pos]
  rcases h.1 with h | h | h <;> omega

theorem digitOf_eq {base : Nat} (hb : base = 10 ∨ base = 16) (h : IsDigit base c) :
    digitOf base c.toInt = value c := by
  have h16 : IsDigit 16 c := h.mono (by omega)
  have hr := h.1
  have hv := h.2
  rw [toInt_of_digit h16, digitOf]
  rw [value] at hv ⊢
  change (if (97 : Int) ≤ c.toNat ∧ (c.toNat : Int) < 97 + (base - 10) then
    (c.toNat : Int) - 97 + 10 else if (65 : Int) ≤ c.toNat ∧ (c.toNat : Int) < 65 + (base - 10) then
    (c.toNat : Int) - 65 + 10 else (c.toNat : Int) - 48) = _
  split_ifs at hv ⊢ <;> omega

theorem digitOf_zero (h : IsDigit 16 c) : digitOf 0 c.toInt = (c.toNat : Int) - 48 := by
  rw [toInt_of_digit h, digitOf, if_neg (by omega), if_neg (by omega)]
  rfl

theorem digits_cons_of_not
    (h : ¬ (isxdigit c.toInt = true ∧ ¬ (base = 10 ∧ isdigit c.toInt = false)))
    (num : DWord) (converted : Bool) (s : List Byte) :
    digits base num converted (c :: s) = (num, converted, c :: s) := by
  rw [digits, if_neg h]

theorem run_cons_of_pos (h : IsDigit b c) (s : List Byte) : run b (c :: s) = c :: run b s :=
  List.takeWhile_cons_of_pos (decide_eq_true h)

theorem run_cons_of_neg (h : ¬ IsDigit b c) (s : List Byte) : run b (c :: s) = [] :=
  List.takeWhile_cons_of_neg (by simpa using h)

theorem rest_cons_of_pos (h : IsDigit b c) (s : List Byte) : rest b (c :: s) = rest b s :=
  List.dropWhile_cons_of_pos (decide_eq_true h)

theorem rest_cons_of_neg (h : ¬ IsDigit b c) (s : List Byte) : rest b (c :: s) = c :: s :=
  List.dropWhile_cons_of_neg (by simpa using h)

/-- The digits of a number of base 10 or 16 are those of the base, with their value. -/
theorem digits_eq {base : Nat} (hb : base = 10 ∨ base = 16) (n : Nat) (converted : Bool)
    (s : List Byte) :
    digits base (BitVec.ofNat 64 n) converted s =
      (BitVec.ofNat 64 ((run base s).foldl (fun n c => n * base + value c) n),
        converted || !(run base s).isEmpty, rest base s) := by
  induction s generalizing n converted with
  | nil => simp [digits, run, rest]
  | cons c s ih =>
    have hcond : (isxdigit c.toInt = true ∧ ¬ ((base : Int) = 10 ∧ isdigit c.toInt = false)) ↔
        IsDigit base c := by
      rw [isxdigit_iff, ← Bool.not_eq_true, isdigit_iff, ← isDigit_ten_iff]
      rcases hb with rfl | rfl
      · have h10 : ((10 : Nat) : Int) = 10 := rfl
        simp only [h10, true_and, not_not]
        exact and_iff_right_of_imp fun h => h.mono (by decide)
      · have h16 : ¬ ((16 : Nat) : Int) = 10 := by decide
        simp only [h16, false_and, not_false_iff, and_true]
    by_cases hc : IsDigit base c
    · have hnum : BitVec.ofNat 64 n * BitVec.ofInt 64 base +
          BitVec.ofInt 64 (digitOf base c.toInt) = BitVec.ofNat 64 (n * base + value c) := by
        rw [digitOf_eq hb hc, BitVec.ofInt_natCast, BitVec.ofInt_natCast, ← BitVec.ofNat_mul,
          ← BitVec.ofNat_add]
      rw [digits, if_pos (hcond.mpr hc), hnum, ih, run_cons_of_pos hc, rest_cons_of_pos hc]
      simp
    · rw [digits_cons_of_not (mt hcond.mp hc), run_cons_of_neg hc, rest_cons_of_neg hc]
      simp

/-- Without a base every digit takes the place of the number before it. -/
theorem digits_zero (num : DWord) (converted : Bool) (s : List Byte) :
    digits 0 num converted s =
      ((run 16 s).getLast?.elim num (fun c => BitVec.ofInt 64 ((c.toNat : Int) - 48)),
        converted || !(run 16 s).isEmpty, rest 16 s) := by
  induction s generalizing num converted with
  | nil => simp [digits, run, rest]
  | cons c s ih =>
    have hcond : (isxdigit c.toInt = true ∧ ¬ ((0 : Int) = 10 ∧ isdigit c.toInt = false)) ↔
        IsDigit 16 c := by
      rw [isxdigit_iff]
      simp
    by_cases hc : IsDigit 16 c
    · rw [digits, if_pos (hcond.mpr hc), ih, run_cons_of_pos hc, rest_cons_of_pos hc,
        digitOf_zero hc]
      cases run 16 s <;> simp [List.getLast?_cons]
    · rw [digits_cons_of_not (mt hcond.mp hc), run_cons_of_neg hc, rest_cons_of_neg hc]
      simp

/-- The number that C reads is returned, with what follows it; without a number, zero and the start
of the string. -/
structure Reads (base : Nat) (nptr : List Byte) : Prop where
  number : ∀ v tail, read base nptr = some (v, tail) →
    ∃ num : DWord, strtoll nptr base = some (num, tail) ∧ num.toInt = v
  none : read base nptr = none → strtoll nptr base = some (0, nptr)

/-- A lower case prefix without a digit, or an upper case one with a digit. -/
def Misread : List Byte → Prop
  | c :: x :: s => c = ch '0' ∧ (x = ch 'x' ∧ run 16 s = [] ∨ x = ch 'X' ∧ run 16 s ≠ [])
  | _ => False

def LowerPrefix : List Byte → Prop
  | c :: x :: _ => c = ch '0' ∧ x = ch 'x'
  | _ => False

/-- The digits are all of the base that the string has, and all but the last are zeros. -/
def OneDigit (s : List Byte) : Prop :=
  (∀ c ∈ run 16 s, IsDigit (if s.head? = some (ch '0') then 8 else 10) c) ∧
    ∀ c ∈ (run 16 s).dropLast, c = ch '0'

/-- The base is 10, or the prefix is one that is seen and the base is known or does not matter. -/
def ReadsWell (base : Nat) (nptr : List Byte) : Prop :=
  base = 10 ∨ ¬ Misread (takeSign (skipSpaces nptr)).2 ∧
    (base = 16 ∨ LowerPrefix (takeSign (skipSpaces nptr)).2 ∨
      OneDigit (takeSign (skipSpaces nptr)).2)

theorem toInt_signed (h : Fits (signed negative n)) :
    (if negative then -BitVec.ofNat 64 n else BitVec.ofNat 64 n).toInt = signed negative n := by
  have hofInt : (if negative then -BitVec.ofNat 64 n else BitVec.ofNat 64 n) =
      BitVec.ofInt 64 (signed negative n) := by
    cases negative with
    | true => rw [signed, if_pos rfl, if_pos rfl, BitVec.ofInt_neg, BitVec.ofInt_natCast]
    | false => exact (BitVec.ofInt_natCast 64 n).symm
  rw [hofInt, BitVec.toInt_ofInt]
  exact Int.bmod_eq_of_le (by have := h.1; omega) (by have := h.2; omega)

theorem takeSign_length (s : List Byte) : (takeSign s).2.length ≤ s.length := by
  cases s with
  | nil => exact Nat.le_refl _
  | cons c s =>
    rw [takeSign]
    repeat' split
    · exact Nat.le_succ _
    · exact Nat.le_succ _
    · exact Nat.le_refl _

theorem afterSign_length (nptr : List Byte) :
    (takeSign (skipSpaces nptr)).2.length ≤ nptr.length :=
  Nat.le_trans (takeSign_length _) (List.length_dropWhile_le _ _)

/-- What the digits of a number come to. -/
theorem strtoll_eq {base : Nat} (hb : base = 0 ∨ base = 10 ∨ base = 16)
    (hp : takePrefix base (takeSign (skipSpaces nptr)).2 = (b, s))
    (hd : digits b 0 false s = (num, converted, tail)) :
    strtoll nptr base =
      some (if (takeSign (skipSpaces nptr)).1 then -num else num,
        if converted then tail else nptr) := by
  have hbase : (base : Int) = 10 ∨ (base : Int) = 16 ∨ (base : Int) = 0 := by omega
  simp only [strtoll, if_pos hbase, hp, hd]

theorem read_eq (base : Nat) (nptr : List Byte) :
    read base nptr = readUnsigned (takeSign (skipSpaces nptr)).1 base
      (takeSign (skipSpaces nptr)).2 := rfl

theorem read_start (hs : start base (takeSign (skipSpaces nptr)).2 = (b, s)) :
    read base nptr = if run b s = [] then none else
      some (signed (takeSign (skipSpaces nptr)).1 (number b (run b s)), rest b s) := by
  rw [read_eq, readUnsigned]
  simp only [hs]

/-- The code leaves what C leaves. -/
theorem Reads.tail_eq {base : Nat} (h : Reads base nptr)
    (hr : read base nptr = some (v, tail)) (hc : strtoll nptr base = some (num, tail')) :
    tail' = tail := by
  obtain ⟨num', hnum, -⟩ := h.number v tail hr
  exact (Prod.mk.inj (Option.some.inj (hc.symm.trans hnum))).2

/-- Where the base and the first digit are found as C finds them, the number is read. -/
theorem reads_of_start {base b : Nat} (hb : base = 0 ∨ base = 10 ∨ base = 16)
    (hb' : b = 10 ∨ b = 16)
    (hp : takePrefix base (takeSign (skipSpaces nptr)).2 = ((b : Int), s))
    (hs : start base (takeSign (skipSpaces nptr)).2 = (b, s))
    (hfits : ∀ v tail, read base nptr = some (v, tail) → Fits v) : Reads base nptr := by
  have hcode := strtoll_eq hb hp (digits_eq hb' 0 false s)
  have hread := read_start hs
  by_cases hne : run b s = []
  · rw [if_pos hne] at hread
    refine ⟨fun v tail hr => ?_, fun _ => ?_⟩
    · cases hread.symm.trans hr
    · rw [hcode, hne]
      simp
  · rw [if_neg hne] at hread
    have hconv : (false || !(run b s).isEmpty) = true := by simpa using hne
    rw [hconv, if_pos rfl] at hcode
    refine ⟨fun v tail hr => ?_, fun hr => ?_⟩
    · cases hread.symm.trans hr
      exact ⟨_, hcode, toInt_signed (hfits _ _ hread)⟩
    · cases hread.symm.trans hr

theorem not_isDigit_x (h : b ≤ 16) : ¬ IsDigit b (ch 'x') ∧ ¬ IsDigit b (ch 'X') :=
  ⟨fun hx => absurd (hx.mono h) (by decide), fun hx => absurd (hx.mono h) (by decide)⟩

theorem isDigit_zero (h : 0 < b) : IsDigit b (ch '0') := ⟨.inl (by decide), h⟩

theorem run_nil_of_x (hx : x = ch 'x' ∨ x = ch 'X') (h : b ≤ 16) (s : List Byte) :
    run b (x :: s) = [] ∧ rest b (x :: s) = x :: s := by
  have hn : ¬ IsDigit b x := by
    rcases hx with rfl | rfl
    · exact (not_isDigit_x h).1
    · exact (not_isDigit_x h).2
  exact ⟨run_cons_of_neg hn s, rest_cons_of_neg hn s⟩

theorem rest_length_le (b : Nat) (s : List Byte) : (rest b s).length ≤ s.length :=
  List.length_dropWhile_le _ _

theorem rest_length_lt (h : run b s ≠ []) : (rest b s).length < s.length := by
  have hsum := congrArg List.length
    (List.takeWhile_append_dropWhile (p := fun c => decide (IsDigit b c)) (l := s))
  rw [List.length_append] at hsum
  have hpos := List.length_pos_iff.mpr h
  rw [run] at hpos
  rw [rest]
  omega

theorem hexPrefix_cons : HexPrefix (c :: x :: s) ↔
    c = ch '0' ∧ (x = ch 'x' ∨ x = ch 'X') ∧ run 16 s ≠ [] := by
  cases s with
  | nil => exact ⟨False.elim, fun h => h.2.2 rfl⟩
  | cons d s =>
    refine and_congr_right' (and_congr_right' ?_)
    by_cases hd : IsDigit 16 d
    · simp [hd, run_cons_of_pos hd]
    · simp [hd, run_cons_of_neg hd]

/-- Of a lower case prefix without a digit C reads the zero alone, and the code no number. -/
theorem not_reads_of_lower {base : Nat} (hb : base = 0 ∨ base = 16)
    (hs : (takeSign (skipSpaces nptr)).2 = ch '0' :: ch 'x' :: s) (hnil : run 16 s = []) :
    ¬ Reads base nptr := by
  intro hr
  obtain ⟨b, hstart, hpos, hle⟩ : ∃ b, start base (ch '0' :: ch 'x' :: s) =
      (b, ch '0' :: ch 'x' :: s) ∧ 0 < b ∧ b ≤ 16 := by
    have hno : ¬ HexPrefix (ch '0' :: ch 'x' :: s) := fun h => (hexPrefix_cons.mp h).2.2 hnil
    rcases hb with rfl | rfl
    · exact ⟨8, by rw [start, if_neg fun h => hno h.2, if_pos rfl]; rfl, by decide, by decide⟩
    · exact ⟨16, by rw [start, if_neg fun h => hno h.2]; rfl, by decide, by decide⟩
  obtain ⟨hrun, hrest⟩ := run_nil_of_x (.inl rfl) hle s
  have hread := read_start ((congrArg (start base) hs).trans hstart)
  rw [run_cons_of_pos (isDigit_zero hpos), rest_cons_of_pos (isDigit_zero hpos), hrun, hrest,
    if_neg (List.cons_ne_nil _ _)] at hread
  have hbase : (base : Int) = 0 ∨ (base : Int) = 16 := by omega
  have hb' : base = 0 ∨ base = 10 ∨ base = 16 := by omega
  have hcode := strtoll_eq (b := (16 : Nat)) (s := s) hb'
    (by rw [hs, takePrefix, if_pos ⟨hbase, rfl, rfl⟩]; rfl) (digits_eq (.inr rfl) 0 false s)
  rw [hnil] at hcode
  have hend : nptr = ch 'x' :: s := hr.tail_eq hread hcode
  have hlen := afterSign_length nptr
  rw [hs, hend, List.length_cons, List.length_cons] at hlen
  omega

/-- Behind an upper case prefix C reads the digits, and the code the zero before it alone. -/
theorem not_reads_of_upper {base : Nat} (hb : base = 0 ∨ base = 16)
    (hs : (takeSign (skipSpaces nptr)).2 = ch '0' :: ch 'X' :: s) (hne : run 16 s ≠ []) :
    ¬ Reads base nptr := by
  intro hr
  have hstart : start base (ch '0' :: ch 'X' :: s) = (16, s) := by
    rw [start, if_pos ⟨by omega, hexPrefix_cons.mpr ⟨rfl, .inr rfl, hne⟩⟩]
    rfl
  have hread := read_start ((congrArg (start base) hs).trans hstart)
  rw [if_neg hne] at hread
  obtain ⟨hrun, hrest⟩ := run_nil_of_x (x := ch 'X') (.inr rfl) (Nat.le_refl 16) s
  have hzero := isDigit_zero (b := 16) (by decide)
  obtain ⟨num, hd⟩ : ∃ num, digits base 0 false (ch '0' :: ch 'X' :: s) =
      (num, true, ch 'X' :: s) := by
    rcases hb with rfl | rfl
    · refine ⟨_, Prod.ext rfl ((congrArg Prod.snd (digits_zero 0 false _)).trans ?_)⟩
      rw [run_cons_of_pos hzero, rest_cons_of_pos hzero, hrun, hrest]
      rfl
    · refine ⟨_, Prod.ext rfl ((congrArg Prod.snd (digits_eq (.inr rfl) 0 false _)).trans ?_)⟩
      rw [run_cons_of_pos hzero, rest_cons_of_pos hzero, hrun, hrest]
      rfl
  have hb' : base = 0 ∨ base = 10 ∨ base = 16 := by omega
  have hcode := strtoll_eq hb'
    (by rw [hs, takePrefix, if_neg fun h => absurd h.2.2 (by decide)]) hd
  have hend : ch 'X' :: s = rest 16 s := hr.tail_eq hread hcode
  have hle := rest_length_le 16 s
  rw [← hend, List.length_cons] at hle
  omega

/-- A prefix that is seen wrongly leaves the end of the number in the wrong place. -/
theorem not_reads_of_misread {base : Nat} (hb : base = 0 ∨ base = 16)
    (h : Misread (takeSign (skipSpaces nptr)).2) : ¬ Reads base nptr := by
  generalize hs : (takeSign (skipSpaces nptr)).2 = s at h
  match s, h with
  | c :: x :: s, ⟨hc, h⟩ =>
    subst hc
    rcases h with ⟨rfl, hnil⟩ | ⟨rfl, hne⟩
    · exact not_reads_of_lower hb hs hnil
    · exact not_reads_of_upper hb hs hne

theorem takePrefix_lower {base : Nat} (hb : base = 0 ∨ base = 16) (s : List Byte) :
    takePrefix base (ch '0' :: ch 'x' :: s) = (16, s) := by
  rw [takePrefix, if_pos ⟨by omega, rfl, rfl⟩]

theorem takePrefix_of_not (base : Int) (h : ¬ LowerPrefix s) : takePrefix base s = (base, s) := by
  match s with
  | [] | [_] => rfl
  | c :: x :: s => rw [takePrefix, if_neg fun hc => h hc.2]

theorem takePrefix_ten (s : List Byte) : takePrefix 10 s = (10, s) := by
  match s with
  | [] | [_] => rfl
  | c :: x :: s => rw [takePrefix, if_neg fun hc => absurd hc.1 (by decide)]

/-- Without a prefix that C or the code sees, the digits begin here. -/
theorem not_hexPrefix (hm : ¬ Misread s) (hl : ¬ LowerPrefix s) : ¬ HexPrefix s := by
  match s with
  | [] | [_] => exact id
  | c :: x :: s =>
    intro h
    obtain ⟨hc, hx | hx, hr⟩ := hexPrefix_cons.mp h
    · exact hl ⟨hc, hx⟩
    · exact hm ⟨hc, .inr ⟨hx, hr⟩⟩

theorem number_snoc (b : Nat) (ds : List Byte) (c : Byte) :
    number b (ds ++ [c]) = number b ds * b + value c := by
  rw [number, List.foldl_append]
  rfl

theorem value_of_le (hb : b ≤ 10) (h : IsDigit b c) : value c = c.toNat - 48 := by
  have hr := (isDigit_of_le hb).mp h
  rw [value, if_pos (by omega)]

theorem eq_zero_of_value (hb : b ≤ 10) (h : IsDigit b c) (hv : value c = 0) : c = ch '0' := by
  have hr := (isDigit_of_le hb).mp h
  rw [value_of_le hb h] at hv
  apply BitVec.eq_of_toNat_eq
  change c.toNat = 48
  omega

/-- A number is zero when its digits are. -/
theorem number_eq_zero_iff (hb : 0 < b) (hb' : b ≤ 10) {ds : List Byte}
    (hd : ∀ c ∈ ds, IsDigit b c) : number b ds = 0 ↔ ∀ c ∈ ds, c = ch '0' := by
  induction ds using List.reverseRecOn with
  | nil => exact ⟨nofun, fun _ => rfl⟩
  | append_singleton ds d ih =>
    have hd' := List.forall_mem_append.mp hd
    have hdd := hd'.2 d (List.mem_singleton_self d)
    rw [number_snoc, Nat.add_eq_zero_iff, Nat.mul_eq_zero, or_iff_left (Nat.pos_iff_ne_zero.mp hb),
      ih hd'.1, List.forall_mem_append]
    refine and_congr_right' ⟨fun hv => ?_, fun hz => ?_⟩
    · rintro c hc
      cases List.mem_singleton.mp hc
      exact eq_zero_of_value hb' hdd hv
    · rw [hz d (List.mem_singleton_self d)]
      rfl

/-- The digits of one base are those of another where the numbers end alike. -/
theorem run_eq_of_rest (h : rest a s = rest b s) : run a s = run b s := by
  have ha := List.takeWhile_append_dropWhile (p := fun c => decide (IsDigit a c)) (l := s)
  have hb := List.takeWhile_append_dropWhile (p := fun c => decide (IsDigit b c)) (l := s)
  exact List.append_cancel_right ((ha.trans hb.symm).trans (congrArg (_ ++ ·) h.symm))

theorem run_eq_of_all (hab : a ≤ b) (h : ∀ c ∈ run b s, IsDigit a c) :
    run a s = run b s ∧ rest a s = rest b s := by
  induction s with
  | nil => exact ⟨rfl, rfl⟩
  | cons c s ih =>
    by_cases hc : IsDigit b c
    · rw [run_cons_of_pos hc] at h ⊢
      obtain ⟨hca, hs⟩ := List.forall_mem_cons.mp h
      obtain ⟨hr, ht⟩ := ih hs
      rw [run_cons_of_pos hca, rest_cons_of_pos hca, rest_cons_of_pos hc]
      exact ⟨congrArg _ hr, ht⟩
    · have hca : ¬ IsDigit a c := fun h => hc (h.mono hab)
      rw [run_cons_of_neg hc, rest_cons_of_neg hc, run_cons_of_neg hca, rest_cons_of_neg hca]
      exact ⟨rfl, rfl⟩

theorem isDigit_of_mem_run (h : c ∈ run b s) : IsDigit b c :=
  of_decide_eq_true (List.mem_takeWhile_imp (p := fun c => decide (IsDigit b c)) h)

theorem ofInt_digit (hb : b ≤ 10) (hd : IsDigit b d) :
    BitVec.ofInt 64 ((d.toNat : Int) - 48) = BitVec.ofNat 64 (value d) := by
  have hr := (isDigit_of_le hb).mp hd
  rw [value_of_le hb hd, ← BitVec.ofInt_natCast]
  congr 1
  omega

/-- In base 0 without a prefix, the last digit is the number that the code finds. -/
theorem strtoll_last (hp : takePrefix 0 (takeSign (skipSpaces nptr)).2 = (0, s))
    (hds : run 16 s = ds ++ [d]) :
    strtoll nptr (0 : Nat) = some (if (takeSign (skipSpaces nptr)).1
      then -BitVec.ofInt 64 ((d.toNat : Int) - 48) else BitVec.ofInt 64 ((d.toNat : Int) - 48),
      rest 16 s) := by
  refine (strtoll_eq (.inl rfl) hp (digits_zero 0 false s)).trans ?_
  rw [hds]
  simp

theorem Reads.zeros (h : Reads 0 nptr)
    (hp : takePrefix 0 (takeSign (skipSpaces nptr)).2 = (0, s))
    (hs : start 0 (takeSign (skipSpaces nptr)).2 = (b, s)) (hb : 0 < b) (hb' : b ≤ 10)
    (hlen : s.length ≤ nptr.length) (hds : run 16 s = ds ++ [d]) :
    (∀ c ∈ run 16 s, IsDigit b c) ∧ ∀ c ∈ ds, c = ch '0' := by
  have hcode := strtoll_last hp hds
  have hread := read_start hs
  by_cases hrun : run b s = []
  · -- the code finds a number where there is none
    rw [if_pos hrun] at hread
    have hend : rest 16 s = nptr :=
      (Prod.mk.inj (Option.some.inj (hcode.symm.trans (h.none hread)))).2
    have hshort : (rest 16 s).length < s.length :=
      rest_length_lt (hds ▸ List.concat_ne_nil d ds)
    rw [hend] at hshort
    omega
  · rw [if_neg hrun] at hread
    have hsame := run_eq_of_rest (h.tail_eq hread hcode)
    have hall : ∀ c ∈ ds ++ [d], IsDigit b c := by
      rw [← hds, hsame]
      exact fun c hc => isDigit_of_mem_run hc
    obtain ⟨hinit, hd⟩ := List.forall_mem_append.mp hall
    have hd := hd d (List.mem_singleton_self d)
    obtain ⟨num, hnum, hv⟩ := h.number _ _ hread
    obtain ⟨hnum, -⟩ := Prod.mk.inj (Option.some.inj (hcode.symm.trans hnum))
    have hsmall : Fits (signed (takeSign (skipSpaces nptr)).1 (value d)) := by
      have hlt := hd.2
      rw [Fits, signed]
      split <;> omega
    rw [ofInt_digit hb' hd] at hnum
    rw [← hnum, toInt_signed hsmall, ← hsame, hds, number_snoc] at hv
    have hzero : Numeral.number b ds * b = 0 := by
      rw [signed, signed] at hv
      split at hv <;> omega
    exact ⟨hds ▸ hall, (number_eq_zero_iff hb hb' hinit).mp
      ((Nat.mul_eq_zero.mp hzero).resolve_right (Nat.pos_iff_ne_zero.mp hb))⟩

theorem reads_of_zeros (hp : takePrefix 0 (takeSign (skipSpaces nptr)).2 = (0, s))
    (hs : start 0 (takeSign (skipSpaces nptr)).2 = (b, s)) (hb : 0 < b) (hb' : b ≤ 10)
    (hfits : ∀ v tail, read 0 nptr = some (v, tail) → Fits v) (hds : run 16 s = ds ++ [d])
    (hall : ∀ c ∈ run 16 s, IsDigit b c) (hzero : ∀ c ∈ ds, c = ch '0') : Reads 0 nptr := by
  have hcode := strtoll_last hp hds
  have hread := read_start hs
  obtain ⟨hrun, hrest⟩ := run_eq_of_all (Nat.le_trans hb' (by decide)) hall
  rw [hds] at hall hrun
  obtain ⟨hinit, hd⟩ := List.forall_mem_append.mp hall
  have hd := hd d (List.mem_singleton_self d)
  have hnumber : number b (run b s) = value d := by
    rw [hrun, number_snoc, (number_eq_zero_iff hb hb' hinit).mpr hzero, Nat.zero_mul,
      Nat.zero_add]
  have hsome : run b s ≠ [] := by
    rw [hrun]
    exact List.concat_ne_nil d ds
  rw [if_neg hsome, hnumber] at hread
  rw [ofInt_digit hb' hd, ← hrest] at hcode
  refine ⟨fun v tail hr => ?_, fun hr => ?_⟩
  · cases hread.symm.trans hr
    exact ⟨_, hcode, toInt_signed (hfits _ _ hread)⟩
  · cases hread.symm.trans hr

/-- Without a base the string is read just where all digits but the last are zeros. -/
theorem reads_zero_iff (hp : takePrefix 0 (takeSign (skipSpaces nptr)).2 = (0, s))
    (hs : start 0 (takeSign (skipSpaces nptr)).2 = (b, s)) (hb : 0 < b) (hb' : b ≤ 10)
    (hlen : s.length ≤ nptr.length)
    (hfits : ∀ v tail, read 0 nptr = some (v, tail) → Fits v) :
    Reads 0 nptr ↔ (∀ c ∈ run 16 s, IsDigit b c) ∧ ∀ c ∈ (run 16 s).dropLast, c = ch '0' := by
  rcases List.eq_nil_or_concat (run 16 s) with hnil | ⟨ds, d, hds⟩
  · -- there is no number
    have hall : ∀ c ∈ run 16 s, IsDigit b c := by
      rw [hnil]
      exact nofun
    obtain ⟨hrun, -⟩ := run_eq_of_all (Nat.le_trans hb' (by decide)) hall
    have hread := read_start hs
    rw [if_pos (hrun.trans hnil)] at hread
    refine ⟨fun _ => ⟨hall, by rw [hnil]; exact nofun⟩, fun _ => ⟨fun v tail hr => ?_, fun _ => ?_⟩⟩
    · cases hread.symm.trans hr
    · rw [strtoll_eq (.inl rfl) hp (digits_zero 0 false s), hnil]
      simp
  · rw [List.concat_eq_append] at hds
    have hlast : (run 16 s).dropLast = ds := by rw [hds, List.dropLast_concat]
    rw [hlast]
    exact ⟨fun h => h.zeros hp hs hb hb' hlen hds,
      fun h => reads_of_zeros hp hs hb hb' hfits hds h.1 h.2⟩

/-- A number that fits is read just where its base is known or does not matter, and its prefix is
one that is seen. -/
theorem reads_iff {base : Nat} (hb : base = 0 ∨ base = 10 ∨ base = 16)
    (hfits : ∀ v tail, read base nptr = some (v, tail) → Fits v) :
    Reads base nptr ↔ ReadsWell base nptr := by
  rw [ReadsWell]
  by_cases h10 : base = 10
  · subst h10
    refine ⟨fun _ => .inl rfl, fun _ => ?_⟩
    refine reads_of_start hb (.inl rfl) (takePrefix_ten _) ?_ hfits
    rw [start, if_neg fun h => h.1 rfl]
    rfl
  · have hb' : base = 0 ∨ base = 16 := by omega
    rw [or_iff_right h10]
    by_cases hm : Misread (takeSign (skipSpaces nptr)).2
    · exact ⟨fun h => (not_reads_of_misread hb' hm h).elim, fun h => (h.1 hm).elim⟩
    rw [and_iff_right hm]
    by_cases hl : LowerPrefix (takeSign (skipSpaces nptr)).2
    · refine ⟨fun _ => .inr (.inl hl), fun _ => ?_⟩
      obtain ⟨s, hs⟩ : ∃ s, (takeSign (skipSpaces nptr)).2 = ch '0' :: ch 'x' :: s := by
        generalize (takeSign (skipSpaces nptr)).2 = s at hl
        match s, hl with
        | c :: x :: s, ⟨hc, hx⟩ => exact ⟨s, by rw [hc, hx]⟩
      refine reads_of_start hb (b := 16) (.inr rfl) (s := s) ?_ ?_ hfits
      · rw [hs]
        exact takePrefix_lower hb' s
      · rw [hs] at hm ⊢
        have hne : run 16 s ≠ [] := fun hn => hm ⟨rfl, .inl ⟨rfl, hn⟩⟩
        rw [start, if_pos ⟨h10, hexPrefix_cons.mpr ⟨rfl, .inl rfl, hne⟩⟩]
        rfl
    · have hno := not_hexPrefix hm hl
      rw [or_iff_right hl]
      rcases hb' with rfl | rfl
      · rw [or_iff_right (by decide), OneDigit]
        refine reads_zero_iff (takePrefix_of_not 0 hl) ?_ ?_ ?_ (afterSign_length nptr) hfits
        · rw [start, if_neg fun h => hno h.2]
          rfl
        · split <;> decide
        · split <;> decide
      · refine ⟨fun _ => .inl rfl, fun _ => ?_⟩
        refine reads_of_start hb (.inr rfl) (takePrefix_of_not _ hl) ?_ hfits
        rw [start, if_neg fun h => hno h.2]
        rfl

/-- "12" in base 0 is read as 2. -/
theorem strtoll_twelve :
    read 0 [ch '1', ch '2'] = some (12, []) ∧ ¬ Reads 0 [ch '1', ch '2'] := by
  refine ⟨by decide, fun h => ?_⟩
  obtain ⟨num, hnum, hv⟩ := h.number 12 [] (by decide)
  have h2 : strtoll [ch '1', ch '2'] (0 : Nat) = some (2, []) := by decide
  rw [h2] at hnum
  cases hnum
  exact absurd hv (by decide)

/-- "-7fg" in base 16. -/
theorem reads_iff_hex : Reads 16 [ch '-', ch '7', ch 'f', ch 'g'] ↔
    ReadsWell 16 [ch '-', ch '7', ch 'f', ch 'g'] :=
  reads_iff (by decide) fun v tail h => by
    have hr : read 16 [ch '-', ch '7', ch 'f', ch 'g'] = some (-127, [ch 'g']) := by decide
    rw [hr] at h
    cases h
    decide

end Libc

end Cibyl
