import Cibyl.DataImage
import Cibyl.Library.CArray
import Mathlib.Data.Nat.Digits.Lemmas

namespace Cibyl
set_option autoImplicit true

namespace S9

open CArray (read store zero realloc malloc search filled)

/-- A string up to its terminating zero. -/
abbrev CString := List Byte

def tolower (c : Byte) : Byte := if 65 ≤ c.toInt ∧ c.toInt ≤ 90 then c + 97 - 65 else c

def getKeyByChar (c : Byte) : Int :=
  let c := (tolower c).toInt
  if 97 ≤ c ∧ c ≤ 99 then 2
  else if 100 ≤ c ∧ c ≤ 102 then 3
  else if 103 ≤ c ∧ c ≤ 105 then 4
  else if 106 ≤ c ∧ c ≤ 108 then 5
  else if 109 ≤ c ∧ c ≤ 111 then 6
  else if 112 ≤ c ∧ c ≤ 115 then 7
  else if 116 ≤ c ∧ c ≤ 118 then 8
  else if 119 ≤ c ∧ c ≤ 122 then 9
  else -1

/-- The loop of `get_key` and `get_key_by_sequence`: three bits for each character, -1 for one
that has no digit. -/
def keyLoop (digit : Byte → Int) : Nat → DWord → CString → DWord
  | _, out, [] => out
  | i, out, c :: cs =>
    if digit c < 0 then -1
    else keyLoop digit (i + 1) (out ||| BitVec.ofInt 64 (digit c) <<< (i * 3)) cs

def getKey (word : CString) : DWord :=
  if word.length > 64 / 3 then -1 else keyLoop (fun c => getKeyByChar c - 2) 0 0 word

def getKeyBySequence (sequence : CString) : DWord :=
  if sequence.length > 64 / 3 then -1
  else keyLoop (fun c => if c.toInt < 50 ∨ c.toInt > 57 then -1 else c.toInt - 50) 0 0 sequence

/-- `s9_key_t`. -/
structure Key where
  key : DWord
  nWords : Nat
  maxWords : Nat
  words : CArray CString
  deriving Repr

def keyNew (key : DWord) (maxWords : Nat) : Option Key :=
  (zero (malloc maxWords) 0 maxWords).map (fun words => ⟨key, 0, maxWords, words⟩)

/-- Add space for null-termination. -/
def growWords (k : Key) : Option Key :=
  if k.nWords + 1 > k.maxWords then
    let maxWords := k.maxWords * 2
    (zero (realloc k.words (maxWords + 1)) k.nWords (maxWords / 2 + 1)).map (fun words =>
      { k with maxWords, words })
  else some k

def keyAddWord (k : Key) (word : CString) : Option Key := do
  match ← search (· == word) k.words k.nWords 0 with
  | some _ => some k
  | none =>
    let k ← growWords k
    let words ← store k.words k.nWords (.ptr word)
    some { k with words, nWords := k.nWords + 1 }

/-- `s9_wordlen_t`. -/
structure Wordlen where
  nKeys : Nat
  maxKeys : Nat
  keys : CArray Key

def wordlenInit (maxKeys : Nat) : Option Wordlen :=
  (zero (malloc maxKeys) 0 maxKeys).map (fun keys => ⟨0, maxKeys, keys⟩)

def wordlenLookupKey (wl : Wordlen) (key : DWord) : Option (Option Nat) :=
  search (fun k => k.key == key) wl.keys wl.nKeys 0

/-- Not found, add space for more keys. -/
def growKeys (wl : Wordlen) : Option Wordlen :=
  if wl.nKeys + 1 ≥ wl.maxKeys then
    let maxKeys := wl.maxKeys * 2
    (zero (realloc wl.keys maxKeys) (maxKeys / 2) (maxKeys / 2)).map (fun keys =>
      { wl with maxKeys, keys })
  else some wl

def addKey (wl : Wordlen) (key : DWord) : Option (Wordlen × Nat) := do
  let wl ← growKeys wl
  let k ← keyNew key 8
  let keys ← store wl.keys wl.nKeys (.ptr k)
  some ({ wl with keys, nKeys := wl.nKeys + 1 }, wl.nKeys)

def findOrAddKey (wl : Wordlen) (key : DWord) : Option (Wordlen × Nat) := do
  match ← wordlenLookupKey wl key with
  | some idx => some (wl, idx)
  | none => addKey wl key

/-- Add the word to this key. -/
def addWordTo (wl : Wordlen) (idx : Nat) (word : CString) : Option Wordlen := do
  let k ← read wl.keys idx
  let k ← keyAddWord k word
  let keys ← store wl.keys idx (.ptr k)
  some { wl with keys }

def wordlenAddWord (wl : Wordlen) (word : CString) : Option Wordlen :=
  let key := getKey word
  if key.toInt < 0 then some wl
  else do
    let (wl, idx) ← findOrAddKey wl key
    addWordTo wl idx word

def getExpectedWords (_total _len : Nat) : Nat := 8

/-- `s9_t`. -/
structure State where
  nWordlens : Nat
  expectedWords : Nat
  wordsByLength : List Wordlen

def init (expectedWords : Nat) : State := ⟨0, expectedWords, []⟩

/-- Do we need more space? -/
def growLengths (s9 : State) (len : Nat) : Option State :=
  if len ≥ s9.nWordlens then
    (wordlenInit (getExpectedWords len s9.expectedWords)).map (fun wl =>
      { s9 with
        wordsByLength := s9.wordsByLength ++ List.replicate (len + 1 - s9.nWordlens) wl
        nWordlens := len + 1 })
  else some s9

def addWord (s9 : State) (word : CString) : Option State := do
  let len := word.length
  let s9 ← growLengths s9 len
  let wl ← s9.wordsByLength[len]?
  let wl ← wordlenAddWord wl word
  some { s9 with wordsByLength := s9.wordsByLength.set len wl }

/-- A pointer to one of the pointers of a key. -/
structure Iterator where
  words : CArray CString
  pos : Nat

/-- What `s9_lookup` returns, with `*n` and `*it`; or NULL. -/
inductive Lookup where
  | null
  | found (first : Slot CString) (n : Nat) (it : Iterator)

def lookup (s9 : State) (sequence : CString) : Option Lookup :=
  let key := getKeyBySequence sequence
  if key.toInt < 0 then some .null
  else do
    let wl ← s9.wordsByLength[sequence.length]?
    match ← wordlenLookupKey wl key with
    | none => some .null
    | some idx =>
      let k ← read wl.keys idx
      let first ← k.words[0]?
      some (.found first k.nWords ⟨k.words, 0⟩)

def lookupNext (it : Iterator) : Option (Slot CString × Iterator) :=
  (it.words[it.pos + 1]?).map (fun p => (p, { it with pos := it.pos + 1 }))

def addWords : State → List CString → Option State
  | s9, [] => some s9
  | s9, w :: ws => (addWord s9 w).bind (fun s9 => addWords s9 ws)

/-- What `s9_lookup_next` returns up to the first NULL, in `n` more calls and the one for NULL. -/
def rest : Nat → Iterator → Option (List CString)
  | 0, it =>
    match lookupNext it with
    | some (.null, _) => some []
    | _ => none
  | n + 1, it =>
    match lookupNext it with
    | some (.ptr w, it) => (rest n it).map (w :: ·)
    | _ => none

/-- The words that a lookup and the calls for the next ones return, up to NULL, and `*n`. -/
def enumerate (s9 : State) (sequence : CString) : Option (Nat × List CString) := do
  match ← lookup s9 sequence with
  | .null => some (0, [])
  | .found (.ptr w) n it => (rest (n - 1) it).map (fun ws => (n, w :: ws))
  | .found .. => none

/-- The letters of the keys from 2 on. -/
def keypad : List (List Nat) :=
  [[97, 98, 99], [100, 101, 102], [103, 104, 105], [106, 107, 108], [109, 110, 111],
   [112, 113, 114, 115], [116, 117, 118], [119, 120, 121, 122]]

/-- The character of the key with the letter, small or capital. -/
def keypadDigit (c : Byte) : Option Byte :=
  (keypad.findIdx? (fun letters => letters.contains c.toNat || letters.contains (c.toNat + 32))).map
    (fun i => BitVec.ofNat 8 (50 + i))

def IsLetter (c : Byte) : Prop := (65 ≤ c.toNat ∧ c.toNat ≤ 90) ∨ (97 ≤ c.toNat ∧ c.toNat ≤ 122)

instance (c : Byte) : Decidable (IsLetter c) := instDecidableOr

def IsDigit (d : Byte) : Prop := 50 ≤ d.toNat ∧ d.toNat ≤ 57

instance (d : Byte) : Decidable (IsDigit d) := instDecidableAnd

/-- Add a word that is not there yet. -/
def insertWord (ws : List CString) (w : CString) : List CString := if w ∈ ws then ws else ws ++ [w]

/-- The distinct words, in insertion order. -/
def dictionary (added : List CString) : List CString := added.foldl insertWord []

/-- The words whose keypad digits are the sequence. -/
def matching (added : List CString) (sequence : CString) : List CString :=
  (dictionary added).filter (fun w => w.map keypadDigit = sequence.map some)

theorem keypadDigit_letter : ∀ c : Byte, IsLetter c →
    0 ≤ getKeyByChar c - 2 ∧ getKeyByChar c - 2 < 8 ∧
      keypadDigit c = some (BitVec.ofInt 8 (getKeyByChar c + 48)) := by
  decide +kernel

theorem digit_value : ∀ d : Byte, IsDigit d →
    ¬ (d.toInt < 50 ∨ d.toInt > 57) ∧ 0 ≤ d.toInt - 50 ∧ d.toInt - 50 < 8 := by
  decide +kernel

/-- The digits that a key has in base eight. -/
def octal (digit : Byte → Int) (cs : CString) : List Nat := cs.map (fun c => (digit c).toNat)

theorem octal_cons (digit : Byte → Int) (c : Byte) (cs : CString) :
    octal digit (c :: cs) = (digit c).toNat :: octal digit cs := rfl

theorem pow_le (h : i ≤ 21) : 8 ^ i ≤ 2 ^ 63 := by
  have hp : 8 ^ i ≤ 8 ^ 21 := Nat.pow_le_pow_right (by decide) h
  exact hp

/-- The loop adds up the digits, since each has its own three bits. -/
theorem keyLoop_toNat (h : ∀ c ∈ cs, 0 ≤ digit c ∧ digit c < 8) (hi : i + cs.length ≤ 21)
    (ho : out.toNat < 8 ^ i) :
    (keyLoop digit i out cs).toNat = out.toNat + 8 ^ i * Nat.ofDigits 8 (octal digit cs) := by
  induction cs generalizing i out with
  | nil =>
    rw [keyLoop, octal, List.map_nil, Nat.ofDigits_nil, Nat.mul_zero, Nat.add_zero]
  | cons c cs ih =>
    obtain ⟨h₀, h₁⟩ := h c (List.mem_cons_self ..)
    rw [List.length_cons] at hi
    have hd : (BitVec.ofInt 64 (digit c)).toNat = (digit c).toNat := by
      rw [BitVec.toNat_ofInt]
      omega
    have h8 : (8 : Nat) ^ i = 2 ^ (i * 3) := by
      rw [Nat.mul_comm, Nat.pow_mul]
    have hbound : (digit c).toNat * 8 ^ i + 8 ^ i ≤ 2 ^ 63 := by
      have hp := pow_le (i := i + 1) (by omega)
      rw [Nat.pow_succ] at hp
      have hd8 : (digit c).toNat + 1 ≤ 8 := by omega
      calc (digit c).toNat * 8 ^ i + 8 ^ i = ((digit c).toNat + 1) * 8 ^ i := by ring
        _ ≤ 8 * 8 ^ i := Nat.mul_le_mul_right _ hd8
        _ ≤ 2 ^ 63 := by omega
    have hnew : (out ||| BitVec.ofInt 64 (digit c) <<< (i * 3)).toNat =
        out.toNat + (digit c).toNat * 8 ^ i := by
      rw [h8] at ho hbound ⊢
      rw [BitVec.toNat_or, BitVec.toNat_shiftLeft, hd, Nat.mod_eq_of_lt (by
        rw [Nat.shiftLeft_eq]
        omega), Nat.or_comm, ← Nat.shiftLeft_add_eq_or_of_lt ho, Nat.shiftLeft_eq, Nat.add_comm]
    rw [keyLoop, if_neg (Int.not_lt.mpr h₀), ih (fun c hc => h c (List.mem_cons_of_mem _ hc))
      (by omega), hnew, octal_cons, Nat.ofDigits_cons, Nat.pow_succ]
    · ring
    · rw [hnew, Nat.pow_succ]
      have hd8 : (digit c).toNat * 8 ^ i ≤ 7 * 8 ^ i := Nat.mul_le_mul_right _ (by omega)
      omega

theorem keyLoop_key (h : ∀ c ∈ cs, 0 ≤ digit c ∧ digit c < 8) (hl : cs.length ≤ 21) :
    (keyLoop digit 0 0 cs).toNat = Nat.ofDigits 8 (octal digit cs) ∧
      ¬ (keyLoop digit 0 0 cs).toInt < 0 := by
  have hz : (0 : DWord).toNat = 0 := rfl
  have hlt₀ : (0 : DWord).toNat < 8 ^ 0 := by decide
  have hn := keyLoop_toNat h (by omega) hlt₀
  rw [hz, Nat.pow_zero, Nat.one_mul, Nat.zero_add] at hn
  refine ⟨hn, ?_⟩
  have hlt : Nat.ofDigits 8 (octal digit cs) < 8 ^ cs.length := by
    rw [← List.length_map (f := fun c => (digit c).toNat)]
    apply Nat.ofDigits_lt_base_pow_length (by decide)
    intro d hd
    obtain ⟨c, hc, rfl⟩ := List.mem_map.mp hd
    have := h c hc
    omega
  have hp := pow_le hl
  rw [← hn] at hlt
  rw [BitVec.toInt_eq_toNat_cond]
  split <;> omega

/-- A word the dictionary can hold. -/
structure IsWord (w : CString) : Prop where
  pos : 1 ≤ w.length
  le : w.length ≤ 21
  letters : ∀ c ∈ w, IsLetter c

def charDigit (c : Byte) : Int := getKeyByChar c - 2

def sequenceDigit (c : Byte) : Int := if c.toInt < 50 ∨ c.toInt > 57 then -1 else c.toInt - 50

theorem letters_digits {w : CString} (h : ∀ c ∈ w, IsLetter c) :
    ∀ c ∈ w, 0 ≤ charDigit c ∧ charDigit c < 8 := by
  intro c hc
  have hd := keypadDigit_letter c (h c hc)
  exact ⟨hd.1, hd.2.1⟩

theorem sequence_digits {ds : CString} (h : ∀ d ∈ ds, IsDigit d) :
    ∀ d ∈ ds, 0 ≤ sequenceDigit d ∧ sequenceDigit d < 8 := by
  intro d hd
  have hv := digit_value d (h d hd)
  rw [sequenceDigit, if_neg hv.1]
  exact hv.2

theorem letters_key {w : CString} (h : ∀ c ∈ w, IsLetter c) (hl : w.length ≤ 21) :
    (getKey w).toNat = Nat.ofDigits 8 (octal charDigit w) ∧ ¬ (getKey w).toInt < 0 := by
  rw [getKey, if_neg (by omega)]
  exact keyLoop_key (letters_digits h) hl

theorem IsWord.key (h : IsWord w) :
    (getKey w).toNat = Nat.ofDigits 8 (octal charDigit w) ∧ ¬ (getKey w).toInt < 0 :=
  letters_key h.letters h.le

theorem sequence_key {ds : CString} (h : ∀ d ∈ ds, IsDigit d) (hl : ds.length ≤ 21) :
    (getKeyBySequence ds).toNat = Nat.ofDigits 8 (octal sequenceDigit ds) ∧
      ¬ (getKeyBySequence ds).toInt < 0 := by
  rw [getKeyBySequence, if_neg (by omega)]
  exact keyLoop_key (sequence_digits h) hl

theorem letter_digit_iff (hc : IsLetter c) (hd : IsDigit d) :
    keypadDigit c = some d ↔ (charDigit c).toNat = (sequenceDigit d).toNat := by
  have hk := keypadDigit_letter c hc
  have hv := digit_value d hd
  have ht : (BitVec.ofInt 8 (getKeyByChar c + 48)).toInt = getKeyByChar c + 48 :=
    BitVec.toInt_ofInt_eq_self (by decide) (by omega) (by omega)
  rw [hk.2.2, charDigit, sequenceDigit, if_neg hv.1, Option.some.injEq]
  constructor
  · rintro rfl
    rw [ht] at hv ⊢
    omega
  · intro he
    apply BitVec.eq_of_toInt_eq
    omega

/-- The key of a word is that of its digits, and of no other sequence of as many digits. -/
theorem key_eq_iff {ds : CString} (hw : ∀ c ∈ w, IsLetter c) (hd : ∀ d ∈ ds, IsDigit d)
    (hl : w.length = ds.length) :
    octal charDigit w = octal sequenceDigit ds ↔ w.map keypadDigit = ds.map some := by
  induction w generalizing ds with
  | nil =>
    cases List.length_eq_zero_iff.mp hl.symm
    exact iff_of_true rfl rfl
  | cons c w ih =>
    cases ds with
    | nil => cases hl
    | cons d ds =>
      have hih := ih (fun c hc => hw c (List.mem_cons_of_mem _ hc))
        (fun d hm => hd d (List.mem_cons_of_mem _ hm)) (Nat.succ.inj hl)
      have hcd := letter_digit_iff (hw c (List.mem_cons_self ..)) (hd d (List.mem_cons_self ..))
      rw [octal_cons, octal_cons, List.map_cons, List.map_cons, List.cons.injEq, List.cons.injEq,
        hih, hcd]

theorem octal_lt {digit : Byte → Int} (h : ∀ c ∈ cs, 0 ≤ digit c ∧ digit c < 8) :
    ∀ n ∈ octal digit cs, n < 8 := by
  intro n hn
  obtain ⟨c, hm, rfl⟩ := List.mem_map.mp hn
  have := h c hm
  omega

/-- Digits of one length that make the same number are the same. -/
theorem octal_inj {digit digit' : Byte → Int} {cs ds : CString}
    (hc : ∀ c ∈ cs, 0 ≤ digit c ∧ digit c < 8) (hd : ∀ d ∈ ds, 0 ≤ digit' d ∧ digit' d < 8)
    (hl : cs.length = ds.length)
    (he : Nat.ofDigits 8 (octal digit cs) = Nat.ofDigits 8 (octal digit' ds)) :
    octal digit cs = octal digit' ds :=
  Nat.ofDigits_inj_of_len_eq (by decide)
    (by rw [octal, octal, List.length_map, List.length_map, hl]) (octal_lt hc) (octal_lt hd) he

/-- Among words of the length of the sequence, the key picks those with its digits. -/
theorem letters_match_iff {w ds : CString} (hw : ∀ c ∈ w, IsLetter c) (hd : ∀ d ∈ ds, IsDigit d)
    (hl : w.length = ds.length) (hn : ds.length ≤ 21) :
    getKey w = getKeyBySequence ds ↔ w.map keypadDigit = ds.map some := by
  have hk := (letters_key hw (hl ▸ hn)).1
  have hs := (sequence_key hd hn).1
  rw [← key_eq_iff hw hd hl, ← BitVec.toNat_inj, hk, hs]
  constructor
  · intro he
    exact octal_inj (letters_digits hw) (sequence_digits hd) hl he
  · intro he
    rw [he]

theorem IsWord.matches_iff {ds : CString} (h : IsWord w) (hd : ∀ d ∈ ds, IsDigit d)
    (hl : w.length = ds.length) :
    getKey w = getKeyBySequence ds ↔ w.map keypadDigit = ds.map some :=
  letters_match_iff h.letters hd hl (hl ▸ h.le)

end S9

end Cibyl
