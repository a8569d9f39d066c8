import Cibyl.Strtoll

namespace Cibyl
set_option autoImplicit true

/-- What a conversion stores at its argument. -/
inductive ScanValue where
  | int (w : Word)
  | char (c : Byte)
  | str (s : List Byte)
  deriving DecidableEq, Repr

/-- `scanf_struct_t`: the places in the format and in the string, and the arguments. -/
structure ScanState where
  fmt : Nat
  str : Nat
  curArg : Nat
  args : Nat → Option ScanValue

namespace Scanf

/-- A character of a string or its terminator. Behind that nothing can be read. -/
def charAt (s : List Byte) (i : Nat) : Option Byte := (s ++ [0])[i]?

def isModifier (c : Byte) : Bool := c == ch 'l' || c == ch 'L'

def isFormat (c : Byte) : Bool :=
  c == ch '%' || c == ch 'd' || c == ch 'i' || c == ch 'u' || c == ch 'x' || c == ch 'X' ||
    c == ch 'o' || c == ch 'p' || c == ch 's' || c == ch 'c' || c == ch 'f' || c == ch 'e' ||
    c == ch 'g' || c == ch 'E' || c == ch 'a'

/-- The formats and modifiers that are not supported. -/
def isUnsupported (c : Byte) : Bool :=
  isdigit c.toInt || c == ch 'h' || c == ch 'q' || c == ch 't' || c == ch 'z'

def convertNumber (str : List Byte) (s : Nat) (base : Int) : Option (ScanValue × Nat) :=
  if s ≤ str.length then
    (Libc.strtoll (str.drop s) base).map fun (num, rest) =>
      (.int (num.setWidth 32), str.length - rest.length)
  else none

def convertString (str : List Byte) (s : Nat) : Option (ScanValue × Nat) :=
  if s ≤ str.length then
    let p := (str.drop s).takeWhile (fun c => !isspace c.toInt && c != 0)
    some (.str p, s + p.length)
  else none

def convertChar (str : List Byte) (s : Nat) : Option (ScanValue × Nat) :=
  (charAt str s).map (fun c => (.char c, s + 1))

/-- The value goes to its argument. The string pointer has not moved, or the things are committed
back to the structure. -/
def commit (sp : ScanState) (p : Nat) (v : ScanValue) (s : Nat) : Bool × ScanState :=
  let args i := if i = sp.curArg then some v else sp.args i
  if s = sp.str then (false, { sp with args := args })
  else (true, { fmt := p, str := s, curArg := sp.curArg + 1, args := args })

/-- What a format letter converts: `convert_float` makes the string pointer `NULL`, and `u` is a
letter without a case. -/
def convert (str : List Byte) (s : Nat) (fmt : Byte) : Option (ScanValue × Nat) :=
  if fmt = ch 'i' ∨ fmt = ch 'd' then convertNumber str s 10
  else if fmt = ch 'o' then convertNumber str s 8
  else if fmt = ch 'x' ∨ fmt = ch 'X' ∨ fmt = ch 'p' then convertNumber str s 16
  else if fmt = ch 's' then convertString str s
  else if fmt = ch 'c' then convertChar str s
  else none

/-- Whether a conversion was handled; none where an assertion fails. -/
def parseFmt (format str : List Byte) (sp : ScanState) : Option (Bool × ScanState) :=
  if str.length ≤ 2 then none
  else
    (charAt format (sp.fmt + 1)).bind fun c =>
      if isUnsupported c then some (false, sp)
      else
        let p := if isModifier c then sp.fmt + 2 else sp.fmt + 1
        (charAt format p).bind fun fmt =>
          if fmt = ch '[' ∨ fmt = ch 'n' ∨ isFormat fmt = false then some (false, sp)
          else if fmt = ch '%' then some (false, { sp with fmt := p + 1, str := sp.str + 1 })
          else (convert str sp.str fmt).map fun (v, s) => commit sp (p + 1) v s

/-- Fewer than `fuel` characters and conversions are taken from the format. -/
def runScanf (format str : List Byte) : Nat → Bool → Nat → ScanState → Option (Nat × ScanState)
  | 0, _, _, _ => none
  | fuel + 1, isBackspaced, n, sp =>
    if sp.fmt < str.length then
      (charAt format sp.fmt).bind fun cf =>
        if cf = ch '\\' ∧ charAt format (sp.fmt + 1) = some (ch '%') then
          runScanf format str fuel true n { sp with fmt := sp.fmt + 1 }
        else if cf = ch '%' ∧ isBackspaced = false then
          (parseFmt format str sp).bind fun (handled, sp) =>
            if handled then runScanf format str fuel isBackspaced (n + 1) sp else some (n, sp)
        else
          (charAt str sp.str).bind fun cs =>
            let sp := { sp with fmt := sp.fmt + 1, str := sp.str + 1 }
            if cf = cs then runScanf format str fuel false n sp else some (n, sp)
    else some (n, sp)

def vsscanf (str format : List Byte) : Option (Nat × ScanState) :=
  runScanf format str (str.length + 1) false 0 ⟨0, 0, 0, fun _ => none⟩

section

variable {format str : List Byte} {sp : ScanState} {n fuel : Nat}

theorem charAt_append (F G : List Byte) (k : Nat) :
    charAt (F ++ G) (F.length + k) = charAt G k := by
  rw [charAt, List.append_assoc, List.getElem?_append_right (Nat.le_add_right _ _),
    Nat.add_sub_cancel_left]
  rfl

theorem charAt_end (F : List Byte) : charAt F F.length = some 0 := by
  rw [charAt, List.getElem?_append_right (Nat.le_refl _), Nat.sub_self]
  rfl

theorem charAt_beyond (F : List Byte) : charAt F (F.length + 1) = none := by
  rw [charAt, List.getElem?_eq_none_iff, List.length_append]
  exact Nat.le_refl _

theorem commit_moved {v : ScanValue} {p s : Nat} (h : s ≠ sp.str) :
    commit sp p v s =
      (true, ⟨p, s, sp.curArg + 1, fun i => if i = sp.curArg then some v else sp.args i⟩) :=
  if_neg h

theorem parseFmt_short (h : str.length ≤ 2) : parseFmt format str sp = none := if_pos h

theorem parseFmt_percent (h : 2 < str.length)
    (hc : charAt format (sp.fmt + 1) = some (ch '%')) :
    parseFmt format str sp =
      some (false, { sp with fmt := sp.fmt + 2, str := sp.str + 1 }) := by
  have hu : isUnsupported (ch '%') = false := by decide
  have hm : isModifier (ch '%') = false := by decide
  have hf : ¬ (ch '%' = ch '[' ∨ ch '%' = ch 'n' ∨ isFormat (ch '%') = false) := by decide
  rw [parseFmt, if_neg (Nat.not_le.mpr h), hc, Option.bind_some, hu, hm]
  simp only [Bool.false_eq_true, if_false, hc, Option.bind_some, hf, if_true]

theorem parseFmt_letter (h : 2 < str.length)
    (hl : l ∈ [ch 'd', ch 'u', ch 'x', ch 'o', ch 'c', ch 's'])
    (hc : charAt format (sp.fmt + 1) = some l) :
    parseFmt format str sp =
      (convert str sp.str l).map fun (v, s) => commit sp (sp.fmt + 2) v s := by
  have hfacts : ∀ l ∈ [ch 'd', ch 'u', ch 'x', ch 'o', ch 'c', ch 's'],
      isUnsupported l = false ∧ isModifier l = false ∧
        ¬ (l = ch '[' ∨ l = ch 'n' ∨ isFormat l = false) ∧ l ≠ ch '%' := by decide
  obtain ⟨hu, hm, hf, hp⟩ := hfacts l hl
  rw [parseFmt, if_neg (Nat.not_le.mpr h), hc, Option.bind_some, hu, hm]
  simp only [Bool.false_eq_true, if_false, hc, Option.bind_some, hf, hp]

/-- `strtoll` asserts that its base is not 8. -/
theorem convert_octal (str : List Byte) (s : Nat) : convert str s (ch 'o') = none := by
  change convertNumber str s 8 = none
  rw [convertNumber]
  split <;> rfl

theorem runScanf_end (h : str.length ≤ sp.fmt) (b : Bool) :
    runScanf format str (fuel + 1) b n sp = some (n, sp) := if_neg (Nat.not_lt.mpr h)

theorem runScanf_percent (h : sp.fmt < str.length) (hc : charAt format sp.fmt = some (ch '%')) :
    runScanf format str (fuel + 1) false n sp =
      (parseFmt format str sp).bind fun (handled, sp) =>
        if handled then runScanf format str fuel false (n + 1) sp else some (n, sp) := by
  rw [runScanf, if_pos h, hc, Option.bind_some, if_neg fun h => absurd h.1 (by decide),
    if_pos ⟨rfl, rfl⟩]

theorem runScanf_literal (h : sp.fmt < str.length) (hc : charAt format sp.fmt = some c)
    (hb : ¬ (c = ch '\\' ∧ charAt format (sp.fmt + 1) = some (ch '%'))) (hp : c ≠ ch '%')
    (hs : charAt str sp.str = some c) :
    runScanf format str (fuel + 1) false n sp =
      runScanf format str fuel false n { sp with fmt := sp.fmt + 1, str := sp.str + 1 } := by
  rw [runScanf, if_pos h, hc, Option.bind_some, if_neg hb, if_neg fun h => hp h.1, hs,
    Option.bind_some]
  exact if_pos rfl

/-- A backslash before a percent sign ends the scan. -/
theorem runScanf_backslash (h : sp.fmt < str.length) (hc : charAt format sp.fmt = some (ch '\\'))
    (hp : charAt format (sp.fmt + 1) = some (ch '%')) (hs : charAt str sp.str = some (ch '\\')) :
    ∃ sp', runScanf format str (fuel + 2) false n sp = some (n, sp') ∧ sp'.args = sp.args := by
  rw [runScanf, if_pos h, hc, Option.bind_some, if_pos ⟨rfl, hp⟩]
  by_cases hend : sp.fmt + 1 < str.length
  · rw [runScanf, if_pos hend]
    dsimp only
    rw [hp, Option.bind_some, if_neg fun h => absurd h.1 (by decide),
      if_neg fun h => absurd h.2 (by decide), hs, Option.bind_some, if_neg (by decide)]
    exact ⟨_, rfl, rfl⟩
  · exact ⟨_, runScanf_end (Nat.not_lt.mp hend) true, rfl⟩

end

end Scanf

inductive NumberFormat where
  | d
  | u
  | x
  | o
  deriving DecidableEq, Repr

/-- A piece of a format with the value that is printed for it. -/
inductive ScanItem where
  | number (k : NumberFormat) (w : Word)
  | character (c : Byte)
  | string (s : List Byte)
  | literal (c : Byte)
  | percent
  deriving DecidableEq, Repr

namespace NumberFormat

def letter : NumberFormat → Byte
  | .d => ch 'd'
  | .u => ch 'u'
  | .x => ch 'x'
  | .o => ch 'o'

def base : NumberFormat → Nat
  | .d | .u => 10
  | .x => 16
  | .o => 8

end NumberFormat

namespace ScanItem

/-- The digits that `printf` prints. -/
def printed (base n : Nat) : List Byte := (Nat.toDigits base n).map ch

def format : ScanItem → List Byte
  | .number k _ => [ch '%', k.letter]
  | .character _ => [ch '%', ch 'c']
  | .string _ => [ch '%', ch 's']
  | .literal c => [c]
  | .percent => [ch '%', ch '%']

/-- What `printf` makes of the piece. -/
def text : ScanItem → List Byte
  | .number .d w => (if w.toInt < 0 then [ch '-'] else []) ++ printed 10 w.toInt.natAbs
  | .number k w => printed k.base w.toNat
  | .character c | .literal c => [c]
  | .string s => s
  | .percent => [ch '%']

def value : ScanItem → List ScanValue
  | .number _ w => [.int w]
  | .character c => [.char c]
  | .string s => [.str s]
  | .literal _ | .percent => []

/-- A piece that can stand in a format, with a value that is a string or a part of one. -/
def Valid : ScanItem → Prop
  | .number _ _ | .percent => True
  | .character c => c ≠ 0
  | .string s => s ≠ [] ∧ ∀ c ∈ s, isspace c.toInt = false ∧ c ≠ 0
  | .literal c => c ≠ 0 ∧ c ≠ ch '%'

/-- The characters that can go on with an item. -/
def Continues (c : Byte) : ScanItem → Prop
  | .number k _ => Numeral.IsDigit k.base c ∨ k = .x ∧ (c = ch 'x' ∨ c = ch 'X')
  | .string _ => isspace c.toInt = false
  | .character _ | .literal _ | .percent => False

/-- A literal that is no part of the item before it. -/
def Apart : ScanItem → ScanItem → Prop
  | .literal _, _ | .percent, _ => True
  | a, .literal c => ¬ Continues c a
  | a, .percent => ¬ Continues (ch '%') a
  | _, _ => False

def Separated : List ScanItem → Prop
  | a :: b :: items => Apart a b ∧ Separated (b :: items)
  | _ => True

def formats (items : List ScanItem) : List Byte := items.flatMap format

def texts (items : List ScanItem) : List Byte := items.flatMap text

def values (items : List ScanItem) : List ScanValue := items.flatMap value

/-- A percent sign comes next in the format. -/
def StartsPercent : List ScanItem → Prop
  | [] | .literal _ :: _ => False
  | _ => True

instance : (items : List ScanItem) → Decidable (StartsPercent items)
  | [] => instDecidableFalse
  | .literal _ :: _ => instDecidableFalse
  | .number .. :: _ | .character _ :: _ | .string _ :: _ | .percent :: _ => instDecidableTrue

/-- From a place in the format on, every conversion is one that is handled and begins before the
length of the text, and none follows a double percent sign or a backslash before a percent sign; the
text has three characters where an assertion is met, and the format ends no two places before it. -/
def Scans (len : Nat) : Nat → List ScanItem → Prop
  | pos, [] => len ≤ pos + 1
  | pos, item :: items =>
    if len ≤ pos then values (item :: items) = []
    else
      match item with
      | .number .d _ | .number .x _ | .character _ | .string _ =>
        2 < len ∧ Scans len (pos + 2) items
      | .number .u _ | .number .o _ => False
      | .literal c =>
        if c = ch '\\' ∧ StartsPercent items then values items = [] else Scans len (pos + 1) items
      | .percent => 2 < len ∧ values items = []

end ScanItem

namespace ScanItem

open Numeral

theorem digitChar_eq : ∀ d < 16, Numeral.value (ch (Nat.digitChar d)) = d ∧
    IsDigit 16 (ch (Nat.digitChar d)) := by decide

theorem printed_eq (hb : 1 < b) (n : Nat) :
    printed b n = if n < b then [ch (Nat.digitChar n)]
      else printed b (n / b) ++ [ch (Nat.digitChar (n % b))] := by
  rw [printed, Nat.toDigits_eq_if hb]
  split
  · rfl
  · exact List.map_append

theorem printed_ne_nil (b n : Nat) : printed b n ≠ [] := by
  rw [printed, Ne, List.map_eq_nil_iff]
  exact Nat.toDigits_ne_nil

/-- What is printed are digits, and they have the value of the number. -/
theorem printed_spec (hb : 1 < b) (hb' : b ≤ 16) (n : Nat) :
    (∀ c ∈ printed b n, IsDigit b c) ∧ Numeral.number b (printed b n) = n := by
  have hdigit (d : Nat) (hd : d < b) :
      IsDigit b (ch (Nat.digitChar d)) ∧ Numeral.value (ch (Nat.digitChar d)) = d := by
    obtain ⟨hv, hd'⟩ := digitChar_eq d (by omega)
    exact ⟨⟨hd'.1, hv.symm ▸ hd⟩, hv⟩
  induction n using Nat.strongRecOn with
  | ind n ih =>
    rw [printed_eq hb]
    split
    · next hn =>
      obtain ⟨hd, hv⟩ := hdigit n hn
      refine ⟨fun c hc => List.mem_singleton.mp hc ▸ hd, ?_⟩
      rw [Numeral.number, List.foldl_cons, List.foldl_nil, hv, Nat.zero_mul, Nat.zero_add]
    · next hn =>
      obtain ⟨hall, hnum⟩ := ih (n / b) (Nat.div_lt_self (by omega) hb)
      obtain ⟨hd, hv⟩ := hdigit (n % b) (Nat.mod_lt n (by omega))
      refine ⟨List.forall_mem_append.mpr ⟨hall, fun c hc => List.mem_singleton.mp hc ▸ hd⟩, ?_⟩
      rw [Libc.number_snoc, hnum, hv, Nat.div_add_mod']

theorem run_append {ds tail : List Byte} (hd : ∀ c ∈ ds, IsDigit b c)
    (ht : ∀ c ∈ tail.head?, ¬ IsDigit b c) :
    run b (ds ++ tail) = ds ∧ rest b (ds ++ tail) = tail := by
  induction ds with
  | nil =>
    cases tail with
    | nil => exact ⟨rfl, rfl⟩
    | cons c tail =>
      have hc := ht c rfl
      exact ⟨Libc.run_cons_of_neg hc tail, Libc.rest_cons_of_neg hc tail⟩
  | cons c ds ih =>
    obtain ⟨hc, hds⟩ := List.forall_mem_cons.mp hd
    obtain ⟨hr, hs⟩ := ih hds
    rw [List.cons_append, Libc.run_cons_of_pos hc, Libc.rest_cons_of_pos hc, hr, hs]
    exact ⟨rfl, rfl⟩

theorem not_space_of_digit (h : IsDigit 16 c) :
    isspace c.toInt = false ∧ c ≠ ch '-' ∧ c ≠ ch '+' := by
  have hlow : 48 ≤ c.toNat := by
    rcases h.1 with h | h | h <;> omega
  have hne {d : Byte} (hd : d.toNat < 48) : c ≠ d := fun he => by
    subst he
    omega
  refine ⟨?_, hne (by decide), hne (by decide)⟩
  rw [Libc.toInt_of_digit h]
  simp [isspace, ascii]
  omega

/-- A printed number is read back, whatever follows it. -/
theorem strtoll_printed {base : Nat} (hb : base = 10 ∨ base = 16) (negative : Bool) (n : Nat)
    {tail : List Byte} (ht : ∀ c ∈ tail.head?, ¬ IsDigit base c ∧ (base = 16 → c ≠ ch 'x')) :
    Libc.strtoll ((if negative then [ch '-'] else []) ++ printed base n ++ tail) base =
      some (if negative then -BitVec.ofNat 64 n else BitVec.ofNat 64 n, tail) := by
  obtain ⟨hall, hnum⟩ := printed_spec (b := base) (by omega) (by omega) n
  obtain ⟨hrun, hrest⟩ := run_append hall fun c hc => (ht c hc).1
  have hne := printed_ne_nil base n
  generalize hds : printed base n = ds at *
  obtain ⟨c, ds', rfl⟩ := List.exists_cons_of_ne_nil hne
  have hc := (hall c (List.mem_cons_self ..)).mono (b := 16) (by omega)
  obtain ⟨hspace, hminus, hplus⟩ := not_space_of_digit hc
  have hsign : Libc.takeSign (Libc.skipSpaces
      ((if negative then [ch '-'] else []) ++ c :: ds' ++ tail)) =
        (negative, c :: ds' ++ tail) := by
    cases negative with
    | true => rfl
    | false =>
      have hskip : Libc.skipSpaces (c :: (ds' ++ tail)) = c :: (ds' ++ tail) :=
        List.dropWhile_cons_of_neg (by simp [hspace])
      simp only [Bool.false_eq_true, if_false, List.nil_append, List.cons_append, hskip,
        Libc.takeSign, hminus, hplus]
  have hprefix : Libc.takePrefix base (c :: ds' ++ tail) = ((base : Int), c :: ds' ++ tail) := by
    rcases hb with rfl | rfl
    · exact Libc.takePrefix_ten _
    · refine Libc.takePrefix_of_not _ fun h => ?_
      cases ds' with
      | nil =>
        cases tail with
        | nil => exact h
        | cons x tail => exact (ht x rfl).2 rfl h.2
      | cons x ds' =>
        have hx := hall x (List.mem_cons_of_mem _ (List.mem_cons_self ..))
        exact (Libc.not_isDigit_x (by omega)).1 (h.2 ▸ hx)
  have hbase : base = 0 ∨ base = 10 ∨ base = 16 := .inr hb
  have hcode := Libc.strtoll_eq hbase (by rw [hsign]; exact hprefix)
    (Libc.digits_eq hb 0 false (c :: ds' ++ tail))
  have hn : (c :: ds').foldl (fun n c => n * base + Numeral.value c) 0 = n := hnum
  rw [hcode, hrun, hrest, hsign, hn]
  rfl

theorem setWidth_signed (w : Word) :
    (if decide (w.toInt < 0) then -BitVec.ofNat 64 w.toInt.natAbs
      else BitVec.ofNat 64 w.toInt.natAbs).setWidth 32 = w := by
  have hlt := w.isLt
  apply BitVec.eq_of_toNat_eq
  rw [BitVec.toNat_setWidth, BitVec.toInt_eq_toNat_cond]
  split
  · next h =>
    rw [decide_eq_false (by omega)]
    simp only [Bool.false_eq_true, if_false, BitVec.toNat_ofNat]
    omega
  · next h =>
    rw [decide_eq_true (by omega)]
    simp only [if_true, BitVec.toNat_neg, BitVec.toNat_ofNat]
    omega

theorem setWidth_unsigned (w : Word) : (BitVec.ofNat 64 w.toNat).setWidth 32 = w := by
  have hlt := w.isLt
  apply BitVec.eq_of_toNat_eq
  rw [BitVec.toNat_setWidth, BitVec.toNat_ofNat]
  omega

theorem convertNumber_eq {base : Nat} (S : List Byte) {bs tail : List Byte}
    (h : Libc.strtoll (bs ++ tail) base = some (num, tail)) :
    Scanf.convertNumber (S ++ (bs ++ tail)) S.length base =
      some (.int (num.setWidth 32), S.length + bs.length) := by
  rw [Scanf.convertNumber, if_pos (by simp), List.drop_left, h]
  simp only [Option.map_some, List.length_append]
  congr 2
  omega

/-- The letter of a conversion that is handled. -/
def letter? : ScanItem → Option Byte
  | .number .d _ => some (ch 'd')
  | .number .x _ => some (ch 'x')
  | .character _ => some (ch 'c')
  | .string _ => some (ch 's')
  | _ => none

theorem text_ne_nil {item : ScanItem} (hv : item.Valid) : item.text ≠ [] := by
  match item, hv with
  | .number .d w, _ => exact List.append_ne_nil_of_right_ne_nil _ (printed_ne_nil _ _)
  | .number .u w, _ | .number .x w, _ | .number .o w, _ => exact printed_ne_nil _ _
  | .character c, _ | .literal c, _ | .percent, _ => exact List.cons_ne_nil _ _
  | .string s, hv => exact hv.1

/-- A conversion reads back the value that was printed. -/
theorem convert_eq {item : ScanItem} (hl : item.letter? = some l) (hv : item.Valid)
    (S : List Byte) {tail : List Byte} (ht : ∀ c ∈ tail.head?, ¬ Continues c item) :
    ∃ v, item.value = [v] ∧ item.format = [ch '%', l] ∧
      Scanf.convert (S ++ (item.text ++ tail)) S.length l =
        some (v, S.length + item.text.length) := by
  match item, hl, hv with
  | .number .d w, rfl, _ =>
    have htail : ∀ c ∈ tail.head?, ¬ IsDigit 10 c ∧ (10 = 16 → c ≠ ch 'x') := fun c hc =>
      ⟨fun h => ht c hc (.inl h), nofun⟩
    have hread := strtoll_printed (.inl rfl) (decide (w.toInt < 0)) w.toInt.natAbs htail
    have hw := setWidth_signed w
    simp only [decide_eq_true_iff] at hread hw
    refine ⟨_, rfl, rfl, (convertNumber_eq S hread).trans ?_⟩
    rw [hw]
    rfl
  | .number .x w, rfl, _ =>
    have htail : ∀ c ∈ tail.head?, ¬ IsDigit 16 c ∧ (16 = 16 → c ≠ ch 'x') := fun c hc =>
      ⟨fun h => ht c hc (.inl h), fun _ h => ht c hc (.inr ⟨rfl, .inl h⟩)⟩
    have hread := strtoll_printed (.inr rfl) false w.toNat htail
    refine ⟨_, rfl, rfl, (convertNumber_eq S hread).trans ?_⟩
    rw [if_neg Bool.false_ne_true, setWidth_unsigned]
    rfl
  | .character c, rfl, _ =>
    refine ⟨_, rfl, rfl, ?_⟩
    change Scanf.convertChar _ _ = _
    rw [Scanf.convertChar, Scanf.charAt, List.append_assoc,
      List.getElem?_append_right (Nat.le_refl _), Nat.sub_self]
    rfl
  | .string s, rfl, hv =>
    refine ⟨_, rfl, rfl, ?_⟩
    have hall : ∀ c ∈ s, (!isspace c.toInt && c != 0) = true := fun c hc => by
      obtain ⟨hs, h0⟩ := hv.2 c hc
      rw [hs, Bool.not_false, Bool.true_and]
      exact bne_iff_ne.mpr h0
    have htake : (s ++ tail).takeWhile (fun c => !isspace c.toInt && c != 0) = s := by
      rw [List.takeWhile_append_of_pos hall]
      cases tail with
      | nil => exact List.append_nil s
      | cons c tail =>
        have hc : isspace c.toInt = true := (Bool.not_eq_false _).mp (ht c rfl)
        rw [List.takeWhile_cons_of_neg (by simp [hc]), List.append_nil]
    change Scanf.convertString _ _ = _
    rw [Scanf.convertString, if_pos (by simp), text, List.drop_left, htake]

/-- The arguments with values stored from one on. -/
def stored : Nat → List ScanValue → (Nat → Option ScanValue) → Nat → Option ScanValue
  | _, [], args => args
  | cur, v :: vs, args => stored (cur + 1) vs (fun i => if i = cur then some v else args i)

/-- The scan of what is left returns with all its values stored. -/
def Returns (items : List ScanItem) (n : Nat) (sp : ScanState) (r : Option (Nat × ScanState)) :
    Prop :=
  ∃ sp', r = some (n + (values items).length, sp') ∧
    sp'.args = stored sp.curArg (values items) sp.args

theorem returns_some_iff (items : List ScanItem) (n : Nat) {sp sp' : ScanState}
    (h : sp'.args = sp.args) : Returns items n sp (some (n, sp')) ↔ values items = [] := by
  constructor
  · rintro ⟨sp', he, -⟩
    have hn := congrArg Prod.fst (Option.some.inj he)
    dsimp only at hn
    exact List.eq_nil_of_length_eq_zero (by omega)
  · intro hv
    rw [Returns, hv]
    exact ⟨sp', rfl, h⟩

theorem not_returns_none (items : List ScanItem) (n : Nat) (sp : ScanState) :
    ¬ Returns items n sp none := by
  rintro ⟨_, h, -⟩
  cases h

/-- A conversion hands over to the rest. -/
theorem returns_cons_iff {item : ScanItem} (hv : item.value = [v]) (items : List ScanItem)
    (n p s : Nat) (sp : ScanState) (r : Option (Nat × ScanState)) :
    Returns (item :: items) n sp r ↔ Returns items (n + 1)
      ⟨p, s, sp.curArg + 1, fun i => if i = sp.curArg then some v else sp.args i⟩ r := by
  have hvalues : values (item :: items) = v :: values items := by
    rw [values, List.flatMap_cons, hv]
    rfl
  rw [Returns, Returns, hvalues, stored, List.length_cons, Nat.add_comm _ 1, Nat.add_assoc]

theorem returns_text_iff {item : ScanItem} (hv : item.value = []) (items : List ScanItem)
    (n p s : Nat) (sp : ScanState) (r : Option (Nat × ScanState)) :
    Returns (item :: items) n sp r ↔ Returns items n { sp with fmt := p, str := s } r := by
  have hvalues : values (item :: items) = values items := by
    rw [values, List.flatMap_cons, hv]
    rfl
  rw [Returns, Returns, hvalues]

theorem separated_tail {item : ScanItem} (h : Separated (item :: items)) : Separated items := by
  cases items with
  | nil => trivial
  | cons b items => exact h.2

/-- What follows an item in the text is no part of it. -/
theorem not_continues {item : ScanItem} (h : Separated (item :: items)) :
    ∀ c ∈ (texts items).head?, ¬ Continues c item := by
  cases items with
  | nil => exact nofun
  | cons b items =>
    intro c hc
    cases item with
    | literal _ | percent | character _ => exact id
    | number _ _ | string _ =>
      cases b with
      | literal d => exact Option.some.inj hc ▸ h.1
      | percent => exact Option.some.inj hc ▸ h.1
      | number _ _ | string _ | character _ => exact h.1.elim

theorem scans_end (h : len ≤ pos) (item : ScanItem) (items : List ScanItem) :
    Scans len pos (item :: items) ↔ values (item :: items) = [] := by
  cases item with
  | number k w => cases k <;> rw [Scans, if_pos h]
  | character _ | string _ | literal _ | percent => rw [Scans, if_pos h]

theorem scans_handled {item : ScanItem} (hl : item.letter? = some l) (h : ¬ len ≤ pos)
    (items : List ScanItem) :
    Scans len pos (item :: items) ↔ 2 < len ∧ Scans len (pos + 2) items := by
  match item, hl with
  | .number .d _, _ | .number .x _, _ | .character _, _ | .string _, _ => rw [Scans, if_neg h]

theorem format_eq {item : ScanItem} (hl : item.letter? = some l) :
    item.format.length = 2 ∧
      ∀ items, Scanf.charAt (formats (item :: items)) 0 = some (ch '%') := by
  match item, hl with
  | .number .d _, _ | .number .x _, _ | .character _, _ | .string _, _ => exact ⟨rfl, fun _ => rfl⟩

theorem letter_mem {item : ScanItem} (hl : item.letter? = some l) :
    l ∈ [ch 'd', ch 'u', ch 'x', ch 'o', ch 'c', ch 's'] := by
  match item, hl with
  | .number .d _, rfl | .number .x _, rfl | .character _, rfl | .string _, rfl => decide

theorem formats_head {items : List ScanItem} (hv : ∀ item ∈ items, item.Valid) :
    Scanf.charAt (formats items) 0 = some (ch '%') ↔ StartsPercent items := by
  cases items with
  | nil => exact ⟨fun h => absurd (Option.some.inj h) (by decide), False.elim⟩
  | cons item items =>
    cases item with
    | literal c =>
      have hc := (hv _ (List.mem_cons_self ..)).2
      exact ⟨fun h => (hc (Option.some.inj h)).elim, False.elim⟩
    | number _ _ | character _ | string _ | percent => exact ⟨fun _ => trivial, fun _ => rfl⟩

section

variable {F S format str : List Byte} {sp : ScanState} {n fuel : Nat} {items : List ScanItem}

theorem runScanf_nil (hfmt : sp.fmt = format.length) (hstr : sp.str = str.length)
    (hfuel : str.length ≤ format.length + fuel) :
    Returns [] n sp (Scanf.runScanf format str (fuel + 1) false n sp) ↔
      Scans str.length format.length [] := by
  rw [Scans]
  by_cases hend : str.length ≤ format.length
  · rw [Scanf.runScanf_end (hfmt ▸ hend), returns_some_iff [] n rfl]
    exact ⟨fun _ => Nat.le_succ_of_le hend, fun _ => rfl⟩
  · have hlt := Nat.lt_of_not_le hend
    have hc : Scanf.charAt format sp.fmt = some 0 := hfmt ▸ Scanf.charAt_end format
    rw [Scanf.runScanf_literal (hfmt ▸ hlt) hc (fun h => absurd h.1 (by decide)) (by decide)
      (hstr ▸ Scanf.charAt_end str)]
    cases fuel with
    | zero => omega
    | succ fuel =>
      by_cases hend : str.length ≤ format.length + 1
      · rw [Scanf.runScanf_end (by dsimp only; omega), returns_some_iff [] n (by rfl)]
        exact ⟨fun _ => hend, fun _ => rfl⟩
      · -- both strings have ended, and the next character of the format lies behind it
        have hbeyond : Scanf.charAt format (sp.fmt + 1) = none :=
          hfmt ▸ Scanf.charAt_beyond format
        rw [Scanf.runScanf, if_pos (by dsimp only; omega)]
        dsimp only
        rw [hbeyond]
        exact iff_of_false (not_returns_none _ _ _) hend

/-- A conversion that is handled. -/
theorem runScanf_handled {item : ScanItem} (hf : format = F ++ formats (item :: items))
    (ht : str = S ++ texts (item :: items)) (hfmt : sp.fmt = F.length)
    (hstr : sp.str = S.length) (hlt : F.length < str.length) (hlen : 2 < str.length)
    (hl : item.letter? = some l) (hv : item.Valid) (hs : Separated (item :: items)) :
    ∃ v, item.value = [v] ∧ Scanf.runScanf format str (fuel + 1) false n sp =
      Scanf.runScanf format str fuel false (n + 1)
        ⟨(F ++ item.format).length, (S ++ item.text).length, sp.curArg + 1,
          fun i => if i = sp.curArg then some v else sp.args i⟩ := by
  obtain ⟨v, hvalue, hformat, hconv⟩ := convert_eq hl hv S (not_continues hs)
  have hfmt' : format = F ++ (ch '%' :: l :: formats items) := by
    rw [hf, formats, List.flatMap_cons, hformat]
    rfl
  have ht' : str = S ++ (item.text ++ texts items) := ht
  have hc0 : Scanf.charAt format sp.fmt = some (ch '%') := by
    rw [hfmt', hfmt]
    exact Scanf.charAt_append F _ 0
  have hc1 : Scanf.charAt format (sp.fmt + 1) = some l := by
    rw [hfmt', hfmt]
    exact Scanf.charAt_append F _ 1
  rw [← ht', ← hstr] at hconv
  refine ⟨v, hvalue, ?_⟩
  have hpos := List.length_pos_iff.mpr (text_ne_nil hv)
  rw [Scanf.runScanf_percent (hfmt ▸ hlt) hc0, Scanf.parseFmt_letter hlen (letter_mem hl) hc1,
    hconv, Option.map_some, Option.bind_some]
  dsimp only
  rw [Scanf.commit_moved (by omega)]
  simp only [if_true, hformat, hfmt, hstr, List.length_append]
  rfl

/-- The format and the text, with the next piece moved to what was read. -/
theorem step_eq (item : ScanItem) (hf : format = F ++ formats (item :: items))
    (ht : str = S ++ texts (item :: items)) :
    format = (F ++ item.format) ++ formats items ∧ str = (S ++ item.text) ++ texts items := by
  rw [List.append_assoc, List.append_assoc]
  exact ⟨hf, ht⟩

/-- `parseFmt` fails on `%u` and on `%o`. -/
theorem parseFmt_unhandled {k w} (hl : (number k w).letter? = none)
    (hc : Scanf.charAt format (sp.fmt + 1) =
      Scanf.charAt (formats (number k w :: items)) 1) :
    Scanf.parseFmt format str sp = none := by
  by_cases hlen : 2 < str.length
  · cases k with
    | u =>
      rw [Scanf.parseFmt_letter hlen (by decide) hc]
      rfl
    | o =>
      rw [Scanf.parseFmt_letter hlen (by decide) hc]
      exact congrArg (Option.map _) (Scanf.convert_octal str sp.str)
    | d | x => cases hl
  · exact Scanf.parseFmt_short (Nat.not_lt.mp hlen)

/-- The scan of pieces from a place in the format and the text on. -/
theorem runScanf_iff (hf : format = F ++ formats items) (ht : str = S ++ texts items)
    (hfmt : sp.fmt = F.length) (hstr : sp.str = S.length) (hfuel : str.length ≤ F.length + fuel)
    (hv : ∀ item ∈ items, item.Valid) (hs : Separated items) :
    Returns items n sp (Scanf.runScanf format str (fuel + 1) false n sp) ↔
      Scans str.length F.length items := by
  induction items generalizing F S sp n fuel with
  | nil =>
    have hf' := hf.trans (List.append_nil F)
    subst hf'
    exact runScanf_nil hfmt (by rw [hstr, ht.trans (List.append_nil S)]) hfuel
  | cons item items ih =>
    obtain ⟨hvi, hvs⟩ := List.forall_mem_cons.mp hv
    by_cases hend : str.length ≤ F.length
    · rw [Scanf.runScanf_end (hfmt ▸ hend), returns_some_iff _ n rfl, scans_end hend]
    have hlt := Nat.lt_of_not_le hend
    obtain ⟨hf', ht'⟩ := step_eq item hf ht
    obtain ⟨fuel, rfl⟩ := Nat.exists_eq_add_of_lt (show 0 < fuel by omega)
    rw [Nat.zero_add] at hfuel ⊢
    have hc0 : Scanf.charAt format sp.fmt = Scanf.charAt (formats (item :: items)) 0 := by
      rw [hf, hfmt]
      exact Scanf.charAt_append F _ 0
    have hc1 : Scanf.charAt format (sp.fmt + 1) = Scanf.charAt (formats (item :: items)) 1 := by
      rw [hf, hfmt]
      exact Scanf.charAt_append F _ 1
    have hs0 : Scanf.charAt str sp.str = Scanf.charAt (texts (item :: items)) 0 := by
      rw [ht, hstr]
      exact Scanf.charAt_append S _ 0
    cases hl : item.letter? with
    | some l =>
      rw [scans_handled hl hend]
      by_cases hlen : 2 < str.length
      · obtain ⟨v, hvalue, hstep⟩ := runScanf_handled (n := n) hf ht hfmt hstr
          hlt hlen hl hvi hs
        have hplace : (F ++ item.format).length = F.length + 2 := by
          rw [List.length_append, (format_eq hl).1]
        rw [hstep, returns_cons_iff hvalue, and_iff_right hlen, ← hplace]
        exact ih hf' ht' rfl rfl (by omega) hvs (separated_tail hs)
      · obtain ⟨-, hhead⟩ := format_eq hl
        rw [Scanf.runScanf_percent (hfmt ▸ hlt) (hc0.trans (hhead items)),
          Scanf.parseFmt_short (Nat.not_lt.mp hlen)]
        exact iff_of_false (not_returns_none _ _ _) fun h => hlen h.1
    | none =>
      cases item with
      | number k w =>
        rw [Scanf.runScanf_percent (hfmt ▸ hlt) hc0, parseFmt_unhandled hl hc1]
        refine iff_of_false (not_returns_none _ _ _) fun h => ?_
        cases k with
        | u | o =>
          rw [Scans, if_neg hend] at h
          exact h
        | d | x => cases hl
      | character _ | string _ => cases hl
      | literal c =>
        rw [Scans, if_neg hend]
        by_cases hb : c = ch '\\' ∧ StartsPercent items
        · obtain ⟨rfl, hp⟩ := hb
          obtain ⟨sp', hrun, hargs⟩ := Scanf.runScanf_backslash (n := n)
            (hfmt ▸ hlt) hc0 (hc1.trans ((formats_head hvs).mpr hp)) hs0
          rw [if_pos ⟨rfl, hp⟩, hrun]
          exact returns_some_iff (.literal (ch '\\') :: items) n hargs
        · have hno : ¬ (c = ch '\\' ∧ Scanf.charAt format (sp.fmt + 1) = some (ch '%')) :=
            fun h => hb ⟨h.1, (formats_head hvs).mp (hc1.symm.trans h.2)⟩
          rw [if_neg hb, Scanf.runScanf_literal (hfmt ▸ hlt) hc0 hno hvi.2 hs0,
            returns_text_iff rfl items n (sp.fmt + 1) (sp.str + 1)]
          have hplace : (F ++ (literal c).format).length = F.length + 1 := List.length_append
          have hread : (S ++ (literal c).text).length = S.length + 1 := List.length_append
          rw [← hplace]
          exact ih hf' ht' (by rw [hplace, hfmt]) (by rw [hread, hstr]) (by omega) hvs
            (separated_tail hs)
      | percent =>
        rw [Scans, if_neg hend, Scanf.runScanf_percent (hfmt ▸ hlt) hc0]
        by_cases hlen : 2 < str.length
        · rw [Scanf.parseFmt_percent hlen hc1, and_iff_right hlen]
          exact returns_some_iff (.percent :: items) n (by rfl)
        · rw [Scanf.parseFmt_short (Nat.not_lt.mp hlen)]
          exact iff_of_false (not_returns_none _ _ _) fun h => hlen h.1

end

theorem stored_apply (cur : Nat) (vs : List ScanValue) (args : Nat → Option ScanValue) (i : Nat) :
    stored cur vs args i =
      if cur ≤ i ∧ i < cur + vs.length then vs[i - cur]? else args i := by
  induction vs generalizing cur args with
  | nil => exact (if_neg fun h => Nat.not_lt.mpr h.1 h.2).symm
  | cons v vs ih =>
    rw [stored, ih, List.length_cons]
    by_cases hi : cur + 1 ≤ i ∧ i < cur + 1 + vs.length
    · have hsub : i - cur = i - (cur + 1) + 1 := by omega
      rw [if_pos hi, if_pos (by omega), hsub, List.getElem?_cons_succ]
    · rw [if_neg hi]
      by_cases he : i = cur
      · rw [if_pos he, if_pos (by omega), he, Nat.sub_self, List.getElem?_cons_zero]
      · rw [if_neg he, if_neg (by omega)]

/-- The scan of a printed text returns the number of conversions and stores the values. -/
def ReadsBack (items : List ScanItem) : Prop :=
  ∃ sp, Scanf.vsscanf (texts items) (formats items) = some ((values items).length, sp) ∧
    ∀ i, sp.args i = (values items)[i]?

/-- A printed text is read back just where its format is scanned to its end. -/
theorem reads_back_iff {items : List ScanItem} (hv : ∀ item ∈ items, item.Valid)
    (hs : Separated items) : ReadsBack items ↔ Scans (texts items).length 0 items := by
  have hiff : Returns items 0 ⟨0, 0, 0, fun _ => none⟩
      (Scanf.runScanf (formats items) (texts items) ((texts items).length + 1) false 0
        ⟨0, 0, 0, fun _ => none⟩) ↔ Scans (texts items).length 0 items :=
    runScanf_iff (F := []) (S := []) rfl rfl rfl rfl (by simp) hv hs
  refine Iff.trans ?_ hiff
  have hargs (args : Nat → Option ScanValue) : (∀ i, args i = (values items)[i]?) ↔
      args = stored 0 (values items) fun _ => none := by
    rw [funext_iff]
    refine forall_congr' fun i => ?_
    rw [stored_apply]
    split
    · rfl
    · next h => rw [List.getElem?_eq_none (by omega)]
  simp only [ReadsBack, Returns, hargs, Nat.zero_add]
  rfl

/-- A text of fewer than three characters, for "%d". -/
theorem not_reads_back_short : ¬ ReadsBack [.number .d 5] := by
  rintro ⟨sp, h, -⟩
  have hnone : Scanf.vsscanf (texts [.number .d 5]) (formats [.number .d 5]) = none := by decide
  rw [hnone] at h
  cases h

/-- "%d %s" for -42 and "ab". -/
theorem reads_back_iff_two :
    ReadsBack [.number .d (-42), .literal (ch ' '), .string [ch 'a', ch 'b']] ↔
      Scans (texts [.number .d (-42), .literal (ch ' '), .string [ch 'a', ch 'b']]).length 0
        [.number .d (-42), .literal (ch ' '), .string [ch 'a', ch 'b']] :=
  reads_back_iff
    (by
      simp only [List.forall_mem_cons]
      exact ⟨trivial, ⟨by decide, by decide⟩, ⟨by decide, by decide⟩, nofun⟩)
    ⟨fun h => h.elim (by decide) (fun h => nomatch h.1), trivial, trivial⟩

end ScanItem

end Cibyl
