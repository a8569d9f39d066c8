import Cibyl.VsnprintfSpec

namespace Cibyl
set_option autoImplicit true

open Vsnprintf (Spec Item)

namespace ScanItem

/-- A conversion without flags, counts and modifier. -/
def plain (letter : Byte) (ap : List Vsnprintf.Arg) : Item :=
  .spec ⟨[], .absent, none, none, letter, ap⟩

/-- The piece as `vsnprintf` has it, with the arguments after their promotion. -/
def item : ScanItem → Item
  | .number k w => plain k.letter [.int w]
  | .character c => plain (ch 'c') [.int (c.signExtend 32)]
  | .string s => plain (ch 's') [.str s]
  | .literal c => .literal c
  | .percent => plain (ch '%') []

theorem convert_printed {digits : List Byte} (hb : 1 < b)
    (hd : ∀ d < b, digits.getD d 0 = ch (Nat.digitChar d)) (n : Nat) :
    (Vsnprintf.convert digits b n).reverse = printed b n := by
  induction n using Nat.strongRecOn with
  | ind n ih =>
    rw [Vsnprintf.convert, printed_eq hb]
    by_cases hn : n < b
    · rw [if_pos hn, Nat.div_eq_of_lt hn, Nat.mod_eq_of_lt hn,
        if_neg (fun h => Nat.lt_irrefl 0 h.1), hd n hn]
      rfl
    · have hpos : 0 < n / b := Nat.div_pos (Nat.not_lt.mp hn) (Nat.lt_of_succ_lt hb)
      have hlt : n / b < n := Nat.div_lt_self (by omega) hb
      rw [if_neg hn, if_pos ⟨hpos, hb⟩, List.reverse_cons, ih _ hlt,
        hd _ (Nat.mod_lt n (by omega))]

/-- Without flags, width and precision there is no padding. -/
theorem printNumber_plain {digits : List Byte} (hb : 1 < b)
    (hd : ∀ d < b, digits.getD d 0 = ch (Nat.digitChar d)) (sign : Bool) (w : Word) :
    (Vsnprintf.printNumber {} (-1) (-1) sign b digits w).1 = Vsnprintf.signch {} sign w ++
      printed b (if sign = true ∧ w.toInt < 0 then -w else w).toNat := by
  have hprefix : Vsnprintf.numberPrefix {} b w = [] := if_neg fun h => Bool.false_ne_true h.1
  have hsize : Vsnprintf.prefixSize {} b w = 0 := if_neg fun h => Bool.false_ne_true h.1
  rw [← convert_printed hb hd, Vsnprintf.printNumber, hprefix, hsize]
  generalize Vsnprintf.convert digits b _ = number
  generalize Vsnprintf.signch {} sign w = s
  have hdigits : (number.length : Int) > -1 := by omega
  have hwidth : ¬ (-1 : Int) > number.length + s.length + 0 := by omega
  simp only [if_pos hdigits, decide_eq_false hwidth, Bool.and_false, Bool.false_and,
    Bool.false_eq_true, if_false, List.nil_append, List.append_nil, List.length_nil]
  have hzeros : Vsnprintf.zeros (number.length + s.length + 0 - s.length - (0 : Nat) -
      number.length) = [] := by
    rw [Vsnprintf.zeros, Int.toNat_of_nonpos (by omega)]
    rfl
  have hpad : ∀ n, Vsnprintf.rightpad {} n = [] := fun n => rfl
  rw [hzeros, hpad, List.append_nil, List.append_nil]

theorem signch_plain (sign : Bool) (w : Word) : Vsnprintf.signch {} sign w =
    if sign = true ∧ w.toInt < 0 then [ch '-'] else [] := by
  cases sign with
  | false => rfl
  | true =>
    have hflag : ∀ p : Prop, ¬ (false = true ∧ p) := fun p h => Bool.false_ne_true h.1
    simp only [Vsnprintf.signch, if_true, if_neg (hflag _), true_and]

theorem digits_lower : ∀ d < 16,
    Vsnprintf.lowerDigits.getD d 0 = ch (Nat.digitChar d) := by decide

theorem digits_decimal : ∀ d < 10,
    ("0123456789".toList.map ch).getD d 0 = ch (Nat.digitChar d) := by decide

theorem digits_octal : ∀ d < 8,
    ("012345678".toList.map ch).getD d 0 = ch (Nat.digitChar d) := by decide

/-- The text of a number, and what `numpr` is after it. -/
theorem conversion_number (k : NumberFormat) (w : Word) : ∃ numpr,
    Vsnprintf.conversion k.letter {} (-1) (-1) 0 [.int w] =
      some (text (.number k w), numpr, []) := by
  have hint := BitVec.toInt_eq_toNat_cond w
  have hlt := w.isLt
  cases k with
  | d =>
    refine ⟨_, congrArg (fun t => some (t, _, [])) ?_⟩
    refine (printNumber_plain (by decide) digits_decimal true w).trans ?_
    rw [signch_plain, text]
    by_cases h : w.toInt < 0
    · rw [if_pos ⟨rfl, h⟩, if_pos h, if_pos ⟨rfl, h⟩]
      refine congrArg (fun n => [ch '-'] ++ printed 10 n) ?_
      rw [BitVec.toNat_neg]
      split at hint
      · omega
      · omega
    · rw [if_neg (fun hn => h hn.2), if_neg h, if_neg (fun hn => h hn.2)]
      refine congrArg (fun n => [] ++ printed 10 n) ?_
      split at hint
      · omega
      · omega
  | u => exact ⟨_, congrArg (fun t => some (t, _, []))
      (printNumber_plain (by decide) digits_decimal false w)⟩
  | x => exact ⟨_, congrArg (fun t => some (t, _, []))
      (printNumber_plain (by decide) digits_lower false w)⟩
  | o => exact ⟨_, congrArg (fun t => some (t, _, []))
      (printNumber_plain (by decide) digits_octal false w)⟩

theorem plain_valid {ap : List Vsnprintf.Arg} {t : List Byte} (hl : l ≠ ch 'n' ∧ l ≠ 0)
    (hs : Vsnprintf.isSyntax l = false)
    (h : Vsnprintf.conversion l {} (-1) (-1) 0 ap = some (t, numpr, [])) :
    (plain l ap).Valid ∧ (plain l ap).text = t := by
  constructor
  · constructor
    · exact fun c hc => absurd hc List.not_mem_nil
    · exact ⟨trivial, fun hc => by cases hc⟩
    · intro c hc
      cases hc
    · intro c hc
      cases hc
    · exact ⟨hl.1, hl.2, fun _ => hs⟩
    · exact ⟨t, numpr, h⟩
  · exact congrArg (fun x => (x.map Prod.fst).getD []) h

/-- `vsnprintf` prints a piece as its text. -/
theorem item_valid {i : ScanItem} (hi : i.Valid) :
    i.item.Valid ∧ i.item.text = i.text ∧ i.item.format = i.format := by
  cases i with
  | number k w =>
    obtain ⟨numpr, h⟩ := conversion_number k w
    have hl : (k.letter ≠ ch 'n' ∧ k.letter ≠ 0) ∧ Vsnprintf.isSyntax k.letter = false := by
      cases k <;> decide
    obtain ⟨hv, ht⟩ := plain_valid hl.1 hl.2 h
    exact ⟨hv, ht, rfl⟩
  | character c =>
    have hc : (c.signExtend 32).setWidth 8 = c := by
      ext i hi
      rw [BitVec.getElem_setWidth, BitVec.getLsbD_signExtend, decide_eq_true (by omega),
        Bool.true_and, if_pos hi]
      rfl
    have h : Vsnprintf.conversion (ch 'c') {} (-1) (-1) 0 [.int (c.signExtend 32)] =
        some ([(c.signExtend 32).setWidth 8], 0, []) := rfl
    rw [hc] at h
    obtain ⟨hv, ht⟩ := plain_valid (by decide) (by decide) h
    exact ⟨hv, ht, rfl⟩
  | string s =>
    have h : Vsnprintf.conversion (ch 's') {} (-1) (-1) 0 [.str s] =
        some ([] ++ s ++ [], 0, []) := rfl
    rw [List.nil_append, List.append_nil] at h
    obtain ⟨hv, ht⟩ := plain_valid (by decide) (by decide) h
    exact ⟨hv, ht, rfl⟩
  | literal c => exact ⟨hi, rfl, rfl⟩
  | percent =>
    obtain ⟨hv, ht⟩ := plain_valid (l := ch '%') (by decide) (by decide) rfl
    exact ⟨hv, ht, rfl⟩

theorem flatMap_item {items : List ScanItem} (hi : ∀ i ∈ items, i.Valid) :
    Vsnprintf.formats (items.map item) = formats items ∧
      Vsnprintf.texts (items.map item) = texts items := by
  induction items with
  | nil => exact ⟨rfl, rfl⟩
  | cons i items ih =>
    obtain ⟨hf, ht⟩ := ih fun j hj => hi j (List.mem_cons_of_mem _ hj)
    obtain ⟨-, htext, hformat⟩ := item_valid (hi i (List.mem_cons_self ..))
    unfold Vsnprintf.formats Vsnprintf.texts formats texts at *
    rw [List.map_cons, List.flatMap_cons, List.flatMap_cons, List.flatMap_cons, List.flatMap_cons,
      hf, ht, htext, hformat]
    exact ⟨rfl, rfl⟩

/-- The texts that `vsscanf` is asked to read back are what `vsnprintf` prints. -/
theorem vsnprintf_texts {items : List ScanItem} (hi : ∀ i ∈ items, i.Valid) (size : Word) :
    Vsnprintf.vsnprintf size (some (formats items)) (Vsnprintf.args (items.map item)) =
      some ((texts items).take (size - 1).toNat, []) := by
  obtain ⟨hformats, htexts⟩ := flatMap_item hi
  have hvalid : ∀ i ∈ items.map item, i.Valid := by
    intro i hmem
    obtain ⟨j, hj, rfl⟩ := List.mem_map.mp hmem
    exact (item_valid (hi j hj)).1
  have hprint := Vsnprintf.vsnprintf_formats hvalid size
  rw [hformats, htexts] at hprint
  exact hprint

/-- "%d %s" for -42 and "ab". -/
theorem vsnprintf_texts_two :
    Vsnprintf.vsnprintf 64 (some (formats [.number .d (-42), .literal (ch ' '),
        .string [ch 'a', ch 'b']])) [.int (-42), .str [ch 'a', ch 'b']] =
      some ((texts [.number .d (-42), .literal (ch ' '), .string [ch 'a', ch 'b']]).take 63, []) :=
  vsnprintf_texts
    (by
      simp only [List.forall_mem_cons]
      exact ⟨trivial, ⟨by decide, by decide⟩, ⟨by decide, by decide⟩,
        fun i hi => absurd hi List.not_mem_nil⟩)
    64

end ScanItem

end Cibyl
