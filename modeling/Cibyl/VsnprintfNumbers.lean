import Cibyl.VsnprintfSpec

namespace Cibyl
set_option autoImplicit true

open Numeral (IsDigit)

namespace Vsnprintf

/-- The characters are the digits of the base. -/
def Digits (base : Nat) (digits : List Byte) : Prop :=
  ∀ d < base, IsDigit base (digits.getD d 0) ∧ Numeral.value (digits.getD d 0) = d

section

variable {base : Nat} {digits : List Byte} {f : Flags}

/-- The reversed number string holds the digits of the number. -/
theorem convert_spec (hb : 1 < base) (hd : Digits base digits) (n : Nat) :
    (∀ c ∈ convert digits base n, IsDigit base c) ∧
      Numeral.number base (convert digits base n).reverse = n := by
  induction n using Nat.strongRecOn with
  | ind n ih =>
    obtain ⟨hdig, hval⟩ := hd (n % base) (Nat.mod_lt n (by omega))
    rw [convert]
    split
    · next h =>
      have hlt : n / base < n := Nat.div_lt_self (Nat.lt_of_lt_of_le h.1 (Nat.div_le_self ..)) hb
      obtain ⟨hall, hnum⟩ := ih (n / base) hlt
      refine ⟨List.forall_mem_cons.mpr ⟨hdig, hall⟩, ?_⟩
      rw [List.reverse_cons, Libc.number_snoc, hnum, hval, Nat.div_add_mod']
    · next h =>
      have hz : n / base = 0 := by
        by_contra hne
        exact h ⟨Nat.pos_of_ne_zero hne, hb⟩
      have hlt : n < base := (Nat.div_eq_zero_iff.mp hz).resolve_left (by omega)
      refine ⟨fun c hc => List.mem_singleton.mp hc ▸ hdig, ?_⟩
      rw [Nat.mod_eq_of_lt hlt] at hval ⊢
      rw [List.reverse_singleton, Numeral.number, List.foldl_cons, List.foldl_nil, hval,
        Nat.zero_mul, Nat.zero_add]

/-- `convert` has room for the digits. -/
theorem convert_length (hb : 1 < base) (k n : Nat) (h : n < 2 ^ (k + 1)) :
    (convert digits base n).length ≤ k + 1 := by
  induction k generalizing n with
  | zero =>
    rw [convert, if_neg]
    · exact Nat.le_refl _
    · rintro ⟨hpos, -⟩
      have hle : n / base ≤ n / 2 := Nat.div_le_div_left hb (by decide)
      omega
  | succ k ih =>
    rw [convert]
    split
    · have hle : n / base ≤ n / 2 := Nat.div_le_div_left hb (by decide)
      rw [Nat.pow_succ] at h
      exact Nat.succ_le_succ (ih (n / base) (by omega))
    · exact Nat.succ_le_succ (Nat.zero_le _)

theorem number_zeros (k : Nat) (ds : List Byte) :
    Numeral.number base (List.replicate k (ch '0') ++ ds) = Numeral.number base ds := by
  induction k with
  | zero => rfl
  | succ k ih =>
    have hz : Numeral.value (ch '0') = 0 := by decide
    rw [List.replicate_succ, List.cons_append, Numeral.number, List.foldl_cons, hz, Nat.zero_mul,
      Nat.add_zero]
    exact ih

/-- The sign in front of a number, and whether it is negative. -/
def Signs (negative : Bool) (s : List Byte) : Prop :=
  negative = true ∧ s = [ch '-'] ∨ negative = false ∧ (s = [] ∨ s = [ch '+'])

theorem skipSpaces_append {sp : List Byte} (hsp : ∀ c ∈ sp, c = ch ' ')
    (hc : isspace c.toInt = false) (t : List Byte) :
    Libc.skipSpaces (sp ++ c :: t) = c :: t := by
  induction sp with
  | nil => exact List.dropWhile_cons_of_neg (by simp [hc])
  | cons d sp ih =>
    cases hsp d (List.mem_cons_self ..)
    exact ih fun c hc => hsp c (List.mem_cons_of_mem _ hc)

theorem takeSign_signs {s : List Byte} (hsp : ∀ c ∈ sp, c = ch ' ') (hs : Signs negative s)
    (hc : IsDigit 16 c) (t : List Byte) :
    Libc.takeSign (Libc.skipSpaces (sp ++ (s ++ c :: t))) = (negative, c :: t) := by
  obtain ⟨hspace, hminus, hplus⟩ := ScanItem.not_space_of_digit hc
  rcases hs with ⟨rfl, rfl⟩ | ⟨rfl, rfl | rfl⟩
  · rw [List.singleton_append, skipSpaces_append hsp (by decide)]
    rfl
  · rw [List.nil_append, skipSpaces_append hsp hspace, Libc.takeSign, if_neg hminus, if_neg hplus]
  · rw [List.singleton_append, skipSpaces_append hsp (by decide)]
    rfl

theorem not_digit_of_space {tail : List Byte} (htail : ∀ c ∈ tail, c = ch ' ') :
    ∀ c ∈ tail.head?, ¬ IsDigit base c := by
  intro c hc
  rw [htail c (List.mem_of_mem_head? hc)]
  rintro ⟨h | h | h, -⟩
  · exact absurd h (by decide)
  · exact absurd h (by decide)
  · exact absurd h (by decide)

theorem takePrefix_digits (hb : base = 10 ∨ base = 16) {pre : List Byte}
    (hpre : pre = [] ∨ base = 16 ∧ pre = [ch '0', ch 'x']) (hds : ∀ c ∈ ds, IsDigit base c)
    (htail : ∀ c ∈ tail, c = ch ' ') :
    Libc.takePrefix base (pre ++ (ds ++ tail)) = ((base : Int), ds ++ tail) := by
  rcases hpre with rfl | ⟨rfl, rfl⟩
  · rcases hb with rfl | rfl
    · exact Libc.takePrefix_ten _
    · refine Libc.takePrefix_of_not _ fun h => ?_
      rw [List.nil_append] at h
      have hx : ∀ c ∈ ds ++ tail, c ≠ ch 'x' := by
        intro c hc hx
        rw [hx] at hc
        rcases List.mem_append.mp hc with hc | hc
        · exact (Libc.not_isDigit_x (by decide)).1 (hds _ hc)
        · exact absurd (htail _ hc) (by decide)
      generalize ds ++ tail = t at h hx
      cases t with
      | nil => exact h
      | cons a t =>
        cases t with
        | nil => exact h
        | cons b t => exact hx b (by simp) h.2
  · rfl

/-- A number is read behind spaces, a sign and a prefix, up to the spaces behind it. -/
theorem strtoll_number (hb : base = 10 ∨ base = 16) {sp s pre ds tail : List Byte}
    (hsp : ∀ c ∈ sp, c = ch ' ') (hs : Signs negative s)
    (hpre : pre = [] ∨ base = 16 ∧ pre = [ch '0', ch 'x']) (hne : ds ≠ [])
    (hds : ∀ c ∈ ds, IsDigit base c) (htail : ∀ c ∈ tail, c = ch ' ') :
    Libc.strtoll (sp ++ (s ++ (pre ++ (ds ++ tail)))) base =
      some (if negative then -BitVec.ofNat 64 (Numeral.number base ds)
        else BitVec.ofNat 64 (Numeral.number base ds), tail) := by
  obtain ⟨c, t, hct, hc⟩ : ∃ c t, pre ++ (ds ++ tail) = c :: t ∧ IsDigit 16 c := by
    rcases hpre with rfl | ⟨-, rfl⟩
    · obtain ⟨d, ds, rfl⟩ := List.exists_cons_of_ne_nil hne
      exact ⟨d, _, rfl, (hds d (List.mem_cons_self ..)).mono (by omega)⟩
    · exact ⟨ch '0', _, rfl, by decide⟩
  have hsign := takeSign_signs hsp hs hc t
  have hprefix := takePrefix_digits hb hpre hds htail
  rw [hct] at hprefix ⊢
  obtain ⟨hrun, hrest⟩ := ScanItem.run_append hds (not_digit_of_space htail)
  have hcode := Libc.strtoll_eq (.inr hb) (by rw [hsign]; exact hprefix)
    (Libc.digits_eq hb 0 false (ds ++ tail))
  rw [hcode, hrun, hrest, hsign]
  obtain ⟨d, ds, rfl⟩ := List.exists_cons_of_ne_nil hne
  rfl

theorem mem_spaces (n : Int) : ∀ c ∈ spaces n, c = ch ' ' :=
  fun _ hc => List.eq_of_mem_replicate hc

theorem mem_rightpad (f : Flags) (n : Int) : ∀ c ∈ rightpad f n, c = ch ' ' := by
  rw [rightpad]
  split
  · exact mem_spaces n
  · exact fun c hc => absurd hc List.not_mem_nil

/-- The sign character is a blank or a sign. -/
theorem signch_signs (f : Flags) (sign : Bool) (w : Word) :
    ∃ sp s, signch f sign w = sp ++ s ∧ (∀ c ∈ sp, c = ch ' ') ∧
      Signs (sign && decide (w.toInt < 0)) s := by
  cases sign with
  | false => exact ⟨[], [], rfl, fun c hc => absurd hc List.not_mem_nil, .inr ⟨rfl, .inl rfl⟩⟩
  | true =>
    rw [signch, if_pos rfl, Bool.true_and]
    split
    · next h =>
      exact ⟨[], _, rfl, fun c hc => absurd hc List.not_mem_nil,
        .inr ⟨decide_eq_false (Int.not_lt.mpr h.2), .inr rfl⟩⟩
    · split
      · next h =>
        exact ⟨[ch ' '], [], rfl, fun c hc => List.mem_singleton.mp hc,
          .inr ⟨decide_eq_false (Int.not_lt.mpr h.2), .inl rfl⟩⟩
      · split
        · next h =>
          exact ⟨[], _, rfl, fun c hc => absurd hc List.not_mem_nil, .inl ⟨decide_eq_true h, rfl⟩⟩
        · next h =>
          exact ⟨[], [], rfl, fun c hc => absurd hc List.not_mem_nil,
            .inr ⟨decide_eq_false h, .inl rfl⟩⟩

theorem numberPrefix_hex (hb : base = 10 ∨ base = 16) (f : Flags) (w : Word) :
    numberPrefix f base w = [] ∨ base = 16 ∧ numberPrefix f base w = [ch '0', ch 'x'] := by
  rw [numberPrefix]
  rcases hb with rfl | rfl
  · split
    · exact .inl rfl
    · exact .inl rfl
  · split
    · exact .inr ⟨rfl, rfl⟩
    · exact .inl rfl

/-- The magnitude that the digits are taken from. -/
def magnitude (sign : Bool) (w : Word) : Nat :=
  (if sign = true ∧ w.toInt < 0 then -w else w).toNat

/-- The characters of a number, piece by piece. -/
theorem printNumber_shape (f : Flags) (width precision : Int) (sign : Bool) (base : Nat)
    (digits : List Byte) (w : Word) : ∃ sp s k tail, (∀ c ∈ sp, c = ch ' ') ∧
      Signs (sign && decide (w.toInt < 0)) s ∧ (∀ c ∈ tail, c = ch ' ') ∧
      (printNumber f width precision sign base digits w).1 = sp ++ (s ++ (numberPrefix f base w ++
        ((List.replicate k (ch '0') ++ (convert digits base (magnitude sign w)).reverse) ++
          tail))) := by
  obtain ⟨sp, s, hsign, hsp, hs⟩ := signch_signs f sign w
  have hleft : ∀ (b : Bool) (n : Int), ∀ c ∈ (if b then spaces n else []) ++ sp, c = ch ' ' := by
    intro b n c hc
    rcases List.mem_append.mp hc with hc | hc
    · split at hc
      · exact mem_spaces n c hc
      · exact absurd hc List.not_mem_nil
    · exact hsp c hc
  obtain ⟨b, n, k, m, htext⟩ : ∃ (b : Bool) (n k m : Int),
      (printNumber f width precision sign base digits w).1 =
        (if b then spaces n else []) ++ (sp ++ s) ++ numberPrefix f base w ++ zeros k ++
          (convert digits base (magnitude sign w)).reverse ++ rightpad f m := by
    rw [printNumber, hsign]
    exact ⟨_, _, _, _, rfl⟩
  refine ⟨(if b then spaces n else []) ++ sp, s, k.toNat, rightpad f m, hleft b n, hs,
    mem_rightpad f m, ?_⟩
  rw [htext, zeros]
  simp only [List.append_assoc]

theorem toInt_magnitude (sign : Bool) (w : Word) :
    Numeral.signed (sign && decide (w.toInt < 0)) (magnitude sign w) =
      if sign then w.toInt else w.toNat := by
  have hint := BitVec.toInt_eq_toNat_cond w
  have hlt := w.isLt
  rw [magnitude]
  cases sign with
  | false => rfl
  | true =>
    rw [Bool.true_and, if_pos rfl]
    by_cases h : w.toInt < 0
    · rw [decide_eq_true h, if_pos ⟨rfl, h⟩, Numeral.signed, if_pos rfl, BitVec.toNat_neg]
      split at hint
      · omega
      · omega
    · rw [decide_eq_false h, if_neg fun hn => h hn.2]
      change (w.toNat : Int) = w.toInt
      split at hint
      · omega
      · omega

/-- What is printed of a number in base 10 or 16 is read back by `strtoll`, up to the padding. -/
theorem printNumber_strtoll (hb : base = 10 ∨ base = 16) (hd : Digits base digits) (f : Flags)
    (width precision : Int) (sign : Bool) (w : Word) : ∃ num tail,
      Libc.strtoll (printNumber f width precision sign base digits w).1 base = some (num, tail) ∧
        num.toInt = (if sign then w.toInt else w.toNat) ∧ ∀ c ∈ tail, c = ch ' ' := by
  have hb' : 1 < base := by omega
  obtain ⟨sp, s, k, tail, hsp, hs, htail, htext⟩ :=
    printNumber_shape f width precision sign base digits w
  obtain ⟨hall, hnum⟩ := convert_spec hb' hd (magnitude sign w)
  have hds : ∀ c ∈ List.replicate k (ch '0') ++ (convert digits base (magnitude sign w)).reverse,
      IsDigit base c := by
    intro c hc
    rcases List.mem_append.mp hc with hc | hc
    · rw [List.eq_of_mem_replicate hc]
      exact Libc.isDigit_zero (Nat.lt_of_succ_lt hb')
    · exact hall c (List.mem_reverse.mp hc)
  have hne : List.replicate k (ch '0') ++
      (convert digits base (magnitude sign w)).reverse ≠ [] := by
    intro h
    have hnil := List.reverse_eq_nil_iff.mp (List.append_eq_nil_iff.mp h).2
    rw [convert] at hnil
    split at hnil
    · cases hnil
    · cases hnil
  have hread := strtoll_number hb hsp hs (numberPrefix_hex hb f w) hne hds htail
  rw [number_zeros, hnum] at hread
  refine ⟨_, tail, htext ▸ hread, ?_, htail⟩
  have hvalue := toInt_magnitude sign w
  rw [Libc.toInt_signed, hvalue]
  rw [hvalue]
  have hlt := w.isLt
  have hle := w.two_mul_toInt_lt
  have hge := w.le_two_mul_toInt
  constructor
  · split
    · omega
    · omega
  · split
    · omega
    · omega

/-- The letters of the numbers that `strtoll` can read. -/
theorem numberFormat_digits (h : numberFormat c = some (base, digits, sign))
    (hb : base = 10 ∨ base = 16) : Digits base digits := by
  have hdec : Digits 10 ("0123456789".toList.map ch) := by
    unfold Digits
    decide
  have hlow : Digits 16 lowerDigits := by
    unfold Digits
    decide
  have hupp : Digits 16 upperDigits := by
    unfold Digits
    decide
  rw [numberFormat] at h
  split at h
  · cases h
    omega
  split at h
  · cases h
    omega
  split at h
  · cases h
    exact hlow
  split at h
  · cases h
    exact hupp
  split at h
  · cases h
    exact hdec
  split at h
  · cases h
    exact hdec
  · cases h

/-- A number that is printed in decimal or hexadecimal is read back, whatever the flags, the width
and the precision of its conversion are. -/
theorem vsnprintf_strtoll {s : Spec} (hs : s.Valid) (ha : s.ap = [.int w])
    (hf : numberFormat s.letter = some (base, digits, sign)) (hb : base = 10 ∨ base = 16)
    (size : Word) (hroom : s.text.length ≤ (size - 1).toNat) : ∃ out num tail,
      vsnprintf size (some s.format) s.args = some (out, []) ∧
        Libc.strtoll out base = some (num, tail) ∧
        num.toInt = (if sign then w.toInt else w.toNat) ∧ ∀ c ∈ tail, c = ch ' ' := by
  have hvalid : ∀ i ∈ [Item.spec s], i.Valid := fun i hi => List.mem_singleton.mp hi ▸ hs
  have hprint := vsnprintf_formats hvalid size
  rw [formats, args, texts, List.flatMap_singleton, List.flatMap_singleton,
    List.flatMap_singleton] at hprint
  have hd := numberFormat_digits hf hb
  obtain ⟨num, tail, hread, hvalue, htail⟩ : ∃ num tail,
      Libc.strtoll s.text base = some (num, tail) ∧
        num.toInt = (if sign then w.toInt else w.toNat) ∧ ∀ c ∈ tail, c = ch ' ' := by
    unfold Spec.text Spec.text? conversion
    rw [hf, ha]
    by_cases hp : s.letter = ch 'p'
    · simp only [vaInt, Option.map_some, Option.getD_some, if_pos hp]
      exact printNumber_strtoll hb hd _ _ _ sign w
    · simp only [vaInt, Option.map_some, Option.getD_some, if_neg hp]
      exact printNumber_strtoll hb hd _ _ _ sign w
  exact ⟨s.text, num, tail, hprint.trans (congrArg (fun l => some (l, [])) (List.take_of_length_le
    hroom)), hread, hvalue, htail⟩

theorem vsnprintf_strtoll_padded : ∃ out num tail,
    vsnprintf 64 (some paddedSpec.format) paddedSpec.args = some (out, []) ∧
      Libc.strtoll out 10 = some (num, tail) ∧ num.toInt = -42 ∧ ∀ c ∈ tail, c = ch ' ' :=
  vsnprintf_strtoll paddedSpec_valid rfl rfl (.inl rfl) 64 (by decide +kernel)

end

end Vsnprintf

end Cibyl
