import Cibyl.Vsnprintf

namespace Cibyl
set_option autoImplicit true

namespace Vsnprintf

theorem toNat_pred {n : Word} (h : n ≠ 0) : (n - 1).toNat + 1 = n.toNat := by
  have hpos : 0 < n.toNat := Nat.pos_of_ne_zero fun he => h (BitVec.eq_of_toNat_eq he)
  have hle : (1 : Word) ≤ n := BitVec.le_def.mpr hpos
  rw [BitVec.toNat_sub_of_le hle]
  exact Nat.sub_add_cancel hpos

theorem put_fits (h : cs.length ≤ p.size.toNat) : ∃ n : Word,
    put cs p = (true, ⟨n, p.out ++ cs⟩) ∧ n.toNat + cs.length = p.size.toNat := by
  induction cs generalizing p with
  | nil => exact ⟨p.size, by rw [List.append_nil]; rfl, rfl⟩
  | cons c cs ih =>
    rw [List.length_cons] at h ⊢
    have hne : p.size ≠ 0 := by
      intro he
      rw [he] at h
      exact absurd h (Nat.not_succ_le_zero _)
    have hsize := toNat_pred hne
    obtain ⟨n, hput, hn⟩ := @ih ⟨p.size - 1, p.out ++ [c]⟩ (by dsimp only; omega)
    refine ⟨n, ?_, by dsimp only at hn; omega⟩
    rw [put, if_neg hne, hput, List.append_assoc]
    rfl

theorem put_full (h : p.size.toNat < cs.length) : ∃ n : Word,
    put cs p = (false, ⟨n, p.out ++ cs.take p.size.toNat⟩) := by
  induction cs generalizing p with
  | nil => exact absurd h (Nat.not_lt_zero _)
  | cons c cs ih =>
    rw [put]
    split
    · next he =>
      obtain ⟨n, out⟩ := p
      obtain rfl : n = 0 := he
      exact ⟨0, congrArg (fun l => (false, Printer.mk 0 l)) (List.append_nil out).symm⟩
    · next hne =>
      have hsize := toNat_pred hne
      rw [List.length_cons] at h
      obtain ⟨n, hput⟩ := @ih ⟨p.size - 1, p.out ++ [c]⟩ (by dsimp only; omega)
      refine ⟨n, ?_⟩
      rw [hput, ← hsize, List.append_assoc]
      rfl

/-- The count before or behind a point. -/
inductive Count where
  | absent
  | star (w : Word)
  | digits (ds : List Byte)
  deriving DecidableEq, Repr

namespace Count

def format : Count → List Byte
  | absent => []
  | star _ => [ch '*']
  | digits ds => ds

def value : Count → Int
  | absent => -1
  | star w => w.toInt
  | digits ds => Numeral.number 10 ds

def args : Count → List Arg
  | star w => [.int w]
  | _ => []

/-- The count behind a point. -/
def precision : Option Count → List Byte
  | none => []
  | some c => ch '.' :: c.format

end Count

def isFlag (c : Byte) : Bool :=
  c == ch '-' || c == ch '+' || c == ch ' ' || c == ch '0' || c == ch '#'

def isModifier (c : Byte) : Bool := c == ch 'h' || c == ch 'l' || c == ch 'L'

/-- A character that stands for something between `%` and the letter of a conversion. -/
def isSyntax (c : Byte) : Bool :=
  isFlag c || isModifier c || c == ch '*' || c == ch '.' || isdigit c.toInt

def Count.Valid : Count → Prop
  | .digits ds => ds ≠ [] ∧ ∀ c ∈ ds, isdigit c.toInt = true
  | _ => True

/-- A conversion of a format, with its arguments. -/
structure Spec where
  flags : List Byte
  width : Count
  precision : Option Count
  modifier : Option Byte
  letter : Byte
  ap : List Arg
  deriving DecidableEq, Repr

namespace Spec

/-- What the format has from the precision on. -/
def tail (s : Spec) : List Byte :=
  Count.precision s.precision ++ (s.modifier.toList ++ [s.letter])

def format (s : Spec) : List Byte := ch '%' :: (s.flags ++ (s.width.format ++ s.tail))

def args (s : Spec) : List Arg :=
  s.width.args ++ ((s.precision.map Count.args).getD [] ++ s.ap)

def flagSet (s : Spec) : Flags := (parseFlags {} s.flags).1

def precisionValue (s : Spec) : Int := (s.precision.map Count.value).getD (-1)

/-- The characters of the conversion, where the arguments fit its letter. -/
def text? (s : Spec) : Option (List Byte × Int × List Arg) :=
  conversion s.letter s.flagSet s.width.value s.precisionValue 0 s.ap

def text (s : Spec) : List Byte := (s.text?.map Prod.fst).getD []

/-- A conversion that reads as one, other than `%n`, with its arguments. -/
structure Valid (s : Spec) : Prop where
  flags : ∀ c ∈ s.flags, isFlag c = true
  width : s.width.Valid ∧ s.width.format.head? ≠ some (ch '0')
  precision : ∀ c ∈ s.precision, c.Valid
  modifier : ∀ c ∈ s.modifier, isModifier c = true
  letter : s.letter ≠ ch 'n' ∧ s.letter ≠ 0 ∧ (s.modifier = none → isSyntax s.letter = false)
  ap : ∃ text numpr, s.text? = some (text, numpr, [])

end Spec

/-- A character of a format that is copied, or a conversion. -/
inductive Item where
  | literal (c : Byte)
  | spec (s : Spec)
  deriving DecidableEq, Repr

namespace Item

def format : Item → List Byte
  | literal c => [c]
  | spec s => s.format

def args : Item → List Arg
  | literal _ => []
  | spec s => s.args

def text : Item → List Byte
  | literal c => [c]
  | spec s => s.text

def Valid : Item → Prop
  | literal c => c ≠ 0 ∧ c ≠ ch '%'
  | spec s => s.Valid

end Item

def formats (items : List Item) : List Byte := items.flatMap Item.format

def args (items : List Item) : List Arg := items.flatMap Item.args

def texts (items : List Item) : List Byte := items.flatMap Item.text

section

variable {f : Flags} {fmt : List Byte}

/-- The first character that is no flag ends the flags. -/
theorem parseFlags_append (hfs : ∀ c ∈ fs, isFlag c = true) (hc : isFlag c = false) :
    parseFlags f (fs ++ c :: fmt) = ((parseFlags f fs).1, c :: fmt) := by
  induction fs generalizing f with
  | nil =>
    simp only [isFlag, Bool.or_eq_false_iff, beq_eq_false_iff_ne, ne_eq] at hc
    obtain ⟨⟨⟨⟨h₁, h₂⟩, h₃⟩, h₄⟩, h₅⟩ := hc
    have h : parseFlags f (c :: fmt) = (f, c :: fmt) := by
      rw [parseFlags, if_neg h₁, if_neg h₂, if_neg h₃, if_neg h₄, if_neg h₅]
    exact h
  | cons d fs ih =>
    have ih' : ∀ f, parseFlags f (fs ++ c :: fmt) = ((parseFlags f fs).1, c :: fmt) := fun f =>
      ih fun c hc => hfs c (List.mem_cons_of_mem _ hc)
    have hd := hfs d (List.mem_cons_self ..)
    simp only [isFlag, Bool.or_eq_true, beq_iff_eq] at hd
    rw [List.cons_append, parseFlags, parseFlags]
    rcases hd with (((rfl | rfl) | rfl) | rfl) | rfl
    all_goals exact ih' _

theorem toInt_sub_zero (h : isdigit c.toInt = true) :
    c.toInt - ascii '0' = (Numeral.value c : Int) := by
  have hd := Numeral.isDigit_ten_iff.mpr (Numeral.isdigit_iff.mp h)
  have hr := Numeral.isdigit_iff.mp h
  have h₀ : ascii '0' = 48 := rfl
  rw [Libc.toInt_of_digit (hd.mono (by decide)), Libc.value_of_le (by decide) hd, h₀]
  omega

theorem parseNumber_append (n : Nat) (hds : ∀ c ∈ ds, isdigit c.toInt = true)
    (hc : ∀ c ∈ fmt.head?, isdigit c.toInt = false) :
    parseNumber n (ds ++ fmt) =
      (((ds.foldl (fun n c => n * 10 + Numeral.value c) n : Nat) : Int), fmt) := by
  induction ds generalizing n with
  | nil =>
    cases fmt with
    | nil => rfl
    | cons c fmt =>
      rw [List.nil_append, parseNumber, if_neg (by rw [hc c rfl]; exact Bool.false_ne_true)]
      rfl
  | cons d ds ih =>
    have hd := hds d (List.mem_cons_self ..)
    have hn : (n : Int) * 10 + (d.toInt - ascii '0') =
        ((n * 10 + Numeral.value d : Nat) : Int) := by
      rw [toInt_sub_zero hd]
      push_cast
      rfl
    rw [List.cons_append, parseNumber, if_pos hd, List.foldl_cons, hn]
    exact ih _ fun c hc => hds c (List.mem_cons_of_mem _ hc)

/-- What can stand behind a count. -/
def Ends (fmt : List Byte) : Prop :=
  ∀ c ∈ fmt.head?, isdigit c.toInt = false ∧ c ≠ ch '*'

theorem parseCount_format {c : Count} (hc : c.Valid) (he : Ends fmt) (ap : List Arg) :
    parseCount (c.format ++ fmt) (c.args ++ ap) = some (c.value, fmt, ap) := by
  cases c with
  | absent =>
    cases fmt with
    | nil => rfl
    | cons d fmt =>
      obtain ⟨hd, hs⟩ := he d rfl
      have h : parseCount (d :: fmt) ap = some (-1, d :: fmt, ap) := by
        rw [parseCount, if_neg hs, if_neg (by rw [hd]; exact Bool.false_ne_true)]
      exact h
  | star w => rfl
  | digits ds =>
    obtain ⟨hne, hds⟩ := hc
    obtain ⟨d, ds, rfl⟩ := List.exists_cons_of_ne_nil hne
    have hd := hds d (List.mem_cons_self ..)
    have hs : d ≠ ch '*' := by
      rintro rfl
      cases hd
    have hn := parseNumber_append 0 hds fun c hc => (he c hc).1
    have h : parseCount (d :: (ds ++ fmt)) ap =
        some ((parseNumber 0 (d :: (ds ++ fmt))).1, (parseNumber 0 (d :: (ds ++ fmt))).2, ap) := by
      rw [parseCount, if_neg hs, if_pos hd]
    refine h.trans ?_
    rw [← List.cons_append]
    exact congrArg (fun x => some (x.1, x.2, ap)) hn

/-- What a conversion has behind its counts is no flag, digit, star or point. -/
structure Settles (fmt : List Byte) : Prop where
  flag : ∀ c ∈ fmt.head?, isFlag c = false
  ends : Ends fmt
  point : ∀ c ∈ fmt.head?, c ≠ ch '.'

theorem settles_of_modifier (h : isModifier c = true) (fmt : List Byte) : Settles (c :: fmt) := by
  rw [isModifier, Bool.or_eq_true, Bool.or_eq_true, beq_iff_eq, beq_iff_eq, beq_iff_eq] at h
  constructor
  · intro d hd
    cases hd
    rcases h with (rfl | rfl) | rfl <;> rfl
  · intro d hd
    cases hd
    rcases h with (rfl | rfl) | rfl <;> decide
  · intro d hd
    cases hd
    rcases h with (rfl | rfl) | rfl <;> decide

theorem settles_of_letter (h : isSyntax c = false) (fmt : List Byte) : Settles (c :: fmt) := by
  simp only [isSyntax, Bool.or_eq_false_iff, beq_eq_false_iff_ne, ne_eq] at h
  obtain ⟨⟨⟨⟨hf, -⟩, hs⟩, hp⟩, hd⟩ := h
  constructor
  · intro d hd
    cases hd
    exact hf
  · intro d hd'
    cases hd'
    exact ⟨hd, hs⟩
  · intro d hd
    cases hd
    exact hp

namespace Spec

variable {s : Spec}

theorem Valid.settles (hs : s.Valid) (fmt : List Byte) :
    Settles (s.modifier.toList ++ s.letter :: fmt) := by
  cases hm : s.modifier with
  | none => exact settles_of_letter (hs.letter.2.2 hm) fmt
  | some m => exact settles_of_modifier (hs.modifier m hm) _

theorem tail_append (s : Spec) (fmt : List Byte) :
    s.tail ++ fmt = Count.precision s.precision ++ (s.modifier.toList ++ s.letter :: fmt) := by
  rw [tail, List.append_assoc, List.append_assoc]
  rfl

theorem Valid.parsePrecision (hs : s.Valid) (ap : List Arg) :
    parsePrecision (s.tail ++ fmt) ((s.precision.map Count.args).getD [] ++ ap) =
      some (s.precisionValue, s.modifier.toList ++ s.letter :: fmt, ap) := by
  have hset := hs.settles fmt
  rw [tail_append, precisionValue]
  cases hp : s.precision with
  | none =>
    obtain ⟨c, rest, hc⟩ : ∃ c rest, s.modifier.toList ++ s.letter :: fmt = c :: rest :=
      List.exists_cons_of_ne_nil (by simp)
    rw [hc] at hset ⊢
    have h : Vsnprintf.parsePrecision (c :: rest) ap = some (-1, c :: rest, ap) := by
      rw [Vsnprintf.parsePrecision, if_neg (hset.point c rfl)]
    exact h
  | some c => exact parseCount_format (hs.precision c hp) hset.ends ap

theorem Valid.parseModifier (hs : s.Valid) (fmt : List Byte) :
    parseModifier (s.modifier.toList ++ s.letter :: fmt) = s.letter :: fmt := by
  cases hm : s.modifier with
  | none =>
    have hl := hs.letter.2.2 hm
    simp only [isSyntax, isModifier, Bool.or_eq_false_iff, beq_eq_false_iff_ne, ne_eq] at hl
    obtain ⟨⟨⟨⟨-, ⟨hh, hl⟩, hL⟩, -⟩, -⟩, -⟩ := hl
    have h : Vsnprintf.parseModifier (s.letter :: fmt) = s.letter :: fmt := by
      rw [Vsnprintf.parseModifier, if_neg (by tauto)]
    exact h
  | some m =>
    have h := hs.modifier m hm
    rw [isModifier, Bool.or_eq_true, Bool.or_eq_true, beq_iff_eq, beq_iff_eq, beq_iff_eq,
      or_assoc] at h
    exact if_pos h

theorem Valid.tail_head (hs : s.Valid) (fmt : List Byte) : Ends (s.tail ++ fmt) ∧
    ∃ c rest, s.tail ++ fmt = c :: rest ∧ isFlag c = false := by
  have hset := hs.settles fmt
  rw [tail_append]
  cases hp : s.precision with
  | none =>
    obtain ⟨c, rest, hc⟩ : ∃ c rest, s.modifier.toList ++ s.letter :: fmt = c :: rest :=
      List.exists_cons_of_ne_nil (by simp)
    rw [hc] at hset
    rw [Count.precision, List.nil_append, hc]
    exact ⟨hset.ends, c, rest, rfl, hset.flag c rfl⟩
  | some c =>
    refine ⟨?_, ch '.', _, rfl, rfl⟩
    intro d hd
    cases hd
    decide

theorem isFlag_of_digit (h : isdigit c.toInt = true) (h₀ : c ≠ ch '0') : isFlag c = false := by
  simp only [isFlag, Bool.or_eq_false_iff, beq_eq_false_iff_ne, ne_eq]
  refine ⟨⟨⟨⟨?_, ?_⟩, ?_⟩, h₀⟩, ?_⟩
  all_goals
    rintro rfl
    cases h

/-- What stands behind the flags is none. -/
theorem Valid.flag_head (hs : s.Valid) (fmt : List Byte) : ∃ c rest,
    s.width.format ++ (s.tail ++ fmt) = c :: rest ∧ isFlag c = false := by
  obtain ⟨hw, hw'⟩ := hs.width
  cases hc : s.width with
  | absent => exact (hs.tail_head fmt).2
  | star w => exact ⟨ch '*', _, rfl, rfl⟩
  | digits ds =>
    rw [hc] at hw hw'
    obtain ⟨d, ds, rfl⟩ := List.exists_cons_of_ne_nil hw.1
    refine ⟨d, _, rfl, isFlag_of_digit (hw.2 d (List.mem_cons_self ..)) ?_⟩
    rintro rfl
    exact hw' rfl

/-- The code reads a conversion as it was written. -/
theorem Valid.percent (hs : s.Valid) (fmt : List Byte) (ap : List Arg) (st : State)
    (hf : st.fmt = s.flags ++ (s.width.format ++ (s.tail ++ fmt))) (ha : st.ap = s.args ++ ap) :
    percent st = (conversion s.letter s.flagSet s.width.value s.precisionValue st.numpr
      (s.ap ++ ap)).map (st.print fmt) := by
  obtain ⟨c, rest, hrest, hflag⟩ := hs.flag_head fmt
  have hflags : parseFlags {} st.fmt = (s.flagSet, s.width.format ++ (s.tail ++ fmt)) := by
    rw [hf, hrest, parseFlags_append hs.flags hflag]
    rfl
  have hcount := parseCount_format hs.width.1 (hs.tail_head fmt).1
    ((s.precision.map Count.args).getD [] ++ (s.ap ++ ap))
  rw [Vsnprintf.percent, hflags, ha, args, List.append_assoc, List.append_assoc]
  simp only [hcount, hs.parsePrecision, hs.parseModifier, if_neg hs.letter.1]

end Spec

theorem numpr_printNumber (f : Flags) (width precision : Int) (sign : Bool) (base : Nat)
    (digits : List Byte) (uval : Word) :
    0 ≤ (printNumber f width precision sign base digits uval).2 := by
  have hprefix : (numberPrefix f base uval).length ≤ prefixSize f base uval := by
    rw [numberPrefix, prefixSize]
    repeat' split
    all_goals simp_all
  rw [printNumber]
  dsimp only
  generalize (convert digits base _).length = k
  generalize hm : (if (k : Int) > precision then (k : Int) else precision) = m
  have hpos : 0 ≤ m := by
    rw [← hm]
    split
    · omega
    · omega
  split
  · next h =>
    simp only [Bool.and_eq_true, decide_eq_true_eq] at h
    omega
  · omega

/-- Without a width, the size that is left of an earlier conversion does not matter. -/
theorem printString_numpr (f : Flags) (width precision : Int) (hn : 0 ≤ n) (s : List Byte) :
    (printString f width precision n s).1 = (printString f width precision 0 s).1 ∧
      0 ≤ (printString f width precision n s).2 := by
  rw [printString, printString]
  dsimp only
  by_cases hw : width > 0
  · refine ⟨by simp only [if_pos hw], ?_⟩
    rw [if_pos hw]
    split
    · next h => exact h.1
    · omega
  · have hpad : ∀ m : Int, 0 ≤ m → rightpad f (width - m) = [] := by
      intro m hm
      rw [rightpad, spaces, Int.toNat_of_nonpos (by omega)]
      split
      · rfl
      · rfl
    simp only [if_neg hw, if_neg (fun h : width > 0 ∧ f.left = false => hw h.1), hpad n hn,
      hpad 0 (Int.le_refl 0)]
    exact ⟨trivial, hn⟩

theorem vaInt_eq {ap : List Arg} (h : vaInt ap = some (w, rest)) : ap = .int w :: rest := by
  unfold vaInt at h
  split at h
  · cases h
    rfl
  · cases h

/-- What a conversion does to its own arguments it does with more of them behind, and with another
size of the number before. -/
theorem conversion_append (h : conversion c f width precision 0 ap = some (text, numpr, []))
    (hn : 0 ≤ n) (rest : List Arg) : ∃ numpr', 0 ≤ numpr' ∧
      conversion c f width precision n (ap ++ rest) = some (text, numpr', rest) := by
  unfold conversion at h ⊢
  split at h
  · next base digits sign _ =>
    obtain ⟨⟨w, ap'⟩, hva, hx⟩ := Option.map_eq_some_iff.mp h
    cases vaInt_eq hva
    obtain ⟨ht, hx⟩ := Prod.mk.inj hx
    obtain ⟨hnum, rfl⟩ := Prod.mk.inj hx
    refine ⟨numpr, ?_, ?_⟩
    · rw [← hnum]
      split
      · exact numpr_printNumber ..
      · exact numpr_printNumber ..
    · rw [← ht, ← hnum]
      rfl
  · split at h
    · next hs =>
      rw [if_pos hs]
      split at h
      · cases h
        exact ⟨n, hn, rfl⟩
      · next s ap =>
        cases h
        have hp := printString_numpr f width precision hn s
        refine ⟨_, hp.2, ?_⟩
        rw [← hp.1]
        rfl
      · cases h
    · next hs =>
      rw [if_neg hs]
      split at h
      · next hc =>
        rw [if_pos hc]
        obtain ⟨⟨w, ap'⟩, hva, hx⟩ := Option.map_eq_some_iff.mp h
        cases vaInt_eq hva
        cases hx
        exact ⟨n, hn, rfl⟩
      · next hc =>
        rw [if_neg hc]
        split at h
        · next hp =>
          cases h
          exact ⟨n, hn, if_pos hp⟩
        · next hp =>
          cases h
          exact ⟨n, hn, if_neg hp⟩

end

/-- The loop from within a round. -/
def goOn (fuel : Nat) (s : State) : Option (Printer × List Nat) :=
  match copy s s.fmt s.printer with
  | none => none
  | some (.done p stored) => some (p, stored)
  | some (.next s) => loop fuel s

theorem loop_succ (fuel : Nat) (s : State) : loop (fuel + 1) s =
    if s.printer.size = 0 then some (s.printer, s.stored) else goOn fuel s := rfl

theorem copy_state (fmt fmt' : List Byte) (p p' : Printer) (ap : List Arg) (n : Int)
    (st : List Nat) (f : List Byte) (q : Printer) :
    copy ⟨p, fmt, ap, n, st⟩ f q = copy ⟨p', fmt', ap, n, st⟩ f q := by
  induction f generalizing q with
  | nil => rfl
  | cons c f ih =>
    rw [copy, copy, ih]

theorem goOn_literal (hc : c ≠ 0) (hp : c ≠ ch '%') (fuel : Nat) (p : Printer) (fmt : List Byte)
    (ap : List Arg) (n : Int) (st : List Nat) : goOn fuel ⟨p, c :: fmt, ap, n, st⟩ =
      if p.size = 0 then some (p, st)
      else goOn fuel ⟨⟨p.size - 1, p.out ++ [c]⟩, fmt, ap, n, st⟩ := by
  rw [goOn, goOn, copy, if_neg hp]
  by_cases h : p.size = 0
  · rw [if_pos (.inl h), if_pos h]
  · rw [if_neg (fun hs => hs.elim h hc), if_neg h, copy_state]

/-- A conversion puts its characters where there is room for all of them. -/
theorem goOn_spec {s : Spec} (hs : s.Valid) (hn : 0 ≤ n) (fuel : Nat) (p : Printer)
    (fmt : List Byte) (ap : List Arg) (st : List Nat) : ∃ numpr, 0 ≤ numpr ∧
      goOn fuel ⟨p, s.format ++ fmt, s.args ++ ap, n, st⟩ =
        if (put s.text p).1 = true then loop fuel ⟨(put s.text p).2, fmt, ap, numpr, st⟩
        else some ((put s.text p).2, st) := by
  obtain ⟨text, numpr, ht⟩ := hs.ap
  obtain ⟨numpr', hn', hconv⟩ := conversion_append ht hn ap
  have htext : s.text = text := by
    rw [Spec.text, ht]
    rfl
  have hfmt : s.format ++ fmt = ch '%' :: (s.flags ++ (s.width.format ++ (s.tail ++ fmt))) := by
    rw [Spec.format, List.cons_append, List.append_assoc, List.append_assoc]
  have hpercent := hs.percent fmt ap ⟨p, s.flags ++ (s.width.format ++ (s.tail ++ fmt)),
    s.args ++ ap, n, st⟩ rfl rfl
  rw [hconv] at hpercent
  refine ⟨numpr', hn', ?_⟩
  rw [goOn, hfmt, copy, if_pos rfl, hpercent, htext, Option.map_some, State.print]
  dsimp only
  generalize put text p = x
  obtain ⟨b, q⟩ := x
  cases b
  · rfl
  · rfl

/-- The format of some pieces puts out their characters, as far as there is room. -/
theorem goOn_formats (hi : ∀ i ∈ items, Item.Valid i) (hn : 0 ≤ n) (p : Printer)
    (hf : items.length ≤ fuel) : ∃ p', goOn fuel ⟨p, formats items, args items, n, []⟩ =
      some (p', []) ∧ p'.out = p.out ++ (texts items).take p.size.toNat := by
  induction items generalizing p fuel n with
  | nil =>
    refine ⟨p, rfl, ?_⟩
    rw [texts, List.flatMap_nil, List.take_nil, List.append_nil]
  | cons i items ih =>
    have hi' : ∀ j ∈ items, Item.Valid j := fun j hj => hi j (List.mem_cons_of_mem _ hj)
    have hv := hi i (List.mem_cons_self ..)
    rw [List.length_cons] at hf
    rw [formats, args, texts, List.flatMap_cons, List.flatMap_cons, List.flatMap_cons]
    cases i with
    | literal c =>
      rw [Item.format, Item.args, Item.text, List.nil_append, List.singleton_append,
        List.singleton_append, goOn_literal hv.1 hv.2]
      split
      · next h =>
        refine ⟨p, rfl, ?_⟩
        rw [h]
        exact (List.append_nil _).symm
      · next h =>
        obtain ⟨p', hp', hout⟩ := ih hi' hn ⟨p.size - 1, p.out ++ [c]⟩ (Nat.le_of_succ_le hf)
        refine ⟨p', hp', hout.trans ?_⟩
        rw [← toNat_pred h, List.append_assoc]
        rfl
    | spec s =>
      obtain ⟨numpr, hn', hspec⟩ := goOn_spec hv hn fuel p (items.flatMap Item.format)
        (items.flatMap Item.args) []
      rw [Item.format, Item.args, Item.text, hspec]
      rcases Nat.lt_or_ge p.size.toNat s.text.length with hlt | hle
      · obtain ⟨k, hput⟩ := put_full hlt
        rw [hput, if_neg Bool.false_ne_true]
        refine ⟨_, rfl, ?_⟩
        rw [List.take_append_of_le_length hlt.le]
      · obtain ⟨k, hput, hk⟩ := put_fits hle
        obtain ⟨fuel, rfl⟩ := Nat.exists_eq_succ_of_ne_zero (show fuel ≠ 0 by omega)
        rw [hput, if_pos rfl, loop_succ]
        dsimp only
        split
        · next h =>
          refine ⟨_, rfl, ?_⟩
          have h₀ : k.toNat = 0 := congrArg BitVec.toNat h
          rw [h₀, Nat.zero_add] at hk
          rw [← hk, List.take_left]
        · next h =>
          obtain ⟨p', hp', hout⟩ := ih hi' hn' ⟨k, p.out ++ s.text⟩ (Nat.le_of_succ_le_succ hf)
          refine ⟨p', hp', hout.trans ?_⟩
          rw [List.take_append, List.take_of_length_le hle, List.append_assoc]
          exact congrArg (fun m => p.out ++ (s.text ++ (texts items).take m)) (by dsimp only; omega)

theorem length_formats (hi : ∀ i ∈ items, Item.Valid i) :
    items.length ≤ (formats items).length := by
  induction items with
  | nil => exact Nat.le_refl _
  | cons i items ih =>
    have h := ih fun j hj => hi j (List.mem_cons_of_mem _ hj)
    rw [formats, List.flatMap_cons, List.length_append, List.length_cons]
    have hpos : 1 ≤ i.format.length := by
      cases i with
      | literal => exact Nat.le_refl _
      | spec s => exact Nat.succ_le_succ (Nat.zero_le _)
    unfold formats at h
    omega

/-- The format is expanded, and cut off where the buffer ends. -/
theorem vsnprintf_formats (hi : ∀ i ∈ items, Item.Valid i) (size : Word) :
    vsnprintf size (some (formats items)) (args items) =
      some ((texts items).take (size - 1).toNat, []) := by
  obtain ⟨p, hp, hout⟩ := goOn_formats hi (Int.le_refl 0) ⟨size - 1, []⟩ (length_formats hi)
  rw [vsnprintf, loop_succ]
  dsimp only
  split
  · next h =>
    rw [h]
    rfl
  · next h =>
    rw [hp, Option.map_some, hout]
    rfl

/-- `%-*.3d` with 6 and -42. -/
def paddedSpec : Spec :=
  ⟨[ch '-'], .star 6, some (.digits [ch '3']), none, ch 'd', [.int (-42)]⟩

theorem paddedSpec_valid : paddedSpec.Valid where
  flags := by decide
  width := ⟨trivial, by decide⟩
  precision c hc := by
    cases hc
    exact ⟨List.cons_ne_nil _ _, by decide⟩
  modifier := by decide
  letter := by decide
  ap := ⟨_, _, rfl⟩

/-- The buffer ends in the padding behind the number. -/
theorem vsnprintf_formats_padded :
    vsnprintf 7 (some (formats [.literal (ch 'x'), .spec paddedSpec]))
        (args [.literal (ch 'x'), .spec paddedSpec]) =
      some ((texts [.literal (ch 'x'), .spec paddedSpec]).take 6, []) := by
  refine vsnprintf_formats (fun i hi => ?_) 7
  rcases List.mem_cons.mp hi with rfl | hi
  · exact ⟨by decide, by decide⟩
  · rw [List.mem_singleton.mp hi]
    exact paddedSpec_valid

example : texts [.literal (ch 'x'), .spec paddedSpec] = "x-042  ".toList.map ch := by
  decide +kernel

end Vsnprintf

end Cibyl
