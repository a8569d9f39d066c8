import Cibyl.Scanf

namespace Cibyl
set_option autoImplicit true

namespace Vsnprintf

/-- An argument of `va_list`. A string is given by the bytes before its NUL. -/
inductive Arg where
  | int (w : Word)
  | str (s : List Byte)
  | null
  deriving DecidableEq, Repr

structure Flags where
  left : Bool := false
  sign : Bool := false
  space : Bool := false
  zero : Bool := false
  alternate : Bool := false
  deriving DecidableEq, Repr

/-- What is left of `size`, and the characters from `str` up to `p`. -/
structure Printer where
  size : Word
  out : List Byte
  deriving DecidableEq, Repr

/-- `PUTCH` for some characters. Where there is no room for one, the function is done. -/
def put : List Byte → Printer → Bool × Printer
  | [], p => (true, p)
  | c :: cs, p => if p.size = 0 then (false, p) else put cs ⟨p.size - 1, p.out ++ [c]⟩

/-- The loop over the flags. -/
def parseFlags (f : Flags) : List Byte → Flags × List Byte
  | [] => (f, [])
  | c :: fmt =>
    if c = ch '-' then parseFlags { f with left := true } fmt
    else if c = ch '+' then parseFlags { f with sign := true } fmt
    else if c = ch ' ' then parseFlags { f with space := true } fmt
    else if c = ch '0' then parseFlags { f with zero := true } fmt
    else if c = ch '#' then parseFlags { f with alternate := true } fmt
    else (f, c :: fmt)

/-- The loop over the digits of a width or a precision. -/
def parseNumber (n : Int) : List Byte → Int × List Byte
  | [] => (n, [])
  | c :: fmt =>
    if isdigit c.toInt then parseNumber (n * 10 + (c.toInt - ascii '0')) fmt else (n, c :: fmt)

/-- `va_arg( ap, int )`. -/
def vaInt : List Arg → Option (Word × List Arg)
  | .int w :: ap => some (w, ap)
  | _ => none

/-- An argument for a `*`, a number, or -1 without either. -/
def parseCount (fmt : List Byte) (ap : List Arg) : Option (Int × List Byte × List Arg) :=
  match fmt with
  | [] => some (-1, [], ap)
  | c :: rest =>
    if c = ch '*' then (vaInt ap).map (fun x => (x.1.toInt, rest, x.2))
    else if isdigit c.toInt then
      let (n, rest) := parseNumber 0 (c :: rest)
      some (n, rest, ap)
    else some (-1, c :: rest, ap)

def parsePrecision (fmt : List Byte) (ap : List Arg) : Option (Int × List Byte × List Arg) :=
  match fmt with
  | [] => some (-1, [], ap)
  | c :: rest => if c = ch '.' then parseCount rest ap else some (-1, c :: rest, ap)

/-- The length modifier. It has no effect on an `int`, which is a `long`. -/
def parseModifier : List Byte → List Byte
  | [] => []
  | c :: rest => if c = ch 'h' ∨ c = ch 'l' ∨ c = ch 'L' then rest else c :: rest

/-- The reversed number string in `convert`. -/
def convert (digits : List Byte) (base : Nat) (uval : Nat) : List Byte :=
  if uval / base > 0 ∧ base > 1 then
    digits.getD (uval % base) 0 :: convert digits base (uval / base)
  else [digits.getD (uval % base) 0]
termination_by uval
decreasing_by
  rename_i h
  exact Nat.div_lt_self (Nat.lt_of_lt_of_le h.1 (Nat.div_le_self ..)) h.2

/-- The sign character. -/
def signch (f : Flags) (sign : Bool) (uval : Word) : List Byte :=
  if sign then
    if f.sign = true ∧ 0 ≤ uval.toInt then [ch '+']
    else if f.space = true ∧ 0 ≤ uval.toInt then [ch ' ']
    else if uval.toInt < 0 then [ch '-']
    else []
  else []

/-- The number prefix. -/
def numberPrefix (f : Flags) (base : Nat) (uval : Word) : List Byte :=
  if f.alternate = true ∧ uval ≠ 0 then
    if base = 2 then [ch '%'] else if base = 8 then [ch '0'] else if base = 16 then [ch '0', ch 'x']
    else []
  else []

/-- What the prefix adds to the size of the number. In base 2 that is one more than is printed. -/
def prefixSize (f : Flags) (base : Nat) (uval : Word) : Int :=
  if f.alternate = true ∧ uval ≠ 0 then
    if base = 8 then 1 else if base = 16 ∨ base = 2 then 2 else 0
  else 0

def spaces (n : Int) : List Byte := List.replicate n.toNat (ch ' ')

def zeros (n : Int) : List Byte := List.replicate n.toNat (ch '0')

def rightpad (f : Flags) (n : Int) : List Byte := if f.left then spaces n else []

/-- The characters from `Print_unsigned` on, and `numpr` after them. -/
def printNumber (f : Flags) (width precision : Int) (sign : Bool) (base : Nat) (digits : List Byte)
    (uval : Word) : List Byte × Int :=
  let s := signch f sign uval
  let number := convert digits base (if sign = true ∧ uval.toInt < 0 then -uval else uval).toNat
  let numdigits : Int := number.length
  let numpr := (if numdigits > precision then numdigits else precision) + s.length +
    prefixSize f base uval
  let padded := !f.left && decide (width > numpr)
  let left := if padded && !f.zero then spaces (width - numpr) else []
  let numpr := if padded && f.zero then width else numpr
  let numpr := numpr - s.length - (numberPrefix f base uval).length
  (left ++ s ++ numberPrefix f base uval ++ zeros (numpr - numdigits) ++ number.reverse ++
    rightpad f (width - numpr - s.length), numpr)

/-- The characters of `%s`, and `numpr` after them. -/
def printString (f : Flags) (width precision numpr : Int) (s : List Byte) : List Byte × Int :=
  let size : Int := if 0 ≤ precision ∧ precision < s.length then precision else s.length
  let numpr := if width > 0 then size else numpr
  let left := if width > 0 ∧ f.left = false then
      (if f.zero then zeros (width - numpr) else spaces (width - numpr))
    else []
  (left ++ (if 0 ≤ precision then s.take precision.toNat else s) ++ rightpad f (width - numpr),
    numpr)

def lowerDigits : List Byte := "0123456789abcdef".toList.map ch

def upperDigits : List Byte := "0123456789ABCDEF".toList.map ch

/-- The base, the digits and whether there is a sign. -/
def numberFormat (c : Byte) : Option (Nat × List Byte × Bool) :=
  if c = ch 'b' then some (2, "01".toList.map ch, false)
  else if c = ch 'o' then some (8, "012345678".toList.map ch, false)
  else if c = ch 'p' ∨ c = ch 'x' then some (16, lowerDigits, false)
  else if c = ch 'X' then some (16, upperDigits, false)
  else if c = ch 'd' ∨ c = ch 'i' then some (10, "0123456789".toList.map ch, true)
  else if c = ch 'u' then some (10, "0123456789".toList.map ch, false)
  else none

/-- The variables of the loop. `stored` are the counts that `%n` has put out. -/
structure State where
  printer : Printer
  fmt : List Byte
  ap : List Arg
  numpr : Int
  stored : List Nat
  deriving DecidableEq, Repr

/-- The format conversion. The second part is the characters, `numpr` and the rest of `ap`. -/
def conversion (c : Byte) (f : Flags) (width precision numpr : Int) (ap : List Arg) :
    Option (List Byte × Int × List Arg) :=
  match numberFormat c with
  | some (base, digits, sign) =>
    (vaInt ap).map (fun x =>
      let t := if c = ch 'p' then printNumber { f with alternate := true } 8 8 sign base digits x.1
        else printNumber f width precision sign base digits x.1
      (t.1, t.2, x.2))
  | none =>
    if c = ch 's' then
      match ap with
      | .null :: ap => some ("(null)".toList.map ch, numpr, ap)
      | .str s :: ap =>
        let t := printString f width precision numpr s
        some (t.1, t.2, ap)
      | _ => none
    else if c = ch 'c' then (vaInt ap).map (fun x => ([x.1.setWidth 8], numpr, x.2))
    else if c = ch '%' then some ([ch '%'], numpr, ap)
    else some ([ch '%', c], numpr, ap)

/-- What a round of the loop does: the function is done, or goes on. -/
inductive Round where
  | done (p : Printer) (stored : List Nat)
  | next (s : State)

/-- Put the characters of a conversion, and go on with the rest of the format. -/
def State.print (s : State) (fmt : List Byte) (x : List Byte × Int × List Arg) : Round :=
  match put x.1 s.printer with
  | (true, p) => .next ⟨p, fmt, x.2.2, x.2.1, s.stored⟩
  | (false, p) => .done p s.stored

/-- The code behind a `%`. The end of the format there is read as a character, and the loop goes on
behind it, which nothing says anything about. -/
def percent (s : State) : Option Round :=
  let (f, fmt) := parseFlags {} s.fmt
  match parseCount fmt s.ap with
  | none => none
  | some (width, fmt, ap) =>
    match parsePrecision fmt ap with
    | none => none
    | some (precision, fmt, ap) =>
      match parseModifier fmt with
      | [] =>
        match put [ch '%', 0] s.printer with
        | (true, p) => if p.size = 0 then some (.done p s.stored) else none
        | (false, p) => some (.done p s.stored)
      | c :: fmt =>
        if c = ch 'n' then
          some (.next { s with fmt := fmt, ap := ap, stored := s.stored ++ [s.printer.out.length] })
        else
          (conversion c f width precision s.numpr ap).map (s.print fmt)

/-- The loop up to a `%`, and what comes behind that. -/
def copy (s : State) : List Byte → Printer → Option Round
  | [], p => some (.done p s.stored)
  | c :: fmt, p =>
    if c = ch '%' then percent { s with printer := p, fmt := fmt }
    else if p.size = 0 ∨ c = 0 then some (.done p s.stored)
    else copy s fmt ⟨p.size - 1, p.out ++ [c]⟩

/-- The loop over the format. -/
def loop : Nat → State → Option (Printer × List Nat)
  | 0, _ => none
  | fuel + 1, s =>
    if s.printer.size = 0 then some (s.printer, s.stored)
    else
      match copy s s.fmt s.printer with
      | none => none
      | some (.done p stored) => some (p, stored)
      | some (.next s) => loop fuel s

/-- The characters before the NUL, and the counts of `%n`. Their number is returned. -/
def vsnprintf (size : Word) (fmt : Option (List Byte)) (ap : List Arg) :
    Option (List Byte × List Nat) :=
  match fmt with
  | none => some ((put ("(null fmt string)".toList.map ch) ⟨size - 1, []⟩).2.out, [])
  | some fmt => (loop (fmt.length + 1) ⟨⟨size - 1, []⟩, fmt, ap, 0, []⟩).map
      (fun x => (x.1.out, x.2))

end Vsnprintf

end Cibyl
