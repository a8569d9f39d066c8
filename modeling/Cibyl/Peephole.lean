import Cibyl.Pass2

namespace Cibyl
set_option autoImplicit true

open Jvm (Item Op Label Cond1 Cond2 External)

namespace Peephole

/-- A line of a method body. A switch takes several, with the default on the last one. -/
inductive Line where
  | item (i : Item)
  | row (l : Label)
  | default (l : Label)
  deriving DecidableEq, Repr

def lines : Item → List Line
  | .tableswitch ts d => .item (.tableswitch ts d) :: (ts.map .row ++ [.default d])
  | .lookupswitch cs d => .item (.lookupswitch cs d) :: (cs.map (fun c => .row c.2) ++ [.default d])
  | i => [.item i]

/-- What `sourceLocal` and `targetLocal` name. -/
inductive Place where
  | local_ (n : Nat)
  | saved_v1
  deriving DecidableEq, Repr

/-- The objects of `classes.py`. A line of text that no class stands for is a `base`. The objects
that keep their line have the item or the operation of it. -/
inductive Piece where
  | base (line : Line)
  | label (name : Label)
  | defaultLabel (line : Label)
  | nop
  | instruction (i : Item)
  | ireturn
  | dup | pop | swap | pop2
  | const (value : Int) (line : Op)
  | iinc (variable_ : Nat) (value : Int)
  | istore (n : Nat) | iload (n : Nat) | aload (n : Nat) | astore (n : Nat)
  | getstatic | putstatic
  | arithmeticInstructionPopTwo (o : Op) | arithmeticInstructionPopOne (o : Op)
  | conditionalBranchOne (c : Cond1) (target : Label)
  | conditionalBranchTwo (c : Cond2) (target : Label)
  | invokestatic (o : Op)
  | goto (target : Label)
  deriving DecidableEq, Repr

/-- The classes that the templates ask for. -/
inductive Class where
  | label | instruction | pushInstruction | popInstruction | ireturn | dup | pop | pop2 | const
  | iinc | istore | iload | aload | getstatic | putstatic | invokestatic | goto
  deriving DecidableEq, Repr

namespace Piece

def isNop : Piece → Bool
  | base _ | nop => true
  | _ => false

/-- An `Astore` is an `Istore` and a push, and an `Aload` is an `Iload`. -/
def isInstance : Piece → Class → Bool
  | base _, _ => false
  | label _, c | defaultLabel _, c => c == .label
  | nop, c | instruction _, c | swap, c | arithmeticInstructionPopOne _, c => c == .instruction
  | iinc .., c => c == .instruction || c == .iinc
  | ireturn, c => c == .instruction || c == .popInstruction || c == .ireturn
  | dup, c => c == .instruction || c == .pushInstruction || c == .dup
  | pop, c => c == .instruction || c == .popInstruction || c == .pop
  | pop2, c => c == .instruction || c == .popInstruction || c == .pop2
  | const .., c => c == .instruction || c == .pushInstruction || c == .const
  | istore _, c => c == .instruction || c == .popInstruction || c == .istore
  | astore _, c =>
    c == .instruction || c == .popInstruction || c == .istore || c == .pushInstruction
  | iload _, c => c == .instruction || c == .pushInstruction || c == .iload
  | aload _, c => c == .instruction || c == .pushInstruction || c == .iload || c == .aload
  | getstatic, c => c == .instruction || c == .pushInstruction || c == .getstatic
  | putstatic, c => c == .instruction || c == .popInstruction || c == .putstatic
  | arithmeticInstructionPopTwo _, c | conditionalBranchOne .., c | conditionalBranchTwo .., c =>
    c == .instruction || c == .popInstruction
  | invokestatic _, c => c == .instruction || c == .popInstruction || c == .invokestatic
  | goto _, c => c == .instruction || c == .popInstruction || c == .goto

def sourceLocal : Piece → Option Place
  | iinc n _ | iload n | aload n => some (.local_ n)
  | getstatic => some .saved_v1
  | _ => none

def targetLocal : Piece → Option Place
  | iinc n _ | istore n | astore n => some (.local_ n)
  | putstatic => some .saved_v1
  | _ => none

/-- The label that a `BranchInstruction` goes to. That of a call is a class. -/
def target? : Piece → Option Label
  | conditionalBranchOne _ l | conditionalBranchTwo _ l | goto l => some l
  | _ => none

def isBranchInstruction : Piece → Bool
  | conditionalBranchOne .. | conditionalBranchTwo .. | goto _ | invokestatic _ => true
  | _ => false

/-- `line.startswith(".catch")`. -/
def isCatch : Piece → Bool
  | base (.item (.catch_ ..)) => true
  | _ => false

end Piece

/-- The operations without a static call. -/
def plainExternals : List String :=
  ["CRunTime/objectRepository", "aaload", "checkcast java/lang/Throwable", "i2f", "f2i", "ldc",
    "SetjmpException/getCookie", "SetjmpException/getValue", "fmul", "fcmpg", "fcmpl"]

/-- `matchInstruction`, where `path` is the package path that the translator has put before
`CRunTime`. In the list of operations that pop two, `lrem` and `fmul` stand in one string. -/
def matchInstruction (path : String) : Op → Piece
  | .iconst n => .const n (.iconst n)
  | .bipush n => .const n (.bipush n)
  | .sipush n => .const n (.sipush n)
  | .ldc n => .const n (.ldc n)
  | .iinc n extra => .iinc n extra
  | .istore n => .istore n
  | .astore n => .astore n
  | .iload n => .iload n
  | .aload n => .aload n
  | .getSavedV1 => if path = "" then .getstatic else .instruction (.op .getSavedV1)
  | .putSavedV1 => if path = "" then .putstatic else .instruction (.op .putSavedV1)
  | .multu => .invokestatic .multu
  | .divu => .invokestatic .divu
  | .memoryRead what => .invokestatic (.memoryRead what)
  | .memoryWrite what => .invokestatic (.memoryWrite what)
  | .memoryWritePc what => .invokestatic (.memoryWritePc what)
  | .intOp o => .arithmeticInstructionPopTwo (.intOp o)
  | .intUn .ineg => .arithmeticInstructionPopOne (.intUn .ineg)
  | .longOp .lmul => .arithmeticInstructionPopTwo (.longOp .lmul)
  | .longOp .ldiv => .arithmeticInstructionPopTwo (.longOp .ldiv)
  | .external e =>
    if e.name ∈ ["fdiv", "fadd", "fsub"] then .arithmeticInstructionPopTwo (.external e)
    else if e.name = "fneg" then .arithmeticInstructionPopOne (.external e)
    else if e.name ∈ plainExternals then .instruction (.op (.external e))
    else .invokestatic (.external e)
  | o => .instruction (.op o)

/-- A line in `readFile`. The default of a switch reads as a label of the name `default`, and the
rows above it as no instruction. -/
def read (path : String) : Line → Piece
  | .item (.label l) => .label l
  | .item (.goto l) => .goto l
  | .item (.cond1 c l) => .conditionalBranchOne c l
  | .item (.cond2 c l) => .conditionalBranchTwo c l
  | .item (.op o) => matchInstruction path o
  | .item .ireturn => .ireturn
  | .item (.catch_ c start stop h) => .base (.item (.catch_ c start stop h))
  | .item .abort => .base (.item .abort)
  | .item i => .instruction i
  | .row l => .base (.row l)
  | .default l => .defaultLabel l

def readItem (path : String) (i : Item) : List Piece := (lines i).map (read path)

/-- The contents of the `Function` of a method body. -/
def readFile (path : String) (body : List Item) : List Piece := body.flatMap (readItem path)

/-- An integer that `int` cannot read, an index behind the end of a list, or what else a template
raises. -/
inductive PyError where
  | valueError
  | indexError
  | other (name : String)
  deriving DecidableEq, Repr

/-- What the loop of `apply` asks of the items. -/
class Matchable (α : Type) (κ : outParam Type) where
  isNop : α → Bool
  isInstance : α → κ → Bool

instance : Matchable Piece Class := ⟨Piece.isNop, Piece.isInstance⟩

open Matchable (isNop isInstance)

structure Template (α κ : Type) where
  classes : List κ
  accepts : List α → List α → Except PyError Bool
  execute : List α → List α → Except PyError (List α)

/-- The variables of the loop in `apply`. -/
structure Scan (α : Type) where
  contents : List α
  matching : Nat
  first : Nat
  cur : Nat
  applied : Nat
  deriving DecidableEq, Repr

section

variable {α κ : Type} [Matchable α κ]

/-- The items that are no nops. -/
def solid (ps : List α) : List α := ps.filter (fun p => !isNop p)

/-- Put the replacement in the places of the items that are no nops. -/
def replace : List α → List α → List α
  | [], _ => []
  | p :: ps, rs =>
    if isNop p then p :: replace ps rs
    else
      match rs with
      | r :: rs => r :: replace ps rs
      | [] => p :: replace ps []

section

variable {p r : α} {ps rs : List α}

theorem solid_nop (h : isNop p = true) : solid (p :: ps) = solid ps :=
  List.filter_cons_of_neg (by rw [h]; exact nofun)

theorem solid_item (h : isNop p = false) : solid (p :: ps) = p :: solid ps :=
  List.filter_cons_of_pos (by rw [h]; rfl)

theorem replace_nop (h : isNop p = true) : replace (p :: ps) rs = p :: replace ps rs := if_pos h

theorem replace_item (h : isNop p = false) : replace (p :: ps) (r :: rs) = r :: replace ps rs :=
  if_neg (by rw [h]; exact Bool.false_ne_true)

end

namespace Scan

def start (contents : List α) : Scan α := ⟨contents, 0, 0, 0, 0⟩

def window (s : Scan α) (first : Nat) : List α := (s.contents.take (s.cur + 1)).drop first

/-- The items to check. -/
def test (s : Scan α) (first : Nat) : List α := solid (s.window first)

def replaced (s : Scan α) (first : Nat) (rs : List α) : List α :=
  s.contents.take first ++ replace (s.window first) rs ++ s.contents.drop (s.cur + 1)

end Scan

namespace Template

/-- What follows a window of all classes. A replacement that is too short is an `IndexError`. -/
def check (t : Template α κ) (s : Scan α) (first : Nat) : Except PyError (Scan α) :=
  match t.accepts s.contents (s.test first) with
  | .error e => .error e
  | .ok true =>
    match t.execute s.contents (s.test first) with
    | .error e => .error e
    | .ok replacement =>
      if replacement.length < (s.test first).length then .error .indexError
      else .ok ⟨s.replaced first replacement, 0, first, first + 1, s.applied + 1⟩
  | .ok false => .ok { s with matching := 0, first := first, cur := first + 1 }

/-- The body of the loop for the item at `cur`. Without a class to match, that is an
`IndexError`. -/
def turn (t : Template α κ) (s : Scan α) (item : α) : Except PyError (Scan α) :=
  if isNop item then .ok { s with cur := s.cur + 1 }
  else
    match t.classes[s.matching]? with
    | none => .error .indexError
    | some c =>
      if isInstance item c then
        let first := if s.matching = 0 then s.cur else s.first
        if s.matching + 1 = t.classes.length then t.check s first
        else .ok { s with matching := s.matching + 1, first := first, cur := s.cur + 1 }
      else if 0 < s.matching then .ok { s with matching := 0, cur := s.first + 1 }
      else .ok { s with cur := s.cur + 1 }

section

variable {t : Template α κ} {s : Scan α} {item : α} {c : κ}

theorem turn_nop (h : isNop item = true) :
    t.turn s item = .ok { s with cur := s.cur + 1 } := if_pos h

theorem turn_mismatch (h : isNop item = false) (hc : t.classes[s.matching]? = some c)
    (hi : isInstance item c = false) : t.turn s item =
      .ok (if 0 < s.matching then { s with matching := 0, cur := s.first + 1 }
        else { s with cur := s.cur + 1 }) := by
  rw [turn, if_neg (by rw [h]; exact Bool.false_ne_true), hc]
  dsimp only
  rw [if_neg (by rw [hi]; exact Bool.false_ne_true)]
  split <;> rfl

theorem turn_match (h : isNop item = false) (hc : t.classes[s.matching]? = some c)
    (hi : isInstance item c = true) : t.turn s item =
      if s.matching + 1 = t.classes.length then t.check s
        (if s.matching = 0 then s.cur else s.first)
      else .ok ⟨s.contents, s.matching + 1, if s.matching = 0 then s.cur else s.first, s.cur + 1,
        s.applied⟩ := by
  rw [turn, if_neg (by rw [h]; exact Bool.false_ne_true), hc]
  exact if_pos hi

end

def loop (t : Template α κ) : Nat → Scan α → Except PyError (Scan α)
  | 0, s => .ok s
  | fuel + 1, s =>
    match s.contents[s.cur]? with
    | none => .ok s
    | some item =>
      match t.turn s item with
      | .error e => .error e
      | .ok s' => t.loop fuel s'

/-- The turns that the loop over `n` items can take. -/
def fuel (n : Nat) : Nat := (n + 1) * (n + 1)

def apply (t : Template α κ) (contents : List α) : Except PyError (Scan α) :=
  t.loop (fuel contents.length) (.start contents)

end Template

end

end Peephole

/-- The contents of the method that the optimizer reads. -/
def JavaMethod.contents (env : Env) (m : JavaMethod) : List Peephole.Piece :=
  Peephole.readFile env.jasminPackagePath (m.pass2 env)

end Cibyl
