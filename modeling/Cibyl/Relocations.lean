import Cibyl.CallTable
import Cibyl.DataImage
import Cibyl.UsageSound

namespace Cibyl
set_option autoImplicit true

namespace RelocType

def r32 : Nat := 2

def r26 : Nat := 4

def hi16 : Nat := 5

def lo16 : Nat := 6

end RelocType

inductive SymbolType where
  | sttFunc | sttSection | sttObject
  deriving DecidableEq, Repr

/-- The symbol of a relocation. -/
structure RelocSymbol where
  type : SymbolType
  addr : Word
  deriving DecidableEq, Repr

structure ElfReloc where
  addr : Word
  type : Nat
  sym : Option RelocSymbol
  addend : Word
  deriving DecidableEq, Repr

structure RelSection where
  name : String
  relocs : List ElfReloc
  deriving DecidableEq, Repr

namespace CibylElf

def skipped (scn : RelSection) : Bool :=
  scn.name == ".rel.pdr" || ".rel.debug".toList.isPrefixOf scn.name.toList

/-- The relocations that are read, before they are sorted. -/
def readRelocs (scns : List RelSection) : List ElfReloc :=
  (scns.filter (fun scn => !skipped scn)).flatMap RelSection.relocs

/-- First sort by type, then address. -/
def relocCmp (a b : ElfReloc) : Int :=
  let typeDiff : Int := a.type - b.type
  let addrDiff : Int := (a.addr - b.addr).toInt
  if typeDiff ≠ 0 then typeDiff else addrDiff

/-- What `qsort` may leave of `xs`. -/
def Sorted (cmp : α → α → Int) (xs ys : List α) : Prop :=
  ys.Perm xs ∧ ys.Pairwise (fun a b => cmp a b ≤ 0)

end CibylElf

/-- The big-endian words of a section, without the bytes behind the last one. -/
def ElfSection.words : List Byte → List Word
  | b0 :: b1 :: b2 :: b3 :: data => (b0 ++ b1 ++ b2 ++ b3) :: ElfSection.words data
  | _ => []

/-- What `pass1` of the controller reads: the text section at `base` with its `instructions`, the
methods of each class and the lookup among them, the relocations and the data sections. -/
structure Controller where
  base : Word
  textSize : Word
  classes : List (List JavaMethod)
  findInClass : List JavaMethod → Word → Option Nat
  relocs : List ElfReloc
  scns : List ElfSection

namespace Controller

/-- The call table, and the jump-table labels of the program with the class and the method that
have them. -/
structure Lookups where
  callTable : CallTable
  jumptabLabels : List Word
  methodLabels : List (Word × Nat × Nat)

/-- A label is added once. -/
def addJumptabLabel [BEq α] (labels : List α) (label : α) : List α :=
  if labels.contains label then labels else labels ++ [label]

/-- The part of `lookupDataAddresses` for class number `k`. -/
def lookupInClass (c : Controller) (v : Word) (l : Lookups) (cl : List JavaMethod × Nat) :
    Option Lookups :=
  match (c.findInClass cl.1 v).bind (fun idx => (cl.1[idx]?).map (fun mt => (idx, mt))) with
  | none => some l
  | some (idx, mt) =>
    match mt.getFunctionByAddress v with
    | none => none
    | some fn =>
      some
        { callTable := if fn.address = v then l.callTable.addFunction fn else l.callTable
          jumptabLabels := addJumptabLabel l.jumptabLabels v
          methodLabels := addJumptabLabel l.methodLabels (v, cl.2, idx) }

def textEnd (c : Controller) : Word := c.base + c.textSize

def lookupDataAddress (c : Controller) (l : Lookups) (v : Word) : Option Lookups :=
  if (c.base.toNat ≤ v.toNat ∧ v.toNat < c.textEnd.toNat) ∧ v &&& 3 = 0 then
    c.classes.zipIdx.foldlM (c.lookupInClass v) l
  else some l

def lookupDataAddresses (c : Controller) (l : Lookups) (scn : ElfSection) : Option Lookups :=
  (ElfSection.words scn.data).foldlM c.lookupDataAddress l

def getMethodByAddress (c : Controller) (addr : Word) : Option JavaMethod :=
  c.classes.findSome? (fun cl => (c.findInClass cl addr).bind (fun idx => cl[idx]?))

/-- Add the function at `addr`; `none` where the method there has no function for it. -/
def addFunctionAt (c : Controller) (t : CallTable) (addr : Word) : Option CallTable :=
  match c.getMethodByAddress addr with
  | none => some t
  | some mt =>
    match mt.getFunctionByAddress addr with
    | none => none
    | some fn => some (if fn.address = addr then t.addFunction fn else t)

def lookupRelocation (c : Controller) (t : CallTable) (rel : ElfReloc) : Option CallTable :=
  match rel.sym with
  | none => some t
  | some sym =>
    if sym.type = .sttFunc ∧ rel.type ≠ RelocType.r26 then c.addFunctionAt t sym.addr
    else if sym.type = .sttSection ∧ rel.type = RelocType.r32 then c.addFunctionAt t rel.addend
    else some t

/-- The first and last index of a range that is widened; `none` while it is empty. -/
def extend (limit : Option (Nat × Nat)) (i : Nat) : Option (Nat × Nat) :=
  match limit with
  | none => some (i, i)
  | some (first, last) => some (if first > i then i else first, if last < i then i else last)

/-- The relocations of a type in method `idx` of a class, as a range of indices. -/
def limits (c : Controller) (cl : List JavaMethod) (type idx : Nat) : Option (Nat × Nat) :=
  c.relocs.zipIdx.foldl (fun limit rel =>
    if rel.1.type = type ∧ c.findInClass cl rel.1.addr = some idx then extend limit rel.2
    else limit) none

def getInstructionByAddress (c : Controller) (instructions : List Entry) (address : Word) :
    Option Entry :=
  if address.toNat < c.base.toNat ∨ address.toNat > c.textEnd.toNat then none
  else instructions[(address - c.base).toNat / 4]?

/-- The instruction of a relocation, out of a delay slot where it is in one. -/
def relocatedInsn (c : Controller) (instructions : List Entry) (address : Word) :
    Option Instruction :=
  match c.getInstructionByAddress instructions address with
  | none => none
  | some e =>
    if e.insn.kind = .delaySlotNop then
      (c.getInstructionByAddress instructions (address - 4)).bind Entry.delayed
    else some e.insn

/-- The address that a pair makes. -/
def pairAddress (a b : Instruction) : Word :=
  let addr := a.extra <<< 16
  match b.opcode with
  | .sw | .sb | .sh | .lb | .lbu | .lh | .lhu | .lw | .lwl | .swl | .lwr | .swr | .addi | .addiu =>
    addr + b.extra
  | .ori => addr ||| b.extra
  | .xori => addr ^^^ b.extra
  | .andi => addr &&& b.extra
  | _ => addr

def addPair (c : Controller) (instructions : List Entry) (a : Instruction) (t : CallTable)
    (l : Nat) : Option CallTable :=
  match (c.relocs[l]?).bind (fun rel => c.relocatedInsn instructions rel.addr) with
  | none => none
  | some b =>
    let addr := pairAddress a b
    if addr &&& 3 ≠ 0 then some t
    else
      match c.getMethodByAddress addr with
      | none => some t
      | some mt => (mt.getFunctionByAddress addr).map t.addFunction

/-- The numbers from `first` to `last`. -/
def indices (limit : Nat × Nat) : List Nat := List.range' limit.1 (limit.2 + 1 - limit.1)

def addPairs (c : Controller) (instructions : List Entry) (lo : Nat × Nat) (t : CallTable)
    (h : Nat) : Option CallTable :=
  match (c.relocs[h]?).bind (fun rel => c.relocatedInsn instructions rel.addr) with
  | none => none
  | some a => (indices lo).foldlM (c.addPair instructions a) t

/-- All hi/lo pairs of method `idx`. -/
def lookupPairs (c : Controller) (instructions : List Entry) (cl : List JavaMethod)
    (t : CallTable) (idx : Nat) : Option CallTable :=
  match c.limits cl RelocType.hi16 idx, c.limits cl RelocType.lo16 idx with
  | some hi, some lo => (indices hi).foldlM (c.addPairs instructions lo) t
  | _, _ => some t

def lookupRelocations (c : Controller) (instructions : List Entry) (t : CallTable)
    (cl : List JavaMethod) : Option CallTable :=
  (c.relocs.foldlM c.lookupRelocation t).bind (fun t =>
    (List.range cl.length).foldlM (c.lookupPairs instructions cl) t)

/-- The instruction array once `pass1` of a function has stored its slots. -/
def storePass1 (c : Controller) (env : Env) (instructions : List Entry) (fn : Function) :
    List Entry :=
  let first := (fn.address - c.base).toNat / 4
  instructions.take first ++ fn.pass1 env ++ instructions.drop (first + (fn.pass1 env).length)

/-- A class: its relocations, then `pass1` of its methods. -/
def classPass1 (c : Controller) (env : Env) (s : CallTable × List Entry) (cl : List JavaMethod) :
    Option (CallTable × List Entry) :=
  (c.lookupRelocations s.2 s.1 cl).map (fun t =>
    (t, (cl.flatMap JavaMethod.functions).foldl (c.storePass1 env) s.2))

/-- The call table after `pass1`, with what `pass0` has put in `t`; `none` is a panic. -/
def pass1 (c : Controller) (env : Env) (instructions : List Entry) (t : CallTable) :
    Option CallTable :=
  (c.scns.foldlM c.lookupDataAddresses ⟨t, [], []⟩).bind (fun l =>
    (c.classes.foldlM (c.classPass1 env) (l.callTable, instructions)).map Prod.fst)

end Controller

end Cibyl
