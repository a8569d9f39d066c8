import Cibyl.Instruction
import Mathlib.Data.List.Chain

namespace Cibyl
set_option autoImplicit true

structure Config where
  traceStart : Word := 0
  traceEnd : Word := 0
  traceStores : Bool := false
  threadSafe : Bool := false
  optimizeInlines : Bool := true
  optimizePartialMemoryOps : Bool := false
  optimizePruneStackStores : Bool := false
  optimizeFunctionReturnArguments : Bool := false
  classSizeLimit : Nat := 16384
  callTableHierarchy : Nat := 1
  callTableClasses : Nat := 1
  packageName : Option String := none

/-- A slot of the instruction array: the instruction and, for a branch, the delay-slot instruction
attached to it. -/
structure Entry where
  insn : Instruction
  delayed : Option Instruction
  attached : delayed.isSome = true → insn.hasDelaySlot = true
  deriving DecidableEq, Repr

namespace Entry

def single (insn : Instruction) : Entry := ⟨insn, none, nofun⟩

def bytecodeSize (e : Entry) : Nat :=
  e.insn.kind.bytecodeSize + (e.delayed.map (fun d => d.kind.bytecodeSize)).getD 0

end Entry

/-- The loop of `pass0` over the decoded text section: an instruction after one with a delay slot
is attached to it and leaves a nop behind. -/
def attachDelaySlots : List Instruction → List Entry
  | [] => []
  | insn :: insns =>
    if h : insn.hasDelaySlot = true then
      match insns with
      | [] => [.single insn]
      | d :: insns =>
        ⟨insn, some d, fun _ => h⟩ :: .single (InstructionFactory.createDelaySlotNop d.address) ::
          attachDelaySlots insns
    else .single insn :: attachDelaySlots insns

inductive BbType where
  | prologue | normal | epilogue
  deriving DecidableEq, Repr

structure BasicBlock where
  type : BbType
  insns : List Entry
  deriving DecidableEq, Repr

namespace BasicBlock

def size (bb : BasicBlock) : Nat := bb.insns.length * 4

def bytecodeSize (bb : BasicBlock) : Nat := (bb.insns.map Entry.bytecodeSize).sum

end BasicBlock

/-- The opcodes `markOpcodeUsed` is called with for one slot. -/
def Entry.usedOpcodes (e : Entry) : List Opcode :=
  e.insn.opcode :: if e.insn.hasDelaySlot then (e.delayed.map Instruction.opcode).toList else []

/-- The instruction of the slot and the one in its delay slot. -/
def Entry.insns (e : Entry) : List Instruction := e.insn :: e.delayed.toList

theorem Entry.opcode_mem_usedOpcodes {e : Entry} {i : Instruction} (h : i ∈ e.insns) :
    i.opcode ∈ e.usedOpcodes := by
  rcases List.mem_cons.mp h with rfl | h
  · exact List.mem_cons_self ..
  · have hd := e.attached (Option.isSome_of_mem (Option.mem_toList.mp h))
    rw [usedOpcodes, if_pos hd, Option.mem_toList.mp h]
    exact List.mem_cons_of_mem _ (List.mem_singleton_self _)

structure Function where
  realName : String
  isStart : Bool
  address : Word
  bbs : List BasicBlock
  usedInsns : List Opcode
  registerIndirectJumps : Bool
  used : ∀ bb ∈ bbs, ∀ e ∈ bb.insns, ∀ op ∈ e.usedOpcodes, op ≠ .none → op ∈ usedInsns
  deriving DecidableEq, Repr

namespace Function

/-- Dots become underscores and the address is added, so that names are unique. -/
def name (fn : Function) : String :=
  if fn.isStart then "start"
  else (fn.realName.map (fun c => if c = '.' then '_' else c)) ++ "_" ++
    String.ofList (Nat.toDigits 16 fn.address.toNat)

def size (fn : Function) : Nat := (fn.bbs.map BasicBlock.size).sum

def bytecodeSize (fn : Function) : Nat := (fn.bbs.map BasicBlock.bytecodeSize).sum

def opcodeIsUsed (fn : Function) (op : Opcode) : Bool := fn.usedInsns.contains op

def entries (fn : Function) : List Entry := fn.bbs.flatMap BasicBlock.insns

/-- `addr` lies in the inclusive range that address lookups compare with. -/
def covers (fn : Function) (addr : Word) : Bool :=
  fn.address.toNat ≤ addr.toNat && addr.toNat ≤ fn.address.toNat + fn.size

end Function

/-- What `pass0` leaves in the slot of a delay-slot instruction. -/
def Entry.IsDelaySlotNop (e : Entry) : Prop := e.insn.kind = .delaySlotNop ∧ e.insn.opcode = .none

/-- The slot after a branch is the nop that its delay-slot instruction left behind. -/
def Attached (es : List Entry) : Prop :=
  es.IsChain (fun e d => e.insn.isBranch = true → d.IsDelaySlotNop)

theorem attachDelaySlots_attached (insns : List Instruction) :
    Attached (attachDelaySlots insns) := by
  fun_induction attachDelaySlots insns with
  | case1 => exact .nil
  | case2 insn h => exact .singleton _
  | case3 insn h d insns ih =>
    refine .cons_cons (fun _ => ⟨rfl, rfl⟩) (List.isChain_cons.mpr ⟨?_, ih⟩)
    intro e he hb
    cases hb
  | case4 insn insns h ih =>
    refine List.isChain_cons.mpr ⟨?_, ih⟩
    intro e he hb
    exact absurd hb h

/-- The basic-block loop of the `Function` constructor: `cur` are the slots since `first`. -/
def splitBlocks (address : Word) : BbType → List Entry → List Entry → List BasicBlock
  | _, cur, [] => if cur.isEmpty then [] else [⟨.normal, cur⟩]
  | type, cur, e :: es =>
    let type := if e.insn.isReturnJump then .epilogue else type
    if e.insn.isBranch && e.insn.address != address then
      match es with
      | [] => [⟨type, cur ++ [e]⟩]
      | d :: es => ⟨type, cur ++ [e, d]⟩ :: splitBlocks address .normal [] es
    else splitBlocks address type (cur ++ [e]) es

/-- The slots that loop looks at: not the one after a branch that ends a block. -/
def scanned (address : Word) : List Entry → List Entry
  | [] => []
  | e :: es =>
    if e.insn.isBranch && e.insn.address != address then
      match es with
      | [] => [e]
      | _ :: es => e :: scanned address es
    else e :: scanned address es

theorem mem_splitBlocks (ha : Attached es) (hb : bb ∈ splitBlocks address type cur es)
    (he : e ∈ bb.insns) : e ∈ cur ∨ e ∈ scanned address es ∨ e.IsDelaySlotNop := by
  fun_induction splitBlocks address type cur es with
  | case1 type cur h => cases hb
  | case2 type cur h =>
    cases List.mem_singleton.mp hb
    exact .inl he
  | case3 type cur e' _ h =>
    cases List.mem_singleton.mp hb
    rcases List.mem_append.mp he with he | he
    · exact .inl he
    · refine .inr (.inl ?_)
      rw [scanned, if_pos h]
      exact he
  | case4 type cur e' _ h d es ih =>
    obtain ⟨hd, ht⟩ := List.isChain_cons_cons.mp ha
    have hs : scanned address (e' :: d :: es) = e' :: scanned address es := by
      rw [scanned, if_pos h]
    rcases List.mem_cons.mp hb with rfl | hb
    · rcases List.mem_append.mp he with he | he
      · exact .inl he
      · rcases List.mem_cons.mp he with rfl | he
        · exact .inr (.inl (hs ▸ List.mem_cons_self ..))
        · cases List.mem_singleton.mp he
          rw [Bool.and_eq_true] at h
          exact .inr (.inr (hd h.1))
    · rcases ih ht.tail hb with hc | hc | hc
      · cases hc
      · exact .inr (.inl (hs ▸ List.mem_cons_of_mem _ hc))
      · exact .inr (.inr hc)
  | case5 type cur e' es _ h ih =>
    have hs : scanned address (e' :: es) = e' :: scanned address es := by
      rw [scanned.eq_def]
      exact if_neg h
    rcases ih ha.tail hb with hc | hc | hc
    · rcases List.mem_append.mp hc with hc | hc
      · exact .inl hc
      · cases List.mem_singleton.mp hc
        exact .inr (.inl (hs ▸ List.mem_cons_self ..))
    · exact .inr (.inl (hs ▸ List.mem_cons_of_mem _ hc))
    · exact .inr (.inr hc)

/-- The `Function` constructor on the slots `first_insn .. last_insn - 1`. -/
def Function.create (realName : String) (isStart : Bool) (e : Entry) (es : List Entry)
    (ha : Attached (e :: es)) : Function where
  realName := realName
  isStart := isStart
  address := e.insn.address
  bbs := splitBlocks e.insn.address .prologue [] (e :: es)
  usedInsns := (scanned e.insn.address (e :: es)).flatMap Entry.usedOpcodes
  registerIndirectJumps :=
    (scanned e.insn.address (e :: es)).any (fun e => e.insn.isRegisterIndirectJump)
  used := by
    intro bb hb d hd op hop hne
    rcases mem_splitBlocks ha hb hd with hc | hc | ⟨hk, ho⟩
    · cases hc
    · exact List.mem_flatMap.mpr ⟨d, hc, hop⟩
    · rw [Entry.usedOpcodes, Instruction.hasDelaySlot, Instruction.isBranch, hk, ho] at hop
      exact absurd (List.mem_singleton.mp hop) hne

structure JavaMethod where
  functions : List Function
  nonempty : functions ≠ []
  deriving DecidableEq, Repr

namespace JavaMethod

def hasMultipleFunctions (m : JavaMethod) : Bool := m.functions.length > 1

def name (m : JavaMethod) : String := (m.functions.head m.nonempty).name

/-- The comment in the source says the lowest address; the loop keeps the highest. -/
def address (m : JavaMethod) : Word :=
  m.functions.foldl (fun a fn => if fn.address.toNat > a.toNat then fn.address else a) 0

def size (m : JavaMethod) : Nat := (m.functions.map Function.size).sum

def bytecodeSize (m : JavaMethod) : Nat := (m.functions.map Function.bytecodeSize).sum

def opcodeIsUsed (m : JavaMethod) (op : Opcode) : Bool :=
  m.functions.any (fun fn => fn.opcodeIsUsed op)

def getFunctionByAddress (m : JavaMethod) (addr : Word) : Option Function :=
  m.functions.find? (fun fn => fn.covers addr)

def getFunctionIndexByAddress (m : JavaMethod) (addr : Word) : Option Nat :=
  m.functions.findIdx? (fun fn => fn.covers addr)

end JavaMethod

/-- The prototype found for a symbol; `none` is -1, a variable or unknown value. -/
structure ElfSymbol where
  nArgs : Option Nat
  retSize : Option Nat
  deriving DecidableEq, Repr

structure Syscall where
  name : String
  nrArguments : Nat
  returnsValue : Bool
  deriving DecidableEq, Repr

/-- What the passes read from the configuration, the controller and the ELF file. -/
structure Env where
  config : Config
  getMethodByAddress : Word → Option JavaMethod
  getSymbolByAddr : Word → Option ElfSymbol
  getSyscall : Word → Syscall
  getBranchTarget : Word → Bool
  isBranchTarget : Word → Bool
  hasJumptabLabel : Word → Bool
  jumptabLabels : JavaMethod → List Word
  exceptionClasses : Word → List String
  tryInstruction : Word → Word
  getClassByMethodName : String → String

namespace Env

/-- The package name with slashes, and a last one after it. -/
def jasminPackagePath (env : Env) : String :=
  match env.config.packageName with
  | none => ""
  | some name => name.map (fun c => if c = '.' then '/' else c) ++ "/"

end Env

/-- A method of one instruction. -/
def JavaMethod.ofInsn (insn : Instruction) : JavaMethod :=
  ⟨[Function.create "f" false (.single insn) [] (.singleton _)], List.cons_ne_nil _ _⟩

/-- A program of one method. -/
def Env.single (config : Config) (m : JavaMethod) : Env where
  config := config
  getMethodByAddress _ := some m
  getSymbolByAddr _ := none
  getSyscall _ := ⟨"", 0, false⟩
  getBranchTarget _ := false
  isBranchTarget _ := false
  hasJumptabLabel _ := false
  jumptabLabels _ := []
  exceptionClasses _ := []
  tryInstruction _ := 0
  getClassByMethodName _ := "Cibyl"

end Cibyl
