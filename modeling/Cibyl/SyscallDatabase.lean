import Cibyl.Library.WordFile

namespace Cibyl.SyscallDatabase
set_option autoImplicit true

open WordFile (Format CString)

/-- The bytes of a literal in the source. -/
def literal (s : String) : List UInt8 := s.toList.map (fun c => UInt8.ofNat c.toNat)

def void : CString := ⟨literal "void", by decide⟩

def int : CString := ⟨literal "int", by decide⟩

def boolean : CString := ⟨literal "boolean", by decide⟩

def throws : CString := ⟨literal "/* Throws */", by decide⟩

def notGenerated : CString := ⟨literal "/* Not generated */", by decide⟩

/-- `none` is the `None` of the Java type of `void`. -/
structure Arg where
  type : CString
  javaType : Option CString
  name : CString
  objectReference : Bool
  deriving DecidableEq, Repr

/-- A function of a syscall header; `none` where the name has no Java class or method in it, and
where there is no qualifier. -/
structure Function where
  nr : Nat
  name : CString
  syscallSet : CString
  javaReturnType : CString
  qualifier : Option CString
  args : List Arg
  javaClass : Option CString
  javaMethod : Option CString
  deriving DecidableEq, Repr

namespace Function

def getNrArgs (fn : Function) : Nat :=
  match fn.args with
  | [arg] => if arg.type = void then 0 else 1
  | args => args.length

/-- The arguments that are written. -/
def entryArgs (fn : Function) : List Arg := if fn.getNrArgs ≠ 0 then fn.args else []

def getQualifier (fn : Function) : CString := fn.qualifier.getD .empty

end Function

def encodeReturnType (item : Function) : Nat :=
  if item.javaReturnType = void then 0
  else if item.javaReturnType = int then 1
  else if item.javaReturnType = boolean then 2
  else 3

def encodeQualifier (item : Function) : Nat :=
  (if item.getQualifier = throws then 1 else 0) |||
    if item.getQualifier = notGenerated then 2 else 0

/-- `strs`, `strtab_offs` and `strtab_by_contents` of the generator. -/
structure StringTable where
  strs : List CString
  offs : Nat
  byContents : List (CString × Nat)

namespace StringTable

def empty : StringTable := ⟨[], 0, []⟩

/-- The bytes of the table in the file. -/
def bytes (t : StringTable) : List UInt8 := t.strs.flatMap CString.terminated

def add (t : StringTable) (s : CString) : StringTable :=
  ⟨t.strs ++ [s], t.offs + s.length + 1, (s, t.offs) :: t.byContents⟩

end StringTable

def addStr (s : Option CString) : StateM StringTable Nat := fun t =>
  let s := s.getD .empty
  match t.byContents.lookup s with
  | some offs => (offs, t)
  | none => (t.offs, t.add s)

def encodeArgumentJavaType (arg : Arg) : StateM StringTable Nat := do
  let offs ← addStr arg.javaType
  let t := if arg.objectReference then 1 else 0
  return (t <<< 24) ||| offs

def encodeArgumentType (arg : Arg) : StateM StringTable Nat := do
  let offs ← addStr (some arg.type)
  return (0 <<< 24) ||| offs

/-- The words of a `cibyl_db_arg_t`. -/
def encodeArg (arg : Arg) : StateM StringTable (List Nat) := do
  let javaType ← encodeArgumentJavaType arg
  let type ← encodeArgumentType arg
  let name ← addStr (some arg.name)
  return [0, javaType, type, name]

def encodeArgs : List Arg → StateM StringTable (List (List Nat))
  | [] => pure []
  | arg :: args => do
    let a ← encodeArg arg
    let as ← encodeArgs args
    return a :: as

/-- The words of a `cibyl_db_entry_t` up to its arguments, with the words of the arguments. -/
def encodeItem (item : Function) : StateM StringTable (List Nat × List (List Nat)) := do
  let name ← addStr (some item.name)
  let javaClass ← addStr item.javaClass
  let javaMethod ← addStr item.javaMethod
  let set ← addStr (some item.syscallSet)
  let returnType ← addStr (some item.javaReturnType)
  let args ← encodeArgs item.entryArgs
  return ([item.nr, encodeReturnType item, item.getNrArgs, encodeQualifier item, name, javaClass,
    javaMethod, set, returnType], args)

def encodeItems : List Function → StateM StringTable (List (List Nat) × List (List Nat))
  | [] => pure ([], [])
  | item :: items => do
    let (s, as) ← encodeItem item
    let (out, args) ← encodeItems items
    return (s :: out, as ++ args)

def addStrs : List CString → StateM StringTable (List Nat)
  | [] => pure []
  | s :: strs => do
    let offs ← addStr (some s)
    let rest ← addStrs strs
    return offs :: rest

/-- The entries with the offsets of their arguments, which take four words each. -/
def writeOut (sz : Nat) : Nat → List Function → List (List Nat) → List Nat
  | arg_count, item :: items, s :: out =>
    s ++ [arg_count, 0] ++ writeOut sz (arg_count + sz * 4 * item.getNrArgs) items out
  | _, _, _ => []

/-- `os.path.abspath` depends on the current directory. -/
structure Generator where
  abspath : CString → CString
  dirs : List CString
  syscallSets : List CString
  functions : List Function

namespace Generator

/-- The rows, the arguments, the directories and the sets, with the string table they share. -/
def encode (g : Generator) :
    StateM StringTable (List (List Nat) × List (List Nat) × List Nat × List Nat) := do
  let (out, args) ← encodeItems g.functions
  let dirs ← addStrs (g.dirs.map g.abspath)
  let sets ← addStrs g.syscallSets
  return (out, args, dirs, sets)

def strtab (g : Generator) : StringTable := (g.encode .empty).2

/-- `SyscallDatabaseGenerator.run`: the file, or `none` where `struct.pack` raises an error. -/
def run (g : Generator) (f : Format) : Option (List UInt8) :=
  let sz := f.size
  let ((out, args, dirs, sets), strtab) := g.encode .empty
  let arg_offs := sz * 6 + sz * g.dirs.length + sz * g.syscallSets.length + sz * 11 * out.length
  let strtab_offs := arg_offs + sz * args.length * 4
  (f.packAll ([0x11b1c1d1, g.dirs.length, g.syscallSets.length, out.length, arg_offs,
    strtab_offs] ++ dirs ++ sets ++ writeOut sz 0 g.functions out ++ args.flatten)).map
    (fun ws => ws ++ strtab.bytes)

end Generator

/-- `cibyl_db_arg_t` after the fix-up. -/
structure DbArg where
  flags : Nat
  javaType : CString
  type : CString
  name : CString
  deriving DecidableEq, Repr

/-- `cibyl_db_entry_t` after the fix-up; its arguments are those `args` points to. -/
structure DbEntry where
  nr : Nat
  returns : Nat
  nrArgs : Nat
  qualifier : Nat
  name : CString
  javaClass : CString
  javaMethod : CString
  set : CString
  returnType : CString
  args : List DbArg
  user : Nat
  deriving DecidableEq, Repr

/-- What the controller has read from its databases. -/
structure Tables where
  syscall_dirs : List CString
  syscall_sets : List CString
  syscall_db_table : CString → Option DbEntry

def Tables.insert (t : Tables) (cur : DbEntry) : Tables :=
  { t with syscall_db_table := fun name =>
      if name = cur.name then some cur else t.syscall_db_table name }

section

variable (f : Format) (data : List UInt8)

def getSyscallFileLong (offset : Nat) : Option Nat := f.readWord data (f.size * offset)

/-- The strings of the directories or sets, whose offsets begin at word `idx`. -/
def readStrings (strtab : Nat) : Nat → Nat → Option (List CString)
  | _, 0 => some []
  | idx, n + 1 => do
    let s ← CString.read data (strtab + (← getSyscallFileLong f data idx))
    let rest ← readStrings strtab (idx + 1) n
    return s :: rest

/-- The fix-up of the argument at `pos`. -/
def readArg (strtab pos : Nat) : Option DbArg := do
  let jt ← f.readWord data (pos + f.size)
  let type ← f.readWord data (pos + f.size + f.size)
  let name ← f.readWord data (pos + f.size + f.size + f.size)
  let jt_offs := jt &&& 0x00ffffff
  let jt_flags := (jt &&& 0xff000000) >>> 24
  return ⟨jt_flags, ← CString.read data (strtab + jt_offs),
    ← CString.read data (strtab + (type &&& 0x00ffffff)), ← CString.read data (strtab + name)⟩

def readArgs (strtab : Nat) : Nat → Nat → Option (List DbArg)
  | _, 0 => some []
  | pos, n + 1 => do
    let arg ← readArg f data strtab pos
    let args ← readArgs strtab (pos + f.size * 4) n
    return arg :: args

/-- The fix-up of the entry at word `idx`. -/
def readEntry (args_start strtab user idx : Nat) : Option DbEntry := do
  let nr ← getSyscallFileLong f data idx
  let returns ← getSyscallFileLong f data (idx + 1)
  let nrArgs ← getSyscallFileLong f data (idx + 2)
  let qualifier ← getSyscallFileLong f data (idx + 3)
  let name ← CString.read data (strtab + (← getSyscallFileLong f data (idx + 4)))
  let javaClass ← CString.read data (strtab + (← getSyscallFileLong f data (idx + 5)))
  let javaMethod ← CString.read data (strtab + (← getSyscallFileLong f data (idx + 6)))
  let set ← CString.read data (strtab + (← getSyscallFileLong f data (idx + 7)))
  let returnType ← CString.read data (strtab + (← getSyscallFileLong f data (idx + 8)))
  let args ← readArgs f data strtab (args_start + (← getSyscallFileLong f data (idx + 9))) nrArgs
  return ⟨nr, returns, nrArgs, qualifier, name, javaClass, javaMethod, set, returnType, args, user⟩

def readEntries (args_start strtab user : Nat) : Nat → Nat → Tables → Option Tables
  | _, 0, t => some t
  | idx, n + 1, t => do
    let cur ← readEntry f data args_start strtab user idx
    readEntries args_start strtab user (idx + 11) n (t.insert cur)

/-- `Controller::readSyscallDatabase`; `none` where it reads behind the end of the file. -/
def readSyscallDatabase (t : Tables) : Option Tables := do
  let n_dirs ← getSyscallFileLong f data 1
  let n_sets ← getSyscallFileLong f data 2
  let n ← getSyscallFileLong f data 3
  let args_start ← getSyscallFileLong f data 4
  let strtab ← getSyscallFileLong f data 5
  let dirs ← readStrings f data strtab 6 n_dirs
  let sets ← readStrings f data strtab (6 + n_dirs) n_sets
  readEntries f data args_start strtab t.syscall_dirs.length (6 + n_dirs + n_sets) n
    { t with syscall_dirs := t.syscall_dirs ++ dirs, syscall_sets := t.syscall_sets ++ sets }

end

end Cibyl.SyscallDatabase
