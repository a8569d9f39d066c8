import Cibyl.Instructions

namespace Cibyl
set_option autoImplicit true

open Jvm (LongOp LongShift External)
open Emit (op pushconst)

inductive FloatOp where
  | fneg | fadd | fsub | fdiv | fmul | fcmpg | fcmpl
  deriving DecidableEq, Repr

/-- The class of a builtin that stands for a call, with its bytecode operation. -/
inductive Builtin where
  | try_ | throw_ | setjmp
  | arithmetic1 (bc : FloatOp) | arithmetic2 (bc : FloatOp) | compare (bc : FloatOp)
  | intToFloat | floatToInt
  | mulDiv (bc : LongOp) | shift (bc : LongShift)
  deriving DecidableEq, Repr

def FloatOp.external : FloatOp → External
  | .fneg => ⟨"fneg", [.float], some .float⟩
  | .fadd => ⟨"fadd", [.float, .float], some .float⟩
  | .fsub => ⟨"fsub", [.float, .float], some .float⟩
  | .fdiv => ⟨"fdiv", [.float, .float], some .float⟩
  | .fmul => ⟨"fmul", [.float, .float], some .float⟩
  | .fcmpg => ⟨"fcmpg", [.float, .float], some .int⟩
  | .fcmpl => ⟨"fcmpl", [.float, .float], some .int⟩

namespace Builtin

/-- Only the first part of the name is compared. -/
def cmp (name key : String) : Bool := key.toList.isPrefixOf name.toList

def builtins : List (String × Builtin) :=
  [("__NOPH_try", .try_), ("__NOPH_throw", .throw_), ("__NOPH_setjmp", .setjmp),
   ("__floatsisf", .intToFloat), ("__fixsfsi", .floatToInt), ("__fixsfdi", .floatToInt),
   ("__divdi3", .mulDiv .ldiv), ("__moddi3", .mulDiv .lrem),
   ("__ashrdi3", .shift .lshr), ("__ashldi3", .shift .lshl)]

/-- Those used only in methods that are not too large. -/
def inlineBuiltins : List (String × Builtin) :=
  [("__negsf2", .arithmetic1 .fneg),
   ("__addsf3", .arithmetic2 .fadd), ("__subsf3", .arithmetic2 .fsub),
   ("__divsf3", .arithmetic2 .fdiv), ("__mulsf3", .arithmetic2 .fmul),
   ("__eqsf2", .compare .fcmpg), ("__nesf2", .compare .fcmpg),
   ("__lesf2", .compare .fcmpg), ("__ltsf2", .compare .fcmpl)]

def lookup (table : List (String × Builtin)) (name : String) : Option Builtin :=
  (table.find? (fun p => cmp name p.1)).map Prod.snd

/-- `BuiltinFactory::match`. -/
def matchName (inlines : Bool) (name : String) : Option Builtin :=
  match lookup builtins name with
  | some b => some b
  | none => if inlines then lookup inlineBuiltins name else none

def fillSources : Builtin → List Reg
  | .try_ | .arithmetic2 _ | .compare _ => [Reg.a0, Reg.a1]
  | .throw_ | .setjmp => []
  | .arithmetic1 _ | .intToFloat | .floatToInt => [Reg.a0]
  | .mulDiv _ | .shift _ => [Reg.a0, Reg.a1, Reg.a2, Reg.a3]

def fillDestinations : Builtin → List Reg
  | .try_ => [Reg.ear, Reg.ecb]
  | .throw_ | .setjmp => []
  | .arithmetic1 _ | .arithmetic2 _ | .compare _ | .intToFloat | .floatToInt => [Reg.v0]
  | .mulDiv _ | .shift _ => [Reg.v0, Reg.v1]

def intBitsToFloat : Bc := op (.external ⟨"java/lang/Float/intBitsToFloat", [.int], some .float⟩)

def floatToIntBits : Bc := op (.external ⟨"java/lang/Float/floatToIntBits", [.float], some .int⟩)

def push64BitFrom32BitRegs (r1 r2 : Reg) : List Bc :=
  [.pushregister r1, op .i2l, .pushregister r2, op .i2l, pushconst 32, op (.longShift .lshl),
    op (.longOp .lor)]

/-- `pass2` of a builtin called at `target` in a method that spans `start` to `stop`. -/
def code (start stop target : Word) : Builtin → List Bc
  | .try_ =>
    [.pushregister Reg.a0, .popregister Reg.ecb, .pushregister Reg.a1, .popregister Reg.ear]
  | .throw_ =>
    [op (.external ⟨"CRunTime/objectRepository", [], some .ref⟩), .pushregister Reg.a0,
      op (.external ⟨"aaload", [.ref, .int], some .ref⟩),
      op (.external ⟨"checkcast java/lang/Throwable", [.ref], some .ref⟩), .item .athrow]
  | .setjmp =>
    [.item (.catch_ "SetjmpException" .javamethodBegin .exceptionHandlers (.handler start stop)),
      pushconst 0, .popregister Reg.v0, .item (.label (.addr target))]
  | .arithmetic1 bc =>
    [.pushregister Reg.a0, intBitsToFloat, op (.external bc.external), floatToIntBits,
      .popregister Reg.v0]
  | .arithmetic2 bc =>
    [.pushregister Reg.a0, intBitsToFloat, .pushregister Reg.a1, intBitsToFloat,
      op (.external bc.external), floatToIntBits, .popregister Reg.v0]
  | .compare bc =>
    [.pushregister Reg.a0, intBitsToFloat, .pushregister Reg.a1, intBitsToFloat,
      op (.external bc.external), .popregister Reg.v0]
  | .intToFloat =>
    [.pushregister Reg.a0, op (.external ⟨"i2f", [.int], some .float⟩), floatToIntBits,
      .popregister Reg.v0]
  | .floatToInt =>
    [.pushregister Reg.a0, intBitsToFloat, op (.external ⟨"f2i", [.float], some .int⟩),
      .popregister Reg.v0]
  | .mulDiv bc =>
    push64BitFrom32BitRegs Reg.a1 Reg.a0 ++ push64BitFrom32BitRegs Reg.a3 Reg.a2 ++
      [op (.longOp bc)] ++ Instruction.splitLong Reg.v0 Reg.v1
  | .shift bc =>
    push64BitFrom32BitRegs Reg.a1 Reg.a0 ++ [.pushregister Reg.a2, op (.longShift bc)] ++
      Instruction.splitLong Reg.v0 Reg.v1

end Builtin

end Cibyl
