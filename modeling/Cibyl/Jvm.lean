import Cibyl.CRunTime

namespace Cibyl
set_option autoImplicit true

namespace Jvm

inductive Ty where
  | int | long | float | ref | ret
  deriving DecidableEq, Repr

/-- A `long` takes two slots of the operand stack. -/
def Ty.slots : Ty → Nat
  | .long => 2
  | _ => 1

inductive IntOp where
  | iadd | isub | imul | idiv | irem | iand | ior | ixor | ishl | ishr | iushr
  deriving DecidableEq, Repr

def IntOp.eval : IntOp → Word → Word → Except JavaException Word
  | .iadd, x, y => .ok (x + y)
  | .isub, x, y => .ok (x - y)
  | .imul, x, y => .ok (x * y)
  | .idiv, x, y => if y = 0 then .error .arithmetic else .ok (x.sdiv y)
  | .irem, x, y => if y = 0 then .error .arithmetic else .ok (x.srem y)
  | .iand, x, y => .ok (x &&& y)
  | .ior, x, y => .ok (x ||| y)
  | .ixor, x, y => .ok (x ^^^ y)
  | .ishl, x, y => .ok (Cibyl.ishl x y)
  | .ishr, x, y => .ok (Cibyl.ishr x y)
  | .iushr, x, y => .ok (Cibyl.iushr x y)

inductive IntUn where
  | ineg | i2b | i2c | i2s
  deriving DecidableEq, Repr

def IntUn.eval : IntUn → Word → Word
  | .ineg, x => -x
  | .i2b, x => (x.setWidth 8).signExtend 32
  | .i2c, x => (x.setWidth 16).setWidth 32
  | .i2s, x => (x.setWidth 16).signExtend 32

inductive LongOp where
  | lmul | ldiv | lrem | land | lor
  deriving DecidableEq, Repr

def LongOp.eval : LongOp → DWord → DWord → Except JavaException DWord
  | .lmul, x, y => .ok (x * y)
  | .ldiv, x, y => if y = 0 then .error .arithmetic else .ok (x.sdiv y)
  | .lrem, x, y => if y = 0 then .error .arithmetic else .ok (x.srem y)
  | .land, x, y => .ok (x &&& y)
  | .lor, x, y => .ok (x ||| y)

inductive LongShift where
  | lshl | lshr | lushr
  deriving DecidableEq, Repr

def LongShift.eval : LongShift → DWord → Word → DWord
  | .lshl, x, s => Cibyl.lshl x s
  | .lshr, x, s => Cibyl.lshr x s
  | .lushr, x, s => Cibyl.lushr x s

def lcmp (x y : DWord) : Word := if x.slt y then -1 else if x = y then 0 else 1

/-- The suffix of a `CRunTime.memoryRead%s` call. -/
inductive ReadWhat where
  | byte | byteUnsigned | short | shortUnsigned | wordLeft
  deriving DecidableEq, Repr

def ReadWhat.call : ReadWhat → Word → MemM Word
  | .byte => CRunTime.memoryReadByte
  | .byteUnsigned => CRunTime.memoryReadByteUnsigned
  | .short => CRunTime.memoryReadShort
  | .shortUnsigned => CRunTime.memoryReadShortUnsigned
  | .wordLeft => CRunTime.memoryReadWordLeft

/-- The suffix of a `CRunTime.memoryWrite%s` call. -/
inductive WriteWhat where
  | byte | short | word | wordLeft
  deriving DecidableEq, Repr

def WriteWhat.call : WriteWhat → Word → Word → MemM Unit
  | .byte => CRunTime.memoryWriteByte
  | .short => CRunTime.memoryWriteShort
  | .word => CRunTime.memoryWriteWord
  | .wordLeft => CRunTime.memoryWriteWordLeft

def WriteWhat.callPc : WriteWhat → Word → Word → Word → MemM Unit
  | .byte => CRunTime.memoryWriteBytePc
  | .short => CRunTime.memoryWriteShortPc
  | .word => CRunTime.memoryWriteWordPc
  | .wordLeft => CRunTime.memoryWriteWordLeftPc

/-- An operation outside the modelled code: a translated method, a syscall wrapper, an object or
float operation. `args` are the operands it pops, the deepest first. -/
structure External where
  name : String
  args : List Ty
  result : Option Ty
  deriving DecidableEq, Repr

inductive Op where
  | iconst (n : Int) | bipush (n : Int) | sipush (n : Int) | ldc (n : Int) | ldc2_w (n : Nat)
  | iload (n : Nat) | istore (n : Nat) | aload (n : Nat) | astore (n : Nat)
  | iinc (n : Nat) (extra : Int)
  | intOp (o : IntOp) | intUn (o : IntUn) | longOp (o : LongOp) | longShift (o : LongShift)
  | lcmp | i2l | l2i
  | dup | dup_x2 | dup2 | pop | swap
  | iaload | iastore
  | getMemory | getSavedV1 | putSavedV1
  | multu | divu
  | memoryRead (what : ReadWhat) | memoryWrite (what : WriteWhat) | memoryWritePc (what : WriteWhat)
  | external (e : External)
  deriving DecidableEq, Repr

inductive Label where
  | addr (a : Word)
  | out (a : Word)
  | memoryRead (what : ReadWhat)
  | javamethodBegin | localJumptab | exceptionHandlers | functionReturn | functionReturnNonLocal
  | handler (start stop : Word)
  | setjmpNotThis (start stop : Word)
  deriving DecidableEq, Repr

inductive Cond1 where
  | ifeq | ifne | ifge | ifgt | ifle | iflt
  deriving DecidableEq, Repr

def Cond1.holds : Cond1 → Word → Bool
  | .ifeq, x => x == 0
  | .ifne, x => x != 0
  | .ifge, x => (0 : Word).sle x
  | .ifgt, x => (0 : Word).slt x
  | .ifle, x => x.sle 0
  | .iflt, x => x.slt 0

inductive Cond2 where
  | if_icmpeq | if_icmpne
  deriving DecidableEq, Repr

def Cond2.holds : Cond2 → Word → Word → Bool
  | .if_icmpeq, x, y => x == y
  | .if_icmpne, x, y => x != y

/-- A line of a method body. `abort` stands where the translator panics. -/
inductive Item where
  | op (o : Op)
  | label (l : Label)
  | goto (l : Label)
  | cond1 (c : Cond1) (l : Label)
  | cond2 (c : Cond2) (l : Label)
  | jsr (l : Label)
  | ret (n : Nat)
  | tableswitch (targets : List Label) (default : Label)
  | lookupswitch (targets : List (Word × Label)) (default : Label)
  | ireturn | lreturn | return_
  | athrow
  | catch_ (exception : String) (start stop using_ : Label)
  | abort
  deriving DecidableEq, Repr

inductive Ref where
  | null | memory | object (n : Nat)
  deriving DecidableEq, Repr

/-- A return address is the code that follows the `jsr`. -/
inductive Value where
  | int (v : Word) | long (v : DWord) | float (bits : Word) | ref (r : Ref) | ret (code : List Item)
  deriving DecidableEq, Repr

def Value.ty : Value → Ty
  | .int _ => .int
  | .long _ => .long
  | .float _ => .float
  | .ref _ => .ref
  | .ret _ => .ret

def Value.slots (v : Value) : Nat := v.ty.slots

/-- What the statics of `CRunTime` and everything outside the method hold. -/
structure World (σ : Type) where
  memory : Memory
  savedV1 : Word
  outside : σ

structure Frame (σ : Type) where
  stack : List Value
  locals : Nat → Value
  world : World σ

inductive Outcome (σ : Type) where
  | ok (f : Frame σ)
  | throw (e : JavaException) (w : World σ)
  | stuck

/-- What the operations outside the modelled code do. -/
structure Runtime (σ : Type) where
  call : External → List Value → World σ → Except JavaException (List Value) × World σ
  typed : ∀ e args w vs w', call e args w = (.ok vs, w') → vs.map Value.ty = e.result.toList

/-- Nothing outside the method is there. -/
def Runtime.absent : Runtime Unit where
  call _ _ w := (.error .arithmetic, w)
  typed := by
    intro e args w vs w' h
    cases h

def setLocal (locals : Nat → Value) (n : Nat) (v : Value) : Nat → Value :=
  fun i => if i = n then v else locals i

@[simp] theorem setLocal_same (locals : Nat → Value) (n : Nat) (v : Value) :
    setLocal locals n v n = v := if_pos rfl

theorem setLocal_ne (locals : Nat → Value) (v : Value) (h : i ≠ n) :
    setLocal locals n v i = locals i := if_neg h

/-- The outcome of Java code over the memory array whose result is left as `push`. -/
def ofMemM (s : List Value) (l : Nat → Value) (w : World σ) (push : α → List Value) (x : MemM α) :
    Outcome σ :=
  match x w.memory with
  | (.ok a, m) => .ok ⟨push a ++ s, l, { w with memory := m }⟩
  | (.error e, m) => .throw e { w with memory := m }

def ofExcept (s : List Value) (l : Nat → Value) (w : World σ) (r : Except JavaException Value) :
    Outcome σ :=
  match r with
  | .ok v => .ok ⟨v :: s, l, w⟩
  | .error e => .throw e w

/-- The operands of an `External`, the deepest first, and the stack below them. -/
def popArgs (args : List Ty) (s : List Value) : Option (List Value × List Value) :=
  let vs := (s.take args.length).reverse
  if vs.map Value.ty = args then some (vs, s.drop args.length) else none

def Op.exec (rt : Runtime σ) : Op → Frame σ → Outcome σ
  | .iconst n, ⟨s, l, w⟩ => .ok ⟨.int (BitVec.ofInt 32 n) :: s, l, w⟩
  | .bipush n, ⟨s, l, w⟩ => .ok ⟨.int ((BitVec.ofInt 8 n).signExtend 32) :: s, l, w⟩
  | .sipush n, ⟨s, l, w⟩ => .ok ⟨.int ((BitVec.ofInt 16 n).signExtend 32) :: s, l, w⟩
  | .ldc n, ⟨s, l, w⟩ => .ok ⟨.int (BitVec.ofInt 32 n) :: s, l, w⟩
  | .ldc2_w n, ⟨s, l, w⟩ => .ok ⟨.long (BitVec.ofNat 64 n) :: s, l, w⟩
  | .iload n, ⟨s, l, w⟩ =>
    match l n with
    | .int v => .ok ⟨.int v :: s, l, w⟩
    | _ => .stuck
  | .istore n, ⟨.int v :: s, l, w⟩ => .ok ⟨s, setLocal l n (.int v), w⟩
  | .aload n, ⟨s, l, w⟩ =>
    match l n with
    | .ref r => .ok ⟨.ref r :: s, l, w⟩
    | _ => .stuck
  | .astore n, ⟨.ref r :: s, l, w⟩ => .ok ⟨s, setLocal l n (.ref r), w⟩
  | .astore n, ⟨.ret c :: s, l, w⟩ => .ok ⟨s, setLocal l n (.ret c), w⟩
  | .iinc n k, ⟨s, l, w⟩ =>
    match l n with
    | .int v => .ok ⟨s, setLocal l n (.int (v + (BitVec.ofInt 16 k).signExtend 32)), w⟩
    | _ => .stuck
  | .intOp o, ⟨.int y :: .int x :: s, l, w⟩ => ofExcept s l w ((o.eval x y).map .int)
  | .intUn o, ⟨.int x :: s, l, w⟩ => .ok ⟨.int (o.eval x) :: s, l, w⟩
  | .longOp o, ⟨.long y :: .long x :: s, l, w⟩ => ofExcept s l w ((o.eval x y).map .long)
  | .longShift o, ⟨.int y :: .long x :: s, l, w⟩ => .ok ⟨.long (o.eval x y) :: s, l, w⟩
  | .lcmp, ⟨.long y :: .long x :: s, l, w⟩ => .ok ⟨.int (Jvm.lcmp x y) :: s, l, w⟩
  | .i2l, ⟨.int x :: s, l, w⟩ => .ok ⟨.long (x.signExtend 64) :: s, l, w⟩
  | .l2i, ⟨.long x :: s, l, w⟩ => .ok ⟨.int (x.setWidth 32) :: s, l, w⟩
  | .dup, ⟨x :: s, l, w⟩ => if x.slots = 1 then .ok ⟨x :: x :: s, l, w⟩ else .stuck
  | .dup_x2, ⟨x :: y :: z :: s, l, w⟩ =>
    if x.slots = 1 ∧ y.slots = 1 ∧ z.slots = 1 then .ok ⟨x :: y :: z :: x :: s, l, w⟩ else .stuck
  | .dup2, ⟨x :: s, l, w⟩ =>
    if x.slots = 2 then .ok ⟨x :: x :: s, l, w⟩
    else match s with
      | y :: s => if y.slots = 1 then .ok ⟨x :: y :: x :: y :: s, l, w⟩ else .stuck
      | [] => .stuck
  | .pop, ⟨x :: s, l, w⟩ => if x.slots = 1 then .ok ⟨s, l, w⟩ else .stuck
  | .swap, ⟨x :: y :: s, l, w⟩ =>
    if x.slots = 1 ∧ y.slots = 1 then .ok ⟨y :: x :: s, l, w⟩ else .stuck
  | .iaload, ⟨.int i :: .ref .memory :: s, l, w⟩ =>
    ofMemM s l w (fun v => [.int v]) (Memory.load i)
  | .iastore, ⟨.int v :: .int i :: .ref .memory :: s, l, w⟩ =>
    ofMemM s l w (fun _ => []) (Memory.store i v)
  | .getMemory, ⟨s, l, w⟩ => .ok ⟨.ref .memory :: s, l, w⟩
  | .getSavedV1, ⟨s, l, w⟩ => .ok ⟨.int w.savedV1 :: s, l, w⟩
  | .putSavedV1, ⟨.int v :: s, l, w⟩ => .ok ⟨s, l, { w with savedV1 := v }⟩
  | .multu, ⟨.int y :: .int x :: s, l, w⟩ => .ok ⟨.long (CRunTime.multu x y) :: s, l, w⟩
  | .divu, ⟨.int y :: .int x :: s, l, w⟩ => ofExcept s l w ((CRunTime.divu x y).map .long)
  | .memoryRead what, ⟨.int a :: s, l, w⟩ => ofMemM s l w (fun v => [.int v]) (what.call a)
  | .memoryWrite what, ⟨.int v :: .int a :: s, l, w⟩ =>
    ofMemM s l w (fun _ => []) (what.call a v)
  | .memoryWritePc what, ⟨.int v :: .int a :: .int pc :: s, l, w⟩ =>
    ofMemM s l w (fun _ => []) (what.callPc pc a v)
  | .external e, ⟨s, l, w⟩ =>
    match popArgs e.args s with
    | some (args, s) =>
      match rt.call e args w with
      | (.ok vs, w) => .ok ⟨vs ++ s, l, w⟩
      | (.error x, w) => .throw x w
    | none => .stuck
  | _, _ => .stuck

section Exec

variable (rt : Runtime σ) (s : List Value) (l : Nat → Value) (w : World σ)

@[simp] theorem exec_ldc2_w (n : Nat) :
    Op.exec rt (.ldc2_w n) ⟨s, l, w⟩ = .ok ⟨.long (BitVec.ofNat 64 n) :: s, l, w⟩ := rfl

theorem exec_iload (h : l n = .int v) :
    Op.exec rt (.iload n) ⟨s, l, w⟩ = .ok ⟨.int v :: s, l, w⟩ := by
  delta Op.exec
  simp only [h]

theorem exec_aload (h : l n = .ref r) :
    Op.exec rt (.aload n) ⟨s, l, w⟩ = .ok ⟨.ref r :: s, l, w⟩ := by
  delta Op.exec
  simp only [h]

theorem exec_iinc (h : l n = .int v) (k : Int) : Op.exec rt (.iinc n k) ⟨s, l, w⟩ =
    .ok ⟨s, setLocal l n (.int (v + (BitVec.ofInt 16 k).signExtend 32)), w⟩ := by
  delta Op.exec
  simp only [h]

@[simp] theorem exec_istore (n : Nat) (v : Word) :
    Op.exec rt (.istore n) ⟨.int v :: s, l, w⟩ = .ok ⟨s, setLocal l n (.int v), w⟩ := rfl

theorem exec_intOp (h : IntOp.eval o x y = .ok v) :
    Op.exec rt (.intOp o) ⟨.int y :: .int x :: s, l, w⟩ = .ok ⟨.int v :: s, l, w⟩ := by
  delta Op.exec
  simp only [h, Except.map, ofExcept]

@[simp] theorem exec_intUn (o : IntUn) (x : Word) :
    Op.exec rt (.intUn o) ⟨.int x :: s, l, w⟩ = .ok ⟨.int (o.eval x) :: s, l, w⟩ := rfl

theorem exec_longOp (h : LongOp.eval o x y = .ok v) :
    Op.exec rt (.longOp o) ⟨.long y :: .long x :: s, l, w⟩ = .ok ⟨.long v :: s, l, w⟩ := by
  delta Op.exec
  simp only [h, Except.map, ofExcept]

@[simp] theorem exec_longShift (o : LongShift) (x : DWord) (y : Word) :
    Op.exec rt (.longShift o) ⟨.int y :: .long x :: s, l, w⟩ =
      .ok ⟨.long (o.eval x y) :: s, l, w⟩ := rfl

@[simp] theorem exec_lcmp (x y : DWord) :
    Op.exec rt .lcmp ⟨.long y :: .long x :: s, l, w⟩ = .ok ⟨.int (Jvm.lcmp x y) :: s, l, w⟩ := rfl

@[simp] theorem exec_i2l (x : Word) :
    Op.exec rt .i2l ⟨.int x :: s, l, w⟩ = .ok ⟨.long (x.signExtend 64) :: s, l, w⟩ := rfl

@[simp] theorem exec_l2i (x : DWord) :
    Op.exec rt .l2i ⟨.long x :: s, l, w⟩ = .ok ⟨.int (x.setWidth 32) :: s, l, w⟩ := rfl

@[simp] theorem exec_dup_int (x : Word) :
    Op.exec rt .dup ⟨.int x :: s, l, w⟩ = .ok ⟨.int x :: .int x :: s, l, w⟩ := rfl

@[simp] theorem exec_dup2_long (x : DWord) :
    Op.exec rt .dup2 ⟨.long x :: s, l, w⟩ = .ok ⟨.long x :: .long x :: s, l, w⟩ := rfl

@[simp] theorem exec_dup2_int (x : Word) (h : y.slots = 1) :
    Op.exec rt .dup2 ⟨.int x :: y :: s, l, w⟩ = .ok ⟨.int x :: y :: .int x :: y :: s, l, w⟩ :=
  if_pos h

@[simp] theorem exec_dup_x2_int (x y z : Word) :
    Op.exec rt .dup_x2 ⟨.int x :: .int y :: .int z :: s, l, w⟩ =
      .ok ⟨.int x :: .int y :: .int z :: .int x :: s, l, w⟩ := rfl

@[simp] theorem exec_swap (hx : x.slots = 1) (hy : y.slots = 1) :
    Op.exec rt .swap ⟨x :: y :: s, l, w⟩ = .ok ⟨y :: x :: s, l, w⟩ := if_pos ⟨hx, hy⟩

@[simp] theorem exec_multu (x y : Word) : Op.exec rt .multu ⟨.int y :: .int x :: s, l, w⟩ =
    .ok ⟨.long (CRunTime.multu x y) :: s, l, w⟩ := rfl

theorem exec_divu (h : CRunTime.divu x y = .ok v) :
    Op.exec rt .divu ⟨.int y :: .int x :: s, l, w⟩ = .ok ⟨.long v :: s, l, w⟩ := by
  delta Op.exec
  simp only [h, Except.map, ofExcept]

end Exec

namespace Outcome

def bind (o : Outcome σ) (k : Frame σ → Outcome σ) : Outcome σ :=
  match o with
  | .ok f => k f
  | .throw e w => .throw e w
  | .stuck => .stuck

@[simp] theorem bind_ok (f : Frame σ) (k : Frame σ → Outcome σ) : (ok f).bind k = k f := rfl

@[simp] theorem bind_throw (e : JavaException) (w : World σ) (k : Frame σ → Outcome σ) :
    (throw e w).bind k = .throw e w := rfl

@[simp] theorem bind_stuck (k : Frame σ → Outcome σ) : (stuck : Outcome σ).bind k = .stuck := rfl

theorem bind_assoc (o : Outcome σ) (j k : Frame σ → Outcome σ) :
    (o.bind j).bind k = o.bind (fun f => (j f).bind k) := by
  cases o <;> rfl

end Outcome

/-- Run straight-line code. Code that leaves the line is stuck here. -/
def exec (rt : Runtime σ) : List Item → Frame σ → Outcome σ
  | [], f => .ok f
  | .op o :: c, f => (o.exec rt f).bind (exec rt c)
  | _ :: _, _ => .stuck

@[simp] theorem exec_nil (rt : Runtime σ) (f : Frame σ) : exec rt [] f = .ok f := rfl

@[simp] theorem exec_op (rt : Runtime σ) (o : Op) (c : List Item) (f : Frame σ) :
    exec rt (.op o :: c) f = (o.exec rt f).bind (exec rt c) := rfl

theorem exec_append (rt : Runtime σ) (c d : List Item) (f : Frame σ) :
    exec rt (c ++ d) f = (exec rt c f).bind (exec rt d) := by
  induction c generalizing f with
  | nil => rfl
  | cons i c ih =>
    cases i with
    | op o =>
      have hk : exec rt (c ++ d) = fun f => (exec rt c f).bind (exec rt d) := funext ih
      rw [List.cons_append, exec_op, exec_op, Outcome.bind_assoc, hk]
    | _ => rfl

end Jvm

end Cibyl
