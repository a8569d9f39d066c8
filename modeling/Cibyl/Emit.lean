import Cibyl.Jvm
import Cibyl.RegisterAllocator

namespace Cibyl
set_option autoImplicit true

open Jvm (Op Item Label Value Frame World Outcome Runtime exec)

/-- A call of `Emit` that depends on the register allocation, or a finished line. -/
inductive Bc where
  | pushregister (r : Reg)
  | popregister (r : Reg)
  | astore (r : Reg)
  | ret (r : Reg)
  | iinc (r : Reg) (extra : Int)
  | item (i : Item)
  deriving DecidableEq, Repr

namespace Bc

def pushregisterItem (ra : RegisterAllocator) (r : Reg) : Item :=
  match ra.regToLocal r with
  | none => .op (.iconst 0)
  | some n => if r = Reg.mem then .op (.aload n) else .op (.iload n)

/-- Popping to a register without a local only prints an error. -/
def lower (ra : RegisterAllocator) : Bc → List Item
  | .pushregister r => if r = Reg.zero then [.op (.iconst 0)] else [pushregisterItem ra r]
  | .popregister r =>
    match ra.regToLocal r with
    | none => []
    | some n => if r = Reg.mem then [.op (.astore n)] else [.op (.istore n)]
  | .astore r =>
    match ra.regToLocal r with
    | none => [.abort]
    | some n => [.op (.astore n)]
  | .ret r =>
    match ra.regToLocal r with
    | none => [.abort]
    | some n => [.ret n]
  | .iinc r extra =>
    match ra.regToLocal r with
    | none => [.abort]
    | some n => [.op (.iinc n extra)]
  | .item i => [i]

def lowerAll (ra : RegisterAllocator) (bs : List Bc) : List Item := bs.flatMap (lower ra)

@[simp] theorem lowerAll_nil (ra : RegisterAllocator) : lowerAll ra [] = [] := rfl

@[simp] theorem lowerAll_cons (ra : RegisterAllocator) (b : Bc) (bs : List Bc) :
    lowerAll ra (b :: bs) = lower ra b ++ lowerAll ra bs := List.flatMap_cons

theorem lowerAll_append (ra : RegisterAllocator) (bs cs : List Bc) :
    lowerAll ra (bs ++ cs) = lowerAll ra bs ++ lowerAll ra cs := List.flatMap_append

end Bc

namespace Emit

def op (o : Op) : Bc := .item (.op o)

def intOp (o : Jvm.IntOp) : Bc := op (.intOp o)

def pushconst_u (val : Word) : Bc :=
  if val.toNat ≤ 5 then op (.iconst val.toNat)
  else if val.toNat ≤ 127 then op (.bipush val.toNat)
  else if val.toNat ≤ 32767 then op (.sipush val.toNat)
  else op (.ldc val.toNat)

def pushconst_l (val : DWord) : Bc := op (.ldc2_w val.toNat)

def pushconst (val : Word) : Bc :=
  if val.toInt = -1 then op (.iconst (-1))
  else if 0 ≤ val.toInt ∧ val.toInt ≤ 5 then op (.iconst val.toInt)
  else if -128 ≤ val.toInt ∧ val.toInt ≤ 127 then op (.bipush val.toInt)
  else if -32768 ≤ val.toInt ∧ val.toInt ≤ 32767 then op (.sipush val.toInt)
  else op (.ldc val.toInt)

def pushaddress (reg : Reg) (extra : Word) : List Bc :=
  .pushregister reg :: if extra ≠ 0 then [pushconst extra, intOp .iadd] else []

def pushindex (reg : Reg) (extra : Word) : List Bc :=
  if extra ≠ 0 ∧ extra.srem 4 ≠ 0 then
    [.pushregister reg, pushconst extra, intOp .iadd, pushconst 2, intOp .iushr]
  else
    [.pushregister reg, pushconst 2, intOp .iushr] ++
      if extra ≠ 0 then [pushconst (extra.sdiv 4), intOp .iadd] else []

end Emit

end Cibyl
