import Cibyl.Machine

namespace Cibyl
set_option autoImplicit true

namespace Jvm

/-- What the depth of the operand stack depends on in a value. -/
inductive Width where
  | narrow | wide
  deriving DecidableEq, Repr

def Width.slots : Width → Nat
  | .narrow => 1
  | .wide => 2

@[simp] theorem Width.slots_narrow : narrow.slots = 1 := rfl

@[simp] theorem Width.slots_wide : wide.slots = 2 := rfl

def Ty.width : Ty → Width
  | .long => .wide
  | _ => .narrow

def Value.width (v : Value) : Width := v.ty.width

theorem Value.slots_eq (v : Value) : v.slots = v.width.slots := by
  cases v <;> rfl

/-- The widths on an operand stack, the top first. -/
abbrev Shape := List Width

def Shape.depth (s : Shape) : Nat := (s.map Width.slots).sum

theorem Shape.depth_append (s t : Shape) : depth (s ++ t) = s.depth + t.depth := by
  rw [depth, List.map_append, List.sum_append]
  rfl

@[simp] theorem Shape.depth_nil : depth [] = 0 := rfl

@[simp] theorem Shape.depth_cons (x : Width) (s : Shape) : depth (x :: s) = x.slots + s.depth :=
  List.sum_cons

def shapeOf (s : List Value) : Shape := s.map Value.width

def External.shape (e : External) (s : Shape) : Option Shape :=
  if s.take e.args.length = (e.args.map Ty.width).reverse then
    some (e.result.toList.map Ty.width ++ s.drop e.args.length)
  else none

open Width in
/-- The shape that an operation leaves. -/
def Op.shape : Op → Shape → Option Shape
  | .iconst _, s | .bipush _, s | .sipush _, s | .ldc _, s | .iload _, s | .aload _, s
  | .getMemory, s | .getSavedV1, s => some (narrow :: s)
  | .ldc2_w _, s => some (wide :: s)
  | .istore _, narrow :: s | .astore _, narrow :: s | .pop, narrow :: s
  | .putSavedV1, narrow :: s =>
    some s
  | .iinc .., s => some s
  | .intOp _, narrow :: narrow :: s => some (narrow :: s)
  | .intUn _, narrow :: s => some (narrow :: s)
  | .longOp _, wide :: wide :: s => some (wide :: s)
  | .longShift _, narrow :: wide :: s => some (wide :: s)
  | .lcmp, wide :: wide :: s => some (narrow :: s)
  | .i2l, narrow :: s => some (wide :: s)
  | .l2i, wide :: s => some (narrow :: s)
  | .dup, narrow :: s => some (narrow :: narrow :: s)
  | .dup_x2, narrow :: narrow :: narrow :: s => some (narrow :: narrow :: narrow :: narrow :: s)
  | .dup2, wide :: s => some (wide :: wide :: s)
  | .dup2, narrow :: narrow :: s => some (narrow :: narrow :: narrow :: narrow :: s)
  | .swap, narrow :: narrow :: s => some (narrow :: narrow :: s)
  | .iaload, narrow :: narrow :: s => some (narrow :: s)
  | .iastore, narrow :: narrow :: narrow :: s => some s
  | .multu, narrow :: narrow :: s | .divu, narrow :: narrow :: s => some (wide :: s)
  | .memoryRead _, narrow :: s => some (narrow :: s)
  | .memoryWrite _, narrow :: narrow :: s => some s
  | .memoryWritePc _, narrow :: narrow :: narrow :: s => some s
  | .external e, s => e.shape s
  | _, _ => none

section

open Width (narrow wide)

variable (s : Shape)

@[simp] theorem Op.shape_iload (n : Nat) : (Op.iload n).shape s = some (narrow :: s) := rfl

@[simp] theorem Op.shape_ldc2_w (v : Nat) : (Op.ldc2_w v).shape s = some (wide :: s) := rfl

@[simp] theorem Op.shape_getMemory : Op.getMemory.shape s = some (narrow :: s) := rfl

@[simp] theorem Op.shape_intOp (o : IntOp) :
    (Op.intOp o).shape (narrow :: narrow :: s) = some (narrow :: s) := rfl

@[simp] theorem Op.shape_intUn (o : IntUn) :
    (Op.intUn o).shape (narrow :: s) = some (narrow :: s) := rfl

@[simp] theorem Op.shape_longOp (o : LongOp) :
    (Op.longOp o).shape (wide :: wide :: s) = some (wide :: s) := rfl

@[simp] theorem Op.shape_longShift (o : LongShift) :
    (Op.longShift o).shape (narrow :: wide :: s) = some (wide :: s) := rfl

@[simp] theorem Op.shape_lcmp : Op.lcmp.shape (wide :: wide :: s) = some (narrow :: s) := rfl

@[simp] theorem Op.shape_i2l : Op.i2l.shape (narrow :: s) = some (wide :: s) := rfl

@[simp] theorem Op.shape_l2i : Op.l2i.shape (wide :: s) = some (narrow :: s) := rfl

@[simp] theorem Op.shape_dup : Op.dup.shape (narrow :: s) = some (narrow :: narrow :: s) := rfl

@[simp] theorem Op.shape_dup_x2 : Op.dup_x2.shape (narrow :: narrow :: narrow :: s) =
    some (narrow :: narrow :: narrow :: narrow :: s) := rfl

@[simp] theorem Op.shape_dup2_wide :
    Op.dup2.shape (wide :: s) = some (wide :: wide :: s) := rfl

@[simp] theorem Op.shape_dup2 : Op.dup2.shape (narrow :: narrow :: s) =
    some (narrow :: narrow :: narrow :: narrow :: s) := rfl

@[simp] theorem Op.shape_swap :
    Op.swap.shape (narrow :: narrow :: s) = some (narrow :: narrow :: s) := rfl

@[simp] theorem Op.shape_iaload :
    Op.iaload.shape (narrow :: narrow :: s) = some (narrow :: s) := rfl

@[simp] theorem Op.shape_iastore :
    Op.iastore.shape (narrow :: narrow :: narrow :: s) = some s := rfl

@[simp] theorem Op.shape_multu :
    Op.multu.shape (narrow :: narrow :: s) = some (wide :: s) := rfl

@[simp] theorem Op.shape_divu : Op.divu.shape (narrow :: narrow :: s) = some (wide :: s) := rfl

@[simp] theorem Op.shape_memoryRead (bc : ReadWhat) :
    (Op.memoryRead bc).shape (narrow :: s) = some (narrow :: s) := rfl

@[simp] theorem Op.shape_memoryWrite (bc : WriteWhat) :
    (Op.memoryWrite bc).shape (narrow :: narrow :: s) = some s := rfl

@[simp] theorem Op.shape_memoryWritePc (bc : WriteWhat) :
    (Op.memoryWritePc bc).shape (narrow :: narrow :: narrow :: s) = some s := rfl

end

theorem External.shape_append {e : External} (h : e.shape s = some s') (t : Shape) :
    e.shape (s ++ t) = some (s' ++ t) := by
  rw [External.shape] at h
  split at h
  · next ha =>
    have hlen := congrArg List.length ha
    rw [List.length_take, List.length_reverse, List.length_map] at hlen
    have hle : e.args.length ≤ s.length := by omega
    cases h
    rw [External.shape, List.take_append_of_le_length hle, if_pos ha,
      List.drop_append_of_le_length hle, List.append_assoc]
  · cases h

/-- The shape below the operands stays as it is. -/
theorem Op.shape_append {o : Op} (h : o.shape s = some s') (t : Shape) :
    o.shape (s ++ t) = some (s' ++ t) := by
  cases o with
  | external e => exact External.shape_append h t
  | iconst | bipush | sipush | ldc | ldc2_w | getMemory | getSavedV1 | iload | aload | iinc =>
    cases h
    rfl
  | istore | astore | intUn | i2l | l2i | dup | pop | putSavedV1 | memoryRead =>
    rcases s with _ | ⟨x, s⟩
    · cases h
    · cases x <;> cases h <;> rfl
  | intOp | longOp | divu | longShift | lcmp | swap | multu | dup2 | memoryWrite | iaload =>
    rcases s with _ | ⟨x, _ | ⟨y, s⟩⟩
    · cases h
    · cases x <;> cases h <;> rfl
    · cases x <;> cases y <;> cases h <;> rfl
  | iastore | dup_x2 | memoryWritePc =>
    rcases s with _ | ⟨x, _ | ⟨y, _ | ⟨z, s⟩⟩⟩
    · cases h
    · cases x <;> cases h
    · cases x <;> cases y <;> cases h
    · cases x <;> cases y <;> cases z <;> cases h <;> rfl

theorem popArgs_shape (h : popArgs args s = some (vs, r)) :
    (shapeOf s).take args.length = (args.map Ty.width).reverse ∧
      (shapeOf s).drop args.length = shapeOf r := by
  rw [popArgs] at h
  split at h
  · next ht =>
    cases h
    refine ⟨?_, ?_⟩
    · have hr := congrArg (fun ts => (ts.map Ty.width).reverse) ht
      rw [List.map_map, List.map_reverse, List.reverse_reverse] at hr
      rw [shapeOf, ← List.map_take]
      exact hr
    · rw [shapeOf, ← List.map_drop, shapeOf]
  · cases h

theorem ofMemM_shape (push : α → List Value) (hp : ∀ a, shapeOf (push a) = p)
    (h : ofMemM s l w push x = .ok f) : shapeOf f.stack = p ++ shapeOf s := by
  rw [ofMemM] at h
  split at h
  · cases h
    rw [shapeOf, List.map_append, ← hp]
    rfl
  · cases h

theorem ofExcept_shape {r : Except JavaException α} (g : α → Value) (hp : ∀ v, (g v).width = p)
    (h : ofExcept s l w (r.map g) = .ok f) : shapeOf f.stack = p :: shapeOf s := by
  cases r with
  | ok v =>
    cases h
    exact congrArg (· :: shapeOf s) (hp v)
  | error e => cases h

/-- An operation that succeeds changes the shape as `Op.shape` says. -/
theorem Op.exec_shape {rt : Runtime σ} (o : Op) (h : o.exec rt ⟨s, l, w⟩ = .ok f) :
    o.shape (shapeOf s) = some (shapeOf f.stack) := by
  cases o with
  | iconst | bipush | sipush | ldc | ldc2_w | getMemory | getSavedV1 =>
    cases h
    rfl
  | iload n | aload n | iinc n =>
    rw [Op.exec] at h
    cases hn : l n <;> rw [hn] at h <;> cases h <;> rfl
  | external e =>
    rw [Op.exec] at h
    cases hp : popArgs e.args s with
    | none =>
      rw [hp] at h
      cases h
    | some p =>
      rw [hp] at h
      dsimp only at h
      obtain ⟨ht, hd⟩ := popArgs_shape hp
      cases hc : rt.call e p.1 w with
      | mk r w' =>
        rw [hc] at h
        cases r with
        | ok vs =>
          cases h
          have hty := congrArg (List.map Ty.width) (rt.typed e _ _ _ _ hc)
          rw [List.map_map] at hty
          rw [Op.shape, External.shape, if_pos ht, hd, ← hty, shapeOf, shapeOf, List.map_append]
          rfl
        | error x => cases h
  | memoryRead what =>
    rcases s with _ | ⟨x, s⟩
    · cases h
    · cases x with
      | int a =>
        exact congrArg some
          (ofMemM_shape (p := [.narrow]) (fun v => [.int v]) (fun _ => rfl) h).symm
      | _ => cases h
  | istore | astore | intUn | i2l | l2i | dup | pop | putSavedV1 =>
    rcases s with _ | ⟨x, s⟩
    · cases h
    · cases x <;> cases h <;> rfl
  | intOp o =>
    rcases s with _ | ⟨x, _ | ⟨y, s⟩⟩
    · cases h
    · cases x <;> cases h
    · cases x <;> cases y <;> first
        | cases h
        | exact congrArg some (ofExcept_shape Value.int (fun _ => rfl) h).symm
  | longOp | divu =>
    rcases s with _ | ⟨x, _ | ⟨y, s⟩⟩
    · cases h
    · cases x <;> cases h
    · cases x <;> cases y <;> first
        | cases h
        | exact congrArg some (ofExcept_shape Value.long (fun _ => rfl) h).symm
  | longShift | lcmp | swap | multu | dup2 =>
    rcases s with _ | ⟨x, _ | ⟨y, s⟩⟩
    · cases h
    · cases x <;> cases h <;> rfl
    · cases x <;> cases y <;> cases h <;> rfl
  | memoryWrite what =>
    rcases s with _ | ⟨x, _ | ⟨y, s⟩⟩
    · cases h
    · cases x <;> cases h
    · cases x <;> cases y <;> first
        | cases h
        | exact congrArg some (ofMemM_shape (fun _ => []) (fun _ => rfl) h).symm
  | iaload =>
    rcases s with _ | ⟨x, _ | ⟨y, s⟩⟩
    · cases h
    · cases x <;> cases h
    · cases x <;> cases y with
        | ref r => cases r <;> first
          | cases h
          | exact congrArg some (ofMemM_shape (p := [.narrow]) (fun v => [.int v])
            (fun _ => rfl) h).symm
        | _ => cases h
  | iastore =>
    rcases s with _ | ⟨x, _ | ⟨y, _ | ⟨z, s⟩⟩⟩
    · cases h
    · cases x <;> cases h
    · cases x <;> cases y <;> cases h
    · cases x <;> cases y <;> cases z with
        | ref r => cases r <;> first
          | cases h
          | exact congrArg some (ofMemM_shape (fun _ => []) (fun _ => rfl) h).symm
        | _ => cases h
  | dup_x2 =>
    rcases s with _ | ⟨x, _ | ⟨y, _ | ⟨z, s⟩⟩⟩
    · cases h
    · cases x <;> cases h
    · cases x <;> cases y <;> cases h
    · cases x <;> cases y <;> cases z <;> cases h <;> rfl
  | memoryWritePc what =>
    rcases s with _ | ⟨x, _ | ⟨y, _ | ⟨z, s⟩⟩⟩
    · cases h
    · cases x <;> cases h
    · cases x <;> cases y <;> cases h
    · cases x <;> cases y <;> cases z <;> first
        | cases h
        | exact congrArg some (ofMemM_shape (fun _ => []) (fun _ => rfl) h).symm

end Jvm

end Cibyl
