import Cibyl.Alu
import Cibyl.Pass2

namespace Cibyl
set_option autoImplicit true

namespace Jvm

/-- What the verifier knows of a value. The memory array is told from other objects. -/
inductive StackType where
  | int | long | float | memory | object | ret
  deriving DecidableEq, Repr

def Ty.stackType : Ty → StackType
  | .int => .int
  | .long => .long
  | .float => .float
  | .ref => .object
  | .ret => .ret

abbrev StackTypes := List StackType

def External.types (e : External) (s : StackTypes) : Option StackTypes :=
  if s.take e.args.length = (e.args.map Ty.stackType).reverse then
    some (e.result.toList.map Ty.stackType ++ s.drop e.args.length)
  else none

open StackType in
/-- The types that an operation leaves on the operand stack; `none` where it is ill-typed. The
loads and stores of locals are typed with their registers. -/
def Op.types : Op → StackTypes → Option StackTypes
  | .iconst _, s | .bipush _, s | .sipush _, s | .ldc _, s | .getSavedV1, s => some (int :: s)
  | .getMemory, s => some (memory :: s)
  | .ldc2_w _, s => some (long :: s)
  | .intOp _, int :: int :: s => some (int :: s)
  | .intUn _, int :: s => some (int :: s)
  | .longOp _, long :: long :: s => some (long :: s)
  | .longShift _, int :: long :: s => some (long :: s)
  | .lcmp, long :: long :: s => some (int :: s)
  | .i2l, int :: s => some (long :: s)
  | .l2i, long :: s => some (int :: s)
  | .dup, x :: s => if x = long then none else some (x :: x :: s)
  | .dup_x2, x :: y :: z :: s =>
    if x = long ∨ y = long ∨ z = long then none else some (x :: y :: z :: x :: s)
  | .dup2, long :: s => some (long :: long :: s)
  | .dup2, x :: y :: s => if x = long ∨ y = long then none else some (x :: y :: x :: y :: s)
  | .pop, x :: s => if x = long then none else some s
  | .swap, x :: y :: s => if x = long ∨ y = long then none else some (y :: x :: s)
  | .iaload, int :: memory :: s => some (int :: s)
  | .iastore, int :: int :: memory :: s => some s
  | .putSavedV1, int :: s => some s
  | .multu, int :: int :: s | .divu, int :: int :: s => some (long :: s)
  | .memoryRead _, int :: s => some (int :: s)
  | .memoryWrite _, int :: int :: s => some s
  | .memoryWritePc _, int :: int :: int :: s => some s
  | .external e, s => e.types s
  | _, _ => none

inductive HasType : Value → StackType → Prop where
  | int (v : Word) : HasType (.int v) .int
  | long (v : DWord) : HasType (.long v) .long
  | float (bits : Word) : HasType (.float bits) .float
  | memory : HasType (.ref .memory) .memory
  | object (r : Ref) : HasType (.ref r) .object
  | ret (code : List Item) : HasType (.ret code) .ret

theorem hasType_ty (v : Value) : HasType v v.ty.stackType := by
  cases v <;> constructor

theorem HasType.ty_eq {t : Ty} (h : HasType v t.stackType) : v.ty = t := by
  cases t <;> cases h <;> rfl

theorem HasType.slots_eq (h : HasType v t) : v.slots = if t = .long then 2 else 1 := by
  cases h <;> rfl

theorem HasType.slots_one (h : HasType v t) (ht : t ≠ .long) : v.slots = 1 :=
  h.slots_eq.trans (if_neg ht)

abbrev StackHas (s : List Value) (ts : StackTypes) : Prop := List.Forall₂ HasType s ts

/-- The outcome is not a type error, and where it is no exception the frame has the property. -/
def Outcome.Leaves (o : Outcome σ) (P : Frame σ → Prop) : Prop :=
  match o with
  | .ok f => P f
  | .throw .. => True
  | .stuck => False

theorem Outcome.Leaves.of_ok {o : Outcome σ} (h : o = .ok f) (hp : P f) : o.Leaves P := by
  rw [h]
  exact hp

theorem Outcome.Leaves.bind {o : Outcome σ} {k : Frame σ → Outcome σ} (h : o.Leaves P)
    (hk : ∀ f, P f → (k f).Leaves Q) : (o.bind k).Leaves Q := by
  cases o with
  | ok f => exact hk f h
  | throw e w => trivial
  | stuck => exact h

theorem leaves_ofMemM {push : α → List Value} {x : MemM α} {w : World σ} {P : Frame σ → Prop}
    (h : ∀ a w', P ⟨push a ++ s, l, w'⟩) : (ofMemM s l w push x).Leaves P := by
  rw [ofMemM]
  split
  · exact h _ _
  · trivial

theorem leaves_ofExcept {r : Except JavaException α} {g : α → Value} {w : World σ}
    {P : Frame σ → Prop} (h : ∀ a, P ⟨g a :: s, l, w⟩) : (ofExcept s l w (r.map g)).Leaves P := by
  cases r with
  | ok a => exact h a
  | error e => trivial

theorem map_ty {args : List Ty} (h : StackHas vs (args.map Ty.stackType)) :
    vs.map Value.ty = args := by
  rw [StackHas, List.forall₂_map_right_iff] at h
  induction h with
  | nil => rfl
  | cons hv _ ih => rw [List.map_cons, hv.ty_eq, ih]

theorem popArgs_types {args : List Ty} (hs : StackHas s ts)
    (h : ts.take args.length = (args.map Ty.stackType).reverse) :
    popArgs args s = some ((s.take args.length).reverse, s.drop args.length) := by
  have ht := List.forall₂_take args.length hs
  rw [h] at ht
  have hr := List.rel_reverse ht
  rw [List.reverse_reverse] at hr
  rw [popArgs, if_pos (map_ty hr)]

theorem stackHas_map_ty (vs : List Value) : StackHas vs (vs.map (fun v => v.ty.stackType)) := by
  rw [StackHas, List.forall₂_map_right_iff]
  exact List.forall₂_same.mpr fun v _ => hasType_ty v

/-- A well-typed operation on a stack of its types does not get stuck. -/
theorem Op.exec_types (rt : Runtime σ) {o : Op} (h : o.types ts = some ts') (hs : StackHas s ts)
    (l : Nat → Value) (w : World σ) :
    (o.exec rt ⟨s, l, w⟩).Leaves (fun f => StackHas f.stack ts' ∧ f.locals = l) := by
  cases o with
  | iconst | bipush | sipush | ldc | getSavedV1 =>
    cases h
    exact ⟨.cons (.int _) hs, rfl⟩
  | getMemory =>
    cases h
    exact ⟨.cons .memory hs, rfl⟩
  | ldc2_w =>
    cases h
    exact ⟨.cons (.long _) hs, rfl⟩
  | iload | istore | aload | astore | iinc => cases h
  | external e =>
    rw [types, External.types] at h
    split at h
    · next ht =>
      cases h
      rw [exec, popArgs_types hs ht]
      dsimp only
      cases hc : rt.call e (s.take e.args.length).reverse w with
      | mk r w' =>
        cases r with
        | error x => trivial
        | ok vs =>
          refine ⟨List.rel_append ?_ (List.forall₂_drop _ hs), rfl⟩
          have hv := stackHas_map_ty vs
          rwa [← rt.typed e _ _ _ _ hc, List.map_map]
    · cases h
  | dup =>
    rcases hs with _ | ⟨hx, hs⟩
    · cases h
    · rw [types] at h
      split at h
      · cases h
      · next hn =>
        cases h
        rw [exec, if_pos (hx.slots_one hn)]
        exact ⟨.cons hx (.cons hx hs), rfl⟩
  | pop =>
    rcases hs with _ | ⟨hx, hs⟩
    · cases h
    · rw [types] at h
      split at h
      · cases h
      · next hn =>
        cases h
        rw [exec, if_pos (hx.slots_one hn)]
        exact ⟨hs, rfl⟩
  | swap =>
    rcases hs with _ | ⟨hx, _ | ⟨hy, hs⟩⟩
    · cases h
    · cases h
    · rw [types] at h
      split at h
      · cases h
      · next hn =>
        cases h
        obtain ⟨hn₁, hn₂⟩ := not_or.mp hn
        rw [exec, if_pos ⟨hx.slots_one hn₁, hy.slots_one hn₂⟩]
        exact ⟨.cons hy (.cons hx hs), rfl⟩
  | dup_x2 =>
    rcases hs with _ | ⟨hx, _ | ⟨hy, _ | ⟨hz, hs⟩⟩⟩
    · cases h
    · cases h
    · cases h
    · rw [types] at h
      split at h
      · cases h
      · next hn =>
        cases h
        obtain ⟨hn₁, hn⟩ := not_or.mp hn
        obtain ⟨hn₂, hn₃⟩ := not_or.mp hn
        rw [exec, if_pos ⟨hx.slots_one hn₁, hy.slots_one hn₂, hz.slots_one hn₃⟩]
        exact ⟨.cons hx (.cons hy (.cons hz (.cons hx hs))), rfl⟩
  | dup2 =>
    rcases hs with _ | ⟨hx, _ | ⟨hy, hs⟩⟩
    · cases h
    · cases hx <;> cases h
      exact ⟨.cons (.long _) (.cons (.long _) .nil), rfl⟩
    · cases hx with
      | long =>
        cases h
        exact .of_ok rfl ⟨.cons (.long _) (.cons (.long _) (.cons hy hs)), rfl⟩
      | _ =>
        cases hy <;> cases h
        all_goals exact .of_ok rfl ⟨.cons (by constructor) (.cons (by constructor)
          (.cons (by constructor) (.cons (by constructor) hs))), rfl⟩
  | intUn =>
    rcases hs with _ | ⟨hx, hs⟩
    · cases h
    · cases hx <;> cases h
      exact ⟨.cons (.int _) hs, rfl⟩
  | i2l =>
    rcases hs with _ | ⟨hx, hs⟩
    · cases h
    · cases hx <;> cases h
      exact ⟨.cons (.long _) hs, rfl⟩
  | l2i =>
    rcases hs with _ | ⟨hx, hs⟩
    · cases h
    · cases hx <;> cases h
      exact ⟨.cons (.int _) hs, rfl⟩
  | putSavedV1 =>
    rcases hs with _ | ⟨hx, hs⟩
    · cases h
    · cases hx <;> cases h
      exact ⟨hs, rfl⟩
  | memoryRead what =>
    rcases hs with _ | ⟨hx, hs⟩
    · cases h
    · cases hx <;> cases h
      exact leaves_ofMemM fun a w' => ⟨.cons (.int _) hs, rfl⟩
  | intOp o =>
    rcases hs with _ | ⟨hx, _ | ⟨hy, hs⟩⟩
    · cases h
    · cases hx <;> cases h
    · cases hx <;> cases hy <;> cases h
      exact leaves_ofExcept fun a => ⟨.cons (.int _) hs, rfl⟩
  | longOp o =>
    rcases hs with _ | ⟨hx, _ | ⟨hy, hs⟩⟩
    · cases h
    · cases hx <;> cases h
    · cases hx <;> cases hy <;> cases h
      exact leaves_ofExcept fun a => ⟨.cons (.long _) hs, rfl⟩
  | divu =>
    rcases hs with _ | ⟨hx, _ | ⟨hy, hs⟩⟩
    · cases h
    · cases hx <;> cases h
    · cases hx <;> cases hy <;> cases h
      exact leaves_ofExcept fun a => ⟨.cons (.long _) hs, rfl⟩
  | multu | longShift =>
    rcases hs with _ | ⟨hx, _ | ⟨hy, hs⟩⟩
    · cases h
    · cases hx <;> cases h
    · cases hx <;> cases hy <;> cases h
      exact ⟨.cons (.long _) hs, rfl⟩
  | lcmp =>
    rcases hs with _ | ⟨hx, _ | ⟨hy, hs⟩⟩
    · cases h
    · cases hx <;> cases h
    · cases hx <;> cases hy <;> cases h
      exact ⟨.cons (.int _) hs, rfl⟩
  | iaload =>
    rcases hs with _ | ⟨hx, _ | ⟨hy, hs⟩⟩
    · cases h
    · cases hx <;> cases h
    · cases hx <;> cases hy <;> cases h
      exact leaves_ofMemM fun a w' => ⟨.cons (.int _) hs, rfl⟩
  | memoryWrite what =>
    rcases hs with _ | ⟨hx, _ | ⟨hy, hs⟩⟩
    · cases h
    · cases hx <;> cases h
    · cases hx <;> cases hy <;> cases h
      exact leaves_ofMemM fun a w' => ⟨hs, rfl⟩
  | iastore =>
    rcases hs with _ | ⟨hx, _ | ⟨hy, _ | ⟨hz, hs⟩⟩⟩
    · cases h
    · cases hx <;> cases h
    · cases hx <;> cases hy <;> cases h
    · cases hx <;> cases hy <;> cases hz <;> cases h
      exact leaves_ofMemM fun a w' => ⟨hs, rfl⟩
  | memoryWritePc what =>
    rcases hs with _ | ⟨hx, _ | ⟨hy, _ | ⟨hz, hs⟩⟩⟩
    · cases h
    · cases hx <;> cases h
    · cases hx <;> cases hy <;> cases h
    · cases hx <;> cases hy <;> cases hz <;> cases h
      exact leaves_ofMemM fun a w' => ⟨hs, rfl⟩

/-- What a label finds on the stack, above what the method has there. A subroutine returns its
result in place of these. -/
def Label.entry : Label → StackTypes
  | .memoryRead _ => [.ret, .int]
  | .localJumptab => [.int]
  | .handler .. | .setjmpNotThis .. => [.object]
  | _ => []

end Jvm

open Jvm (StackType StackTypes StackHas Label Op IntOp)
open Emit (op intOp pushconst pushconst_u pushconst_l pushaddress pushindex)

namespace Bc

/-- The locals of the registers, apart from that of return addresses, have their types. -/
def LocalsHave (ra : RegisterAllocator) (l : Nat → Jvm.Value) : Prop :=
  ∀ r n, ra.regToLocal r = some n → (r = Reg.mem → l n = .ref .memory) ∧
    (Reg.Ordinary r → ∃ v, l n = .int v)

def localType (r : Reg) : StackType := if r = Reg.mem then .memory else .int

def pushType (ra : RegisterAllocator) (r : Reg) : Option StackType :=
  if r = Reg.zero ∨ ra.regIsAllocated r = false then some .int
  else if r = Reg.madr then none else some (localType r)

/-- The types that a line leaves; `none` where it is ill-typed or leaves the line. -/
def types (ra : RegisterAllocator) : Bc → StackTypes → Option StackTypes
  | .pushregister r, s => (pushType ra r).map (· :: s)
  | .popregister r, s =>
    if ra.regIsAllocated r then
      if s.head? = some (localType r) then some s.tail else none
    else some s
  | .iinc r _, s => if ra.regIsAllocated r ∧ Reg.Ordinary r then some s else none
  | .item (.op o), s => o.types s
  | _, _ => none

/-- What a line leaves of the stack, on a method's stack `base`: `none` in place of the stack where
the code behind it is not reached. -/
def flow (ra : RegisterAllocator) (base : StackTypes) : Bc → Option StackTypes →
    Option (Option StackTypes)
  | .item .abort, _ => some none
  | .item (.label l), some s => if s = l.entry ++ base then some (some s) else none
  | .item (.label l), none => some (some (l.entry ++ base))
  | .item (.catch_ ..), st => some st
  | _, none => some none
  | .item (.goto l), some s => if s = l.entry ++ base then some none else none
  | .item (.cond1 _ l), some (.int :: s) => if s = l.entry ++ base then some (some s) else none
  | .item (.cond2 _ l), some (.int :: .int :: s) =>
    if s = l.entry ++ base then some (some s) else none
  | .item (.tableswitch targets default), some (.int :: s) =>
    if ∀ l ∈ default :: targets, s = l.entry ++ base then some none else none
  | .item (.lookupswitch targets default), some (.int :: s) =>
    if ∀ l ∈ default :: targets.map Prod.snd, s = l.entry ++ base then some none else none
  | .item (.jsr (.memoryRead _)), some (.int :: s) => some (some (.int :: s))
  | .astore r, some (.ret :: s) =>
    if ra.regIsAllocated r ∧ r = Reg.madr then some (some s) else none
  | .ret r, some s => if r = Reg.madr ∧ s = .int :: base then some none else none
  | .item .ireturn, some (.int :: _) => some none
  | .item .lreturn, some (.long :: _) => some none
  | .item .return_, some _ => some none
  | .item .athrow, some (.object :: _) => some none
  | b, some s => (b.types ra s).map some

def check (ra : RegisterAllocator) (base : StackTypes) :
    List Bc → Option StackTypes → Option (Option StackTypes)
  | [], st => some st
  | b :: bs, st => (b.flow ra base st).bind (check ra base bs)

/-- Well-typed code that leaves the operand stack as it was, on every path. -/
def Balanced (ra : RegisterAllocator) (bs : List Bc) : Prop :=
  ∀ base, check ra base bs (some base) = some (some base) ∨ check ra base bs (some base) = some none

/-- Code that is reached by its labels only, and whose every path leaves it balanced. -/
def Closed (ra : RegisterAllocator) (bs : List Bc) : Prop :=
  ∀ base, check ra base bs none = some none

/-- A line that its successor follows. -/
def IsLine : Bc → Prop
  | .pushregister _ | .popregister _ | .iinc .. | .item (.op _) => True
  | _ => False

theorem flow_line {b : Bc} (h : b.IsLine) (ra : RegisterAllocator) (base s : StackTypes) :
    b.flow ra base (some s) = (b.types ra s).map some := by
  cases b with
  | item i =>
    cases i with
    | op => rfl
    | _ => cases h
  | pushregister | popregister | iinc => rfl
  | _ => cases h

section

variable {ra : RegisterAllocator} {l : Nat → Jvm.Value}

theorem LocalsHave.setLocal (h : LocalsHave ra l) (hr : ra.regToLocal r = some n)
    (hm : r = Reg.mem → v = .ref .memory) (ho : Reg.Ordinary r → ∃ x, v = .int x) :
    LocalsHave ra (Jvm.setLocal l n v) := by
  intro r' k hr'
  by_cases hk : k = n
  · subst hk
    cases ra.injective hr hr'
    rw [Jvm.setLocal_same]
    exact ⟨hm, ho⟩
  · rw [Jvm.setLocal_ne _ _ hk]
    exact h r' k hr'

theorem regToLocal_none (h : ra.regIsAllocated r = false) : ra.regToLocal r = none :=
  Option.isNone_iff_eq_none.mp (Option.isSome_eq_false_iff.mp h)

/-- A well-typed line on a stack of its types does not get stuck. -/
theorem exec_types (rt : Jvm.Runtime σ) {b : Bc} (h : b.types ra ts = some ts')
    (hs : StackHas s ts) (hl : LocalsHave ra l) (w : Jvm.World σ) :
    (Jvm.exec rt (b.lower ra) ⟨s, l, w⟩).Leaves
      (fun f => StackHas f.stack ts' ∧ LocalsHave ra f.locals) := by
  have hop (o : Op) {P : Jvm.Frame σ → Prop} (ho : (o.exec rt ⟨s, l, w⟩).Leaves P) :
      (Jvm.exec rt [.op o] ⟨s, l, w⟩).Leaves P := ho.bind fun f hf => hf
  cases b with
  | pushregister r =>
    rw [types, Option.map_eq_some_iff] at h
    obtain ⟨t, ht, rfl⟩ := h
    rw [pushType] at ht
    by_cases hz : r = Reg.zero ∨ ra.regIsAllocated r = false
    · rw [if_pos hz] at ht
      cases ht
      have hlow : lower ra (.pushregister r) = [.op (.iconst 0)] := by
        rw [lower]
        split
        · rfl
        · next hr =>
          rw [pushregisterItem, regToLocal_none (hz.resolve_left hr)]
      rw [hlow]
      exact hop _ (.of_ok rfl ⟨.cons (.int _) hs, hl⟩)
    · obtain ⟨hr, ha⟩ := not_or.mp hz
      obtain ⟨n, hn⟩ := Option.isSome_iff_exists.mp (Bool.eq_true_of_not_eq_false ha)
      rw [if_neg hz] at ht
      rw [lower, if_neg hr, pushregisterItem, hn]
      split at ht
      · cases ht
      · next hm =>
        cases ht
        dsimp only [localType]
        split
        · next hmem =>
          exact hop _ (.of_ok (Jvm.exec_aload rt s l w ((hl r n hn).1 hmem)) ⟨.cons .memory hs, hl⟩)
        · next hmem =>
          obtain ⟨v, hv⟩ := (hl r n hn).2 ⟨hmem, hm⟩
          exact hop _ (.of_ok (Jvm.exec_iload rt s l w hv) ⟨.cons (.int v) hs, hl⟩)
  | popregister r =>
    rw [types] at h
    split at h
    · next ha =>
      obtain ⟨n, hn⟩ := Option.isSome_iff_exists.mp ha
      split at h
      · next ht =>
        cases h
        cases hs with
        | nil => cases ht
        | @cons v t s ts hv hs =>
          cases ht
          rw [lower, hn]
          dsimp only
          rw [localType] at hv
          split at hv
          · next hmem =>
            cases hv
            rw [if_pos hmem]
            refine hop _ (.of_ok rfl ⟨hs, hl.setLocal hn (fun _ => rfl) fun ho => ?_⟩)
            exact absurd hmem ho.1
          · next hmem =>
            cases hv with
            | int x =>
              rw [if_neg hmem]
              exact hop _ (.of_ok rfl ⟨hs, hl.setLocal hn (fun h => absurd h hmem)
                fun _ => ⟨x, rfl⟩⟩)
      · cases h
    · next ha =>
      cases h
      rw [lower, regToLocal_none (Bool.eq_false_of_not_eq_true ha)]
      exact ⟨hs, hl⟩
  | iinc r k =>
    rw [types] at h
    split at h
    · next ha =>
      cases h
      obtain ⟨n, hn⟩ := Option.isSome_iff_exists.mp ha.1
      obtain ⟨v, hv⟩ := (hl r n hn).2 ha.2
      rw [lower, hn]
      refine hop _ (.of_ok (Jvm.exec_iinc rt s l w hv k) ⟨hs, hl.setLocal hn ?_ fun _ => ⟨_, rfl⟩⟩)
      exact fun h => absurd h ha.2.1
    · cases h
  | item i =>
    cases i with
    | op o =>
      have ho := Op.exec_types rt h hs l w
      refine hop o ?_
      generalize o.exec rt ⟨s, l, w⟩ = out at ho
      cases out with
      | ok f => exact ⟨ho.1, ho.2 ▸ hl⟩
      | throw => trivial
      | stuck => exact ho
    | _ => cases h
  | _ => cases h

theorem exec_lowerAll_cons (rt : Jvm.Runtime σ) (b : Bc) (bs : List Bc) (f : Jvm.Frame σ) :
    Jvm.exec rt (lowerAll ra (b :: bs)) f =
      (Jvm.exec rt (b.lower ra) f).bind (Jvm.exec rt (lowerAll ra bs)) := by
  rw [lowerAll_cons, Jvm.exec_append]

/-- Lines that are checked run without a type error, and leave the types that the check says. -/
theorem check_exec (rt : Jvm.Runtime σ) {bs : List Bc} (hb : ∀ b ∈ bs, b.IsLine)
    (h : check ra base bs (some ts) = some (some ts')) (hs : StackHas s ts)
    (hl : LocalsHave ra l) (w : Jvm.World σ) :
    (Jvm.exec rt (lowerAll ra bs) ⟨s, l, w⟩).Leaves
      (fun f => StackHas f.stack ts' ∧ LocalsHave ra f.locals) := by
  induction bs generalizing ts s l w with
  | nil =>
    cases h
    exact ⟨hs, hl⟩
  | cons b bs ih =>
    rw [check, flow_line (hb b (List.mem_cons_self ..))] at h
    cases ht : b.types ra ts with
    | none =>
      rw [ht] at h
      cases h
    | some ts₁ =>
      rw [ht] at h
      rw [exec_lowerAll_cons]
      refine (exec_types rt ht hs hl w).bind fun f hf => ?_
      exact ih (fun b hm => hb b (List.mem_cons_of_mem _ hm)) h hf.1 hf.2 f.world

end

end Bc

end Cibyl
