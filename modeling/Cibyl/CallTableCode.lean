import Cibyl.CallReturn

namespace Cibyl
set_option autoImplicit true

open Jvm (Value World Runtime External Item Op exec popArgs)
open Bc (lowerAll)
open RegisterAllocator (initialRegisters)

namespace Jvm

/-- Every operation outside the modelled code fails but `e` with the operands `args`. -/
def Runtime.only (e : External) (args : List Value) (vs : List Value) (w : World σ)
    (ht : vs.map Value.ty = e.result.toList) : Runtime σ where
  call e' args' w' := if e' = e ∧ args' = args then (.ok vs, w) else (.error .arithmetic, w')
  typed := by
    intro e' args' w' vs' w'' h
    split at h
    · next he =>
      cases h
      exact he.1 ▸ ht
    · cases h

def Runtime.failing (σ : Type) : Runtime σ where
  call _ _ w := (.error .arithmetic, w)
  typed := by
    intro e args w vs w' h
    cases h

theorem exec_external {rt : Runtime σ} {e : External} (hp : popArgs e.args s = some (args, s')) :
    Op.exec rt (.external e) ⟨s, l, w⟩ = match rt.call e args w with
      | (.ok vs, w') => .ok ⟨vs ++ s', l, w'⟩
      | (.error x, w') => .throw x w' := by
  rcases hr : rt.call e args w with ⟨_ | _, _⟩ <;> simp only [Op.exec, hp, hr]

/-- Code that runs through is made of operations. -/
theorem ops_of_exec {rt : Runtime σ} (h : exec rt c f = .ok f') : ∀ i ∈ c, ∃ o, i = .op o := by
  induction c generalizing f with
  | nil => exact List.forall_mem_nil _
  | cons i c ih =>
    cases i with
    | op o =>
      rw [exec_op] at h
      cases ho : o.exec rt f with
      | ok g =>
        rw [ho] at h
        exact List.forall_mem_cons.mpr ⟨⟨o, rfl⟩, ih h⟩
      | throw x w =>
        rw [ho] at h
        cases h
      | stuck =>
        rw [ho] at h
        cases h
    | _ => cases h

theorem Op.exec_congr {rt rt' : Runtime σ} {o : Op}
    (h : ∀ e, o = .external e → rt.call e = rt'.call e) (f : Frame σ) :
    o.exec rt f = o.exec rt' f := by
  rw [Op.exec.eq_def, Op.exec.eq_def]
  split <;> first
    | rfl
    | rw [h _ rfl]

/-- Two runtimes that agree on the operations of the code run it alike. -/
theorem exec_runtimes_agree {rt rt' : Runtime σ}
    (h : ∀ e, Item.op (.external e) ∈ c → rt.call e = rt'.call e) (f : Frame σ) :
    exec rt c f = exec rt' c f := by
  induction c generalizing f with
  | nil => rfl
  | cons i c ih =>
    have hc := ih (fun e he => h e (List.mem_cons_of_mem _ he))
    cases i with
    | op o =>
      have ho : o.exec rt f = o.exec rt' f :=
        Op.exec_congr (fun e he => h e (he ▸ List.mem_cons_self ..)) f
      rw [exec_op, exec_op, ho]
      cases o.exec rt' f with
      | ok g => exact hc g
      | _ => rfl
    | _ => rfl

/-- No code that calls an operation runs through where every one fails. -/
theorem exec_failing (h : exec (Runtime.failing σ) c f = .ok f') (e : External) :
    Item.op (.external e) ∉ c := by
  induction c generalizing f with
  | nil => exact List.not_mem_nil
  | cons i c ih =>
    obtain ⟨o, rfl⟩ := ops_of_exec h i (List.mem_cons_self ..)
    rw [exec_op] at h
    cases ho : o.exec (Runtime.failing σ) f with
    | ok g =>
      rw [ho] at h
      intro hm
      rcases List.mem_cons.mp hm with he | hm
      · cases he
        obtain ⟨s, l, w⟩ := f
        simp only [Op.exec] at ho
        split at ho <;> cases ho
      · exact ih h hm
    | throw x w =>
      rw [ho] at h
      cases h
    | stuck =>
      rw [ho] at h
      cases h

end Jvm

/-- The function at an address, as the lookups find it: its method and its place in the method. -/
structure FunctionAt (env : Env) (addr : Word) (m : JavaMethod) (idx : Nat) : Prop where
  method : env.getMethodByAddress addr = some m
  index : m.getFunctionIndexByAddress addr = some idx
  entry : ∃ fn, m.functions[idx]? = some fn ∧ fn.address = addr

namespace CallTableMethod

/-- The call table as a call of it names it. -/
def external (env : Env) : External :=
  ⟨env.jasminPackagePath ++ env.getClassByMethodName name ++ "/" ++ javaMethodName env,
    List.replicate 6 .int, returnTy env pass1⟩

/-- The parameter that `generateMethod` writes for a register. -/
def argument (idx : Nat) (sp a0 a1 a2 a3 : Word) (reg : Reg) : Value :=
  if reg = Reg.sp then .int sp else if reg = Reg.fna then .int (BitVec.ofNat 32 idx)
  else if reg = Reg.a0 then .int a0 else if reg = Reg.a1 then .int a1
  else if reg = Reg.a2 then .int a2 else .int a3

/-- `ret` behind the switch. It starts as zero, and an `int` is widened where it is a `long`. -/
def ret (env : Env) : List Value → Value
  | [.long v] => .long v
  | [.int v] => if env.config.threadSafe then .long (v.signExtend 64) else .int v
  | _ => if env.config.threadSafe then .long 0 else .int 0

/-- The method that `generateMethod` writes for `fns`, a switch over their addresses. Its default
throws `unknown`; there is no method where the translator panics. -/
def call (env : Env) (fns : List Function) (unknown : JavaException) (methods : Runtime σ) :
    List Value → World σ → Except JavaException (List Value) × World σ
  | [.int address, .int sp, .int a0, .int a1, .int a2, .int a3], w =>
    match fns.find? (fun fn => fn.address == address) with
    | none => (.error unknown, w)
    | some fn =>
      match env.getMethodByAddress fn.address with
      | none => (.error unknown, w)
      | some mt =>
        match mt.getFunctionIndexByAddress fn.address with
        | none => (.error unknown, w)
        | some idx =>
          match methods.call (mt.external env)
              ((mt.pass1 env).registersToPass.map (argument idx sp a0 a1 a2 a3)) w with
          | (.ok vs, w) => (.ok [ret env vs], w)
          | (.error x, w) => (.error x, w)
  | _, w => (.error unknown, w)

theorem ret_ty (env : Env) {p : MethodPass1} (h : vs.map Value.ty = (returnTy env p).toList) :
    [ret env vs].map Value.ty = (returnTy env pass1).toList := by
  have hl : returnTy env p = some .long → env.config.threadSafe = true := by
    rw [returnTy]
    split
    · exact fun _ => ‹_›
    · split <;> exact fun h => by cases h
  have hr : returnTy env pass1 = some (if env.config.threadSafe then .long else .int) := by
    rw [returnTy]
    split <;> rfl
  rw [hr]
  cases hp : returnTy env p with
  | none =>
    rw [hp] at h
    cases List.map_eq_nil_iff.mp h
    simp only [ret]
    split <;> rfl
  | some ty =>
    rw [hp] at h
    obtain ⟨v, rfl, hv⟩ := List.map_eq_singleton_iff.mp h
    cases v with
    | long v =>
      cases hv
      rw [hl hp]
      rfl
    | int v =>
      simp only [ret]
      split <;> rfl
    | _ =>
      simp only [ret]
      split <;> rfl

theorem call_typed {env : Env} {fns : List Function} {unknown : JavaException} {methods : Runtime σ}
    (h : call env fns unknown methods args w = (.ok vs, w')) :
    vs.map Value.ty = (returnTy env pass1).toList := by
  rw [call.eq_def] at h
  split at h
  · split at h
    · cases h
    · split at h
      · cases h
      · split at h
        · cases h
        · split at h
          · next he =>
            cases h
            exact ret_ty env (methods.typed _ _ _ _ _ he)
          · cases h
  · cases h

/-- The runtime of the translated methods with the call table among them. -/
def runtime (env : Env) (fns : List Function) (unknown : JavaException) (methods : Runtime σ) :
    Runtime σ where
  call e args w := if e = external env then call env fns unknown methods args w
    else methods.call e args w
  typed := by
    intro e args w vs w' h
    split at h
    · next he =>
      rw [he]
      exact call_typed h
    · exact methods.typed e args w vs w' h

theorem argument_eq (regs : RegFile) (idx : Nat) (h : r ∈ initialRegisters) :
    argument idx (regs.get Reg.sp) (regs.get Reg.a0) (regs.get Reg.a1) (regs.get Reg.a2)
      (regs.get Reg.a3) r = passedValue regs idx r := by
  simp only [initialRegisters, List.mem_cons, List.not_mem_nil, or_false] at h
  rcases h with rfl | rfl | rfl | rfl | rfl | rfl <;> rfl

/-- The registers the call table takes behind the address. -/
def passed : List Reg := [Reg.sp, Reg.a0, Reg.a1, Reg.a2, Reg.a3]

theorem registersToPass_eq : pass1.registersToPass = passed := by decide +kernel

theorem mem_initialRegisters {m : JavaMethod} (h : r ∈ (m.pass1 env).registersToPass) :
    r ∈ initialRegisters := by
  have ha := (((m.pass1 env).mem_registersToPass r).mp h).1
  rw [MethodPass1.registerIsArgument, List.contains_iff_mem] at ha
  exact (m.possibleArguments_prefix env (m.filled env)).subset ha

/-- The call table finds the function at an address it has, and calls its method. -/
theorem call_eq {env : Env} {fns : List Function} {m : JavaMethod} (hf : FunctionAt env addr m idx)
    (hm : ∃ fn ∈ fns, fn.address = addr) (unknown : JavaException) (methods : Runtime σ)
    (regs : RegFile) (w : World σ) :
    call env fns unknown methods (.int addr :: passed.map (fun r => .int (regs.get r))) w =
      match methods.call (m.external env)
        ((m.pass1 env).registersToPass.map (passedValue regs idx)) w with
      | (.ok vs, w) => (.ok [ret env vs], w)
      | (.error x, w) => (.error x, w) := by
  obtain ⟨fn, hfn, hfind⟩ : ∃ fn : Function, fn.address = addr ∧
      fns.find? (fun fn => fn.address == addr) = some fn := by
    obtain ⟨g, hg, ha⟩ := hm
    cases hfind : fns.find? (fun fn => fn.address == addr) with
    | none => exact absurd (beq_iff_eq.mpr ha) (List.find?_eq_none.mp hfind g hg)
    | some fn =>
      have h := List.find?_some hfind
      exact ⟨fn, beq_iff_eq.mp h, rfl⟩
  subst hfn
  have hargs : (m.pass1 env).registersToPass.map (argument idx (regs.get Reg.sp) (regs.get Reg.a0)
      (regs.get Reg.a1) (regs.get Reg.a2) (regs.get Reg.a3)) =
        (m.pass1 env).registersToPass.map (passedValue regs idx) :=
    List.map_congr_left fun r hr => argument_eq regs idx (mem_initialRegisters hr)
  simp only [passed, List.map_cons, List.map_nil, call, hfind, hf.method, hf.index, hargs]

theorem call_unknown {env : Env} {fns : List Function} (hm : ¬ ∃ fn ∈ fns, fn.address = addr)
    (unknown : JavaException) (methods : Runtime σ) (regs : RegFile) (w : World σ) :
    call env fns unknown methods (.int addr :: passed.map (fun r => .int (regs.get r))) w =
      (.error unknown, w) := by
  have hfind : fns.find? (fun fn => fn.address == addr) = none := by
    refine List.find?_eq_none.mpr fun fn hfn ha => ?_
    exact hm ⟨fn, hfn, beq_iff_eq.mp ha⟩
  simp only [passed, List.map_cons, List.map_nil, call, hfind]

/-- What the code behind the call takes from the call table for V0. -/
def value0 (p : MethodPass1) (x : Return σ) : Word := if p.returnSize ≥ 1 then x.v0 else 0

/-- V1 comes from the upper half of the `long`, or from `saved_v1`. -/
def value1 (env : Env) (p : MethodPass1) (x : Return σ) : Word :=
  if env.config.threadSafe then
    if p.returnSize = 2 then (packLong x.v1 x.v0).extractLsb' 32 32
    else if p.returnSize = 1 then (x.v0.signExtend 64).extractLsb' 32 32 else 0
  else (x.left env p).savedV1

theorem exec_popCall {ra : RegisterAllocator} (h₀ : Writable ra Reg.v0) (h₁ : Writable ra Reg.v1)
    {p : MethodPass1} (hp : p.returnSize ≤ 2) (rt : Runtime σ) (env : Env) (x : Return σ)
    (l : Nat → Value) (s : List Value) :
    exec rt (lowerAll ra (Instruction.popReturnValue env pass1))
        ⟨ret env (x.values env p) :: s, l, x.left env p⟩ =
      .ok ⟨s, writeLocals ra l [(Reg.v0, value0 p x), (Reg.v1, value1 env p x)], x.left env p⟩ := by
  cases ht : env.config.threadSafe with
  | true =>
    obtain ⟨v, hv, hl, hh⟩ : ∃ v : DWord, ret env (x.values env p) = .long v ∧
        v.extractLsb' 0 32 = value0 p x ∧ v.extractLsb' 32 32 = value1 env p x := by
      simp only [Return.values, value0, value1, ht, if_true]
      by_cases hp₂ : p.returnSize = 2
      · refine ⟨packLong x.v1 x.v0, ?_, ?_, ?_⟩
        · rw [if_pos hp₂, ret]
        · rw [packLong_low, hp₂]
          rfl
        · rw [if_pos hp₂]
      · by_cases hp₁ : p.returnSize = 1
        · refine ⟨x.v0.signExtend 64, ?_, ?_, ?_⟩
          · rw [if_neg hp₂, if_pos hp₁, ret, if_pos ht]
          · rw [hp₁]
            apply BitVec.eq_of_getLsbD_eq
            intro i hi
            simp only [BitVec.getLsbD_extractLsb', BitVec.getLsbD_signExtend, hi]
            grind
          · rw [if_neg hp₂, if_pos hp₁]
        · have hp₀ : p.returnSize = 0 := by omega
          refine ⟨0, ?_, ?_, ?_⟩
          · rw [if_neg hp₂, if_neg hp₁]
            simp only [ret, ht, if_true]
          · rw [hp₀]
            rfl
          · rw [hp₀]
            rfl
    rw [hv, popReturnValue_long ht rfl, splitLong_exec h₁ h₀ (by decide), hl, hh]
  | false =>
    have hv : ret env (x.values env p) = .int (value0 p x) := by
      simp only [Return.values, value0, ht, Bool.false_eq_true, if_false]
      split
      · simp only [ret, ht, Bool.false_eq_true, if_false]
      · simp only [ret, ht, Bool.false_eq_true, if_false]
    have hc : Instruction.popReturnValue env pass1 =
        [Emit.op .getSavedV1, .popregister Reg.v1, .popregister Reg.v0] := by
      simp only [Instruction.popReturnValue, ht, Bool.false_eq_true, if_false]
      rfl
    have hs : value1 env p x = (x.left env p).savedV1 := by
      simp only [value1, ht, Bool.false_eq_true, if_false]
    rw [hv, hc, exec_op (show Op.exec rt .getSavedV1 ⟨.int (value0 p x) :: s, l, x.left env p⟩ =
        .ok ⟨.int (value1 env p x) :: .int (value0 p x) :: s, l, x.left env p⟩ from hs ▸ rfl),
      exec_pop h₁, exec_pop h₀, writeLocals_append, ← writeLocals_swap ra l (by decide)]
    rfl

end CallTableMethod

end Cibyl
