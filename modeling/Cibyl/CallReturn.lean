import Cibyl.LongReturn

namespace Cibyl
set_option autoImplicit true

open Jvm (Value World Runtime External exec)
open Bc (lowerAll)

/-- The method as a call of it names it. -/
def JavaMethod.external (env : Env) (m : JavaMethod) : External :=
  ⟨env.jasminPackagePath ++ env.getClassByMethodName m.name ++ "/" ++
      m.getJavaMethodName env (m.pass1 env),
    List.replicate (m.pass1 env).nRegistersToPass .int, returnTy env (m.pass1 env)⟩

/-- A function where it returns: its V0 and V1 and the state outside its method. -/
structure Return (σ : Type) where
  v0 : Word
  v1 : Word
  world : World σ

namespace Return

/-- What its method returns. -/
def values (env : Env) (p : MethodPass1) (x : Return σ) : List Value :=
  if env.config.threadSafe then
    if p.returnSize = 2 then [.long (packLong x.v1 x.v0)]
    else if p.returnSize = 1 then [.int x.v0] else []
  else if p.returnSize ≥ 1 then [.int x.v0] else []

/-- The state its method leaves, with V1 in `saved_v1` where the method returns both. -/
def left (env : Env) (p : MethodPass1) (x : Return σ) : World σ :=
  if env.config.threadSafe = false ∧ p.returnSize = 2 then { x.world with savedV1 := x.v1 }
  else x.world

/-- The registers that the code behind the call assigns. -/
def assigned (env : Env) (p : MethodPass1) (x : Return σ) : List (Reg × Word) :=
  if p.returnSize = 2 then
    [(Reg.v0, x.v0), (Reg.v1,
      if env.config.threadSafe then (packLong x.v1 x.v0).extractLsb' 32 32 else x.v1)]
  else if p.returnSize = 1 then [(Reg.v0, x.v0)] else []

theorem values_ty (env : Env) (p : MethodPass1) (x : Return σ) :
    (x.values env p).map Value.ty = (returnTy env p).toList := by
  rw [values, returnTy]
  repeat' split
  all_goals rfl

end Return

theorem JavaMethod.returnSize_le (env : Env) (m : JavaMethod) : (m.pass1 env).returnSize ≤ 2 := by
  change setReturnSize _ _ ≤ 2
  generalize (m.pass1 env).registerUsage = u
  rw [setReturnSize]
  repeat' split
  all_goals omega

section

variable {ra : RegisterAllocator} {rt : Runtime σ} {l : Nat → Value} {p : MethodPass1}

/-- The code at the end of a method hands back the registers of the function. -/
theorem returns_handed {x : Return σ} (h₀ : Reads ra l Reg.v0 x.v0) (h₁ : Reads ra l Reg.v1 x.v1)
    (env : Env) (p : MethodPass1) (body : List Jvm.Item) (s : List Value) :
    Jvm.Returns rt body ⟨lowerAll ra (JavaMethod.returnCode env p), ⟨s, l, x.world⟩⟩
      (x.values env p).head? (x.left env p) := by
  cases ht : env.config.threadSafe with
  | true =>
    by_cases hp : p.returnSize = 2
    · have h : Jvm.Returns rt body _ _ _ := returns_packLong ht hp h₀ h₁ body s x.world
      simpa [Return.values, Return.left, ht, hp] using h
    · by_cases hp₁ : p.returnSize = 1
      · have hx : exec rt (lowerAll ra [.pushregister Reg.v0]) ⟨s, l, x.world⟩ =
            .ok ⟨.int x.v0 :: s, l, x.world⟩ := exec_reads h₀ (by decide) s []
        have hc : JavaMethod.returnCode env p = [.pushregister Reg.v0] ++ [.item .ireturn] := by
          simp [JavaMethod.returnCode, ht, hp₁]
        rw [hc, Bc.lowerAll_append]
        refine ⟨_, Jvm.Runs.of_exec hx _, ?_⟩
        simp only [Return.values, Return.left, ht, hp₁, if_true]
        rfl
      · have hc : JavaMethod.returnCode env p = [.item .return_] := by
          simp [JavaMethod.returnCode, ht, hp, hp₁]
        rw [hc]
        refine ⟨_, Jvm.Runs.refl _, ?_⟩
        simp only [Return.values, Return.left, ht, hp, hp₁, if_true, if_false]
        rfl
  | false =>
    by_cases hp : p.returnSize = 2
    · have hx : exec rt (lowerAll ra [.pushregister Reg.v1, Emit.op .putSavedV1,
          .pushregister Reg.v0]) ⟨s, l, x.world⟩ =
            .ok ⟨.int x.v0 :: s, l, { x.world with savedV1 := x.v1 }⟩ := by
        rw [exec_reads h₁ (by decide), exec_op (show Jvm.Op.exec rt .putSavedV1 _ = .ok _ from rfl)]
        exact exec_reads h₀ (by decide) s []
      have hc : JavaMethod.returnCode env p = [.pushregister Reg.v1, Emit.op .putSavedV1,
          .pushregister Reg.v0] ++ [.item .ireturn] := by
        simp [JavaMethod.returnCode, ht, hp]
      rw [hc, Bc.lowerAll_append]
      refine ⟨_, Jvm.Runs.of_exec hx _, ?_⟩
      simp [Return.values, Return.left, ht, hp]
      rfl
    · by_cases hp₁ : p.returnSize ≥ 1
      · have hx : exec rt (lowerAll ra [.pushregister Reg.v0]) ⟨s, l, x.world⟩ =
            .ok ⟨.int x.v0 :: s, l, x.world⟩ := exec_reads h₀ (by decide) s []
        have hc : JavaMethod.returnCode env p = [.pushregister Reg.v0] ++ [.item .ireturn] := by
          simp [JavaMethod.returnCode, ht, hp, hp₁]
        rw [hc, Bc.lowerAll_append]
        refine ⟨_, Jvm.Runs.of_exec hx _, ?_⟩
        simp [Return.values, Return.left, ht, hp, hp₁]
        rfl
      · have hc : JavaMethod.returnCode env p = [.item .return_] := by
          simp [JavaMethod.returnCode, ht, hp, hp₁]
        rw [hc]
        refine ⟨_, Jvm.Runs.refl _, ?_⟩
        simp [Return.values, Return.left, ht, hp, hp₁]
        rfl

/-- The code behind a call takes over what the method has handed back. -/
theorem exec_popReturnValue (h₀ : Writable ra Reg.v0) (h₁ : Writable ra Reg.v1)
    (hp : p.returnSize ≤ 2) (env : Env) (x : Return σ) (s : List Value) :
    exec rt (lowerAll ra (Instruction.popReturnValue env p))
        ⟨x.values env p ++ s, l, x.left env p⟩ =
      .ok ⟨s, writeLocals ra l (x.assigned env p), x.left env p⟩ := by
  have hpop : exec rt (lowerAll ra [.popregister Reg.v0]) ⟨.int x.v0 :: s, l, x.left env p⟩ =
      .ok ⟨s, writeLocals ra l [(Reg.v0, x.v0)], x.left env p⟩ := by
    rw [exec_pop h₀]
    rfl
  cases ht : env.config.threadSafe with
  | true =>
    by_cases hp₂ : p.returnSize = 2
    · rw [popReturnValue_long ht hp₂]
      simp only [Return.values, Return.assigned, ht, hp₂, if_true]
      rw [List.singleton_append, splitLong_exec h₁ h₀ (by decide), packLong_low]
    · by_cases hp₁ : p.returnSize = 1
      · simpa [Instruction.popReturnValue, Return.values, Return.assigned, ht, hp₁] using hpop
      · simp [Instruction.popReturnValue, Return.values, Return.assigned, ht, hp₁, hp₂,
          writeLocals]
  | false =>
    by_cases hp₂ : p.returnSize = 2
    · have hx : exec rt (lowerAll ra [Emit.op .getSavedV1, .popregister Reg.v1,
          .popregister Reg.v0]) ⟨.int x.v0 :: s, l, x.left env p⟩ =
            .ok ⟨s, writeLocals ra l [(Reg.v0, x.v0), (Reg.v1, x.v1)], x.left env p⟩ := by
        have hs : (x.left env p).savedV1 = x.v1 := by
          simp [Return.left, ht, hp₂]
        rw [exec_op (show Jvm.Op.exec rt .getSavedV1 ⟨.int x.v0 :: s, l, x.left env p⟩ =
            .ok ⟨.int x.v1 :: .int x.v0 :: s, l, x.left env p⟩ from hs ▸ rfl),
          exec_pop h₁, exec_pop h₀, writeLocals_append, ← writeLocals_swap ra l (by decide)]
        rfl
      simpa [Instruction.popReturnValue, Return.values, Return.assigned, ht, hp₂] using hx
    · by_cases hp₁ : p.returnSize = 1
      · simpa [Instruction.popReturnValue, Return.values, Return.assigned, ht, hp₁] using hpop
      · have hp₀ : p.returnSize = 0 := by omega
        simp [Instruction.popReturnValue, Return.values, Return.assigned, ht, hp₀,
          writeLocals]

end

end Cibyl
