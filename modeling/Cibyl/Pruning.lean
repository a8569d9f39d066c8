import Cibyl.ArgumentPassing
import Cibyl.UsageSound

namespace Cibyl
set_option autoImplicit true

/-- The argument registers of MIPS. -/
def Reg.arguments : List Reg := [Reg.a0, Reg.a1, Reg.a2, Reg.a3]

namespace Function

/-- The arguments that the prototype of the function has, where it is known. -/
def declaredArgs (env : Env) (fn : Function) : Option Nat :=
  (env.getSymbolByAddr fn.address).bind ElfSymbol.nArgs

/-- The result registers of the prototype, which are two at most. -/
def declaredReturn (env : Env) (fn : Function) : Option Nat :=
  ((env.getSymbolByAddr fn.address).bind ElfSymbol.retSize).filter (· ≤ 2)

end Function

namespace JavaMethod

/-- What its functions declare and read reaches the method, and what they declare to return leaves
it. -/
structure PruningSound (env : Env) (m : JavaMethod) : Prop where
  arguments : ∀ fn ∈ m.functions, ∀ k, fn.declaredArgs env = some k → ∀ r ∈ Reg.arguments.take k,
    r ∈ fn.fillSources env → r ∈ (m.pass1 env).registersToPass
  returns : ∀ fn ∈ m.functions, ∀ k, fn.declaredReturn env = some k → k ≤ (m.pass1 env).returnSize

/-- The result registers that the functions of the method use. -/
def usedReturn (env : Env) (m : JavaMethod) : Nat :=
  if 0 < (m.filled env).count Reg.v0 then if 0 < (m.filled env).count Reg.v1 then 2 else 1 else 0

/-- The prototype at the highest address covers those of all functions. -/
structure LastDominates (env : Env) (m : JavaMethod) : Prop where
  arguments : ∀ n, (env.getSymbolByAddr m.address).bind ElfSymbol.nArgs = some n →
    ∀ fn ∈ m.functions, ∀ k, fn.declaredArgs env = some k → ∀ r ∈ Reg.arguments.take k,
      r ∈ fn.fillSources env → r ∈ Reg.arguments.take n
  returns : ∀ fn ∈ m.functions, ∀ k, fn.declaredReturn env = some k →
    k ≤ (((env.getSymbolByAddr m.address).bind ElfSymbol.retSize).filter (· ≤ 2)).getD
      (m.usedReturn env)

/-- The list ends behind the last declared argument. -/
theorem mem_truncateArguments (n : Nat) (hr : r ∈ Reg.arguments) :
    r ∈ (truncateArguments n).takeWhile (· ≠ Reg.zero) ↔ r ∈ Reg.arguments.take n := by
  match n with
  | 0 | 1 | 2 | 3 =>
    revert r
    decide
  | n + 4 =>
    refine iff_of_true ?_ (by rw [List.take_of_length_le (by simp [Reg.arguments])]; exact hr)
    change r ∈ allArguments.takeWhile _
    revert r
    decide

theorem mem_allArguments (hr : r ∈ Reg.arguments) :
    r ∈ allArguments.takeWhile (· ≠ Reg.zero) := by
  revert r
  decide

section

variable {env : Env} {m : JavaMethod} {fn : Function} {r : Reg}

theorem count_of_source (hf : fn ∈ m.functions) (hr : r ∈ fn.fillSources env) (hz : r ≠ Reg.zero) :
    0 < (m.pass1 env).registerUsage.count r :=
  count_pos_of_filled ((RegisterUsage.pos_addAll _ _ _).mpr
    (.inr ⟨List.mem_flatMap.mpr ⟨fn, hf, List.mem_append_right _ hr⟩, hz⟩))

theorem symbol_of_optimize (h : env.config.optimizeFunctionReturnArguments = true) :
    m.symbol env = env.getSymbolByAddr m.address := if_pos h

/-- An argument register that a function reads is passed if the prototype that is used has it. -/
theorem source_passed_iff (ho : env.config.optimizeFunctionReturnArguments = true)
    (hf : fn ∈ m.functions) (hr : r ∈ fn.fillSources env) (ha : r ∈ Reg.arguments) :
    r ∈ (m.pass1 env).registersToPass ↔
      ∀ n, (env.getSymbolByAddr m.address).bind ElfSymbol.nArgs = some n →
        r ∈ Reg.arguments.take n := by
  have hz : r ≠ Reg.zero := by
    rintro rfl
    exact absurd ha (by decide)
  rw [MethodPass1.mem_registersToPass, and_iff_left (count_of_source hf hr hz),
    MethodPass1.registerIsArgument, List.contains_iff_mem]
  rw [pass1, possibleArguments_eq, symbol_of_optimize ho]
  cases (env.getSymbolByAddr m.address).bind ElfSymbol.nArgs with
  | none => exact iff_of_true (mem_allArguments ha) fun n hn => by cases hn
  | some n =>
    refine (mem_truncateArguments n ha).trans ?_
    exact ⟨fun h k hk => Option.some.inj hk ▸ h, fun h => h n rfl⟩

theorem usage_count (env : Env) (m : JavaMethod) (hr : r ≠ Reg.fna) :
    (if m.hasMultipleFunctions then (m.filled env).add Reg.fna else m.filled env).count r =
      (m.filled env).count r := by
  split
  · exact if_neg fun h => hr h.1
  · rfl

/-- The size that the prototype at the highest address gives, or the use of V0 and V1. -/
theorem returnSize_eq (ho : env.config.optimizeFunctionReturnArguments = true) :
    (m.pass1 env).returnSize =
      (((env.getSymbolByAddr m.address).bind ElfSymbol.retSize).filter (· ≤ 2)).getD
        (m.usedReturn env) := by
  change setReturnSize _ (m.symbol env) = _
  have hused : (if 0 < (m.filled env).count Reg.v0 ∧ 0 < (m.filled env).count Reg.v1 then 2
      else if 0 < (m.filled env).count Reg.v0 then 1 else 0) = m.usedReturn env := by
    rw [usedReturn]
    by_cases h₀ : 0 < (m.filled env).count Reg.v0
    · by_cases h₁ : 0 < (m.filled env).count Reg.v1
      · rw [if_pos ⟨h₀, h₁⟩, if_pos h₀, if_pos h₁]
      · rw [if_neg fun h => h₁ h.2, if_pos h₀, if_pos h₀, if_neg h₁]
    · rw [if_neg fun h => h₀ h.1, if_neg h₀, if_neg h₀]
  rw [setReturnSize, symbol_of_optimize ho, usage_count env m (by decide),
    usage_count env m (by decide), ← hused]
  cases (env.getSymbolByAddr m.address).bind ElfSymbol.retSize with
  | none => rfl
  | some n =>
    by_cases hn : n ≤ 2
    · rw [Option.filter_some_pos (by simpa using hn)]
      exact if_pos hn
    · rw [Option.filter_some_neg (by simpa using hn)]
      exact if_neg hn

/-- The arguments and results of a method are those of one prototype. -/
theorem pruning_sound_iff (m : JavaMethod)
    (ho : env.config.optimizeFunctionReturnArguments = true) :
    m.PruningSound env ↔ m.LastDominates env := by
  constructor
  · intro h
    refine ⟨fun n hn fn hf k hk r hr hs => ?_, fun fn hf k hk => ?_⟩
    · have ha := List.mem_of_mem_take hr
      exact (source_passed_iff ho hf hs ha).mp (h.arguments fn hf k hk r hr hs) n hn
    · rw [← returnSize_eq ho]
      exact h.returns fn hf k hk
  · intro h
    refine ⟨fun fn hf k hk r hr hs => ?_, fun fn hf k hk => ?_⟩
    · refine (source_passed_iff ho hf hs (List.mem_of_mem_take hr)).mpr fun n hn => ?_
      exact h.arguments n hn fn hf k hk r hr hs
    · rw [returnSize_eq ho]
      exact h.returns fn hf k hk

end

end JavaMethod

/-- `f` returns its argument, and `g` behind it does nothing. -/
def colocatedWords : List Word := [0x00801021, 0x03e00008, 0, 0x03e00008, 0]

def colocatedArray : List Entry := (Controller.pass0 0x1000 colocatedWords).getD []

theorem colocated_pass0 : Controller.pass0 0x1000 colocatedWords = some colocatedArray := rfl

def colocatedMethod : JavaMethod :=
  ⟨(Function.ofSymbol "f" false colocatedArray (Controller.pass0_attached colocated_pass0) 0
      2).toList ++
    (Function.ofSymbol "g" false colocatedArray (Controller.pass0_attached colocated_pass0) 3
      4).toList, by decide⟩

/-- The prototypes `int f(int)`, and for `g` the given one. -/
def colocatedEnv (g : ElfSymbol) : Env :=
  { Env.single { optimizeFunctionReturnArguments := true } colocatedMethod with
    getSymbolByAddr a := if a = 0x1000 then some ⟨some 1, some 1⟩ else some g }

theorem pruning_sound_same : colocatedMethod.PruningSound (colocatedEnv ⟨some 1, some 1⟩) := by
  have hsym (a : Word) : (colocatedEnv ⟨some 1, some 1⟩).getSymbolByAddr a =
    some ⟨some 1, some 1⟩ :=
    ite_self _
  refine (colocatedMethod.pruning_sound_iff rfl).mpr ⟨fun n hn fn _ k hk r hr _ => ?_, ?_⟩
  · rw [hsym] at hn
    rw [Function.declaredArgs, hsym] at hk
    cases hn
    cases hk
    exact hr
  · intro fn _ k hk
    rw [Function.declaredReturn, hsym] at hk
    rw [hsym]
    cases hk
    exact Nat.le_refl _

/-- `f` does not get its argument, and the method returns nothing, as `void g(void)` does. -/
theorem pruned_by_last :
    Controller.pass0 0x1000 colocatedWords = some colocatedArray ∧
    colocatedMethod.Made colocatedArray ∧ colocatedMethod.hasMultipleFunctions = true ∧
    ¬ colocatedMethod.PruningSound (colocatedEnv ⟨some 0, some 0⟩) := by
  refine ⟨colocated_pass0, ⟨Controller.pass0_attached colocated_pass0, fun fn hf => ?_⟩, by decide,
    fun h => ?_⟩
  · rcases List.mem_append.mp hf with hf | hf
    · exact ⟨_, _, _, _, Option.mem_toList.mp hf⟩
    · exact ⟨_, _, _, _, Option.mem_toList.mp hf⟩
  · have hf : colocatedMethod.functions.head colocatedMethod.nonempty ∈ colocatedMethod.functions :=
      List.head_mem _
    exact absurd (h.returns _ hf 1 (by decide)) (by decide)

end Cibyl
