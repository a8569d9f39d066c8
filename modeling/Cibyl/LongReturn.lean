import Cibyl.Machine
import Cibyl.UsageSound

namespace Cibyl
set_option autoImplicit true

open Jvm (Value World Runtime exec Config Item setLocal)
open Bc (lowerAll)

/-- The `long` that the emitted code makes of two registers: both are sign extended. -/
def packLong (high low : Word) : DWord := lshl (high.signExtend 64) 32 ||| low.signExtend 64

theorem packLong_low (high low : Word) : (packLong high low).extractLsb' 0 32 = low := by
  have hs : (32 : Word).toNat % 64 = 32 := rfl
  apply BitVec.eq_of_getLsbD_eq
  intro i hi
  rw [packLong, lshl, hs]
  simp only [BitVec.getLsbD_extractLsb', BitVec.getLsbD_or, BitVec.getLsbD_shiftLeft,
    BitVec.getLsbD_signExtend, hi]
  grind

theorem packLong_high (high low : Word) :
    (packLong high low).extractLsb' 32 32 = high ||| if low.msb then -1 else 0 := by
  have hs : (32 : Word).toNat % 64 = 32 := rfl
  have hm : (if low.msb then (-1 : Word) else 0) = BitVec.fill 32 low.msb := by
    cases low.msb <;> rfl
  apply BitVec.eq_of_getLsbD_eq
  intro i hi
  rw [packLong, lshl, hs, hm]
  have h₁ : 32 + i < 64 := by omega
  have h₂ : ¬ 32 + i < 32 := by omega
  have h₃ : 32 + i - 32 = i := by omega
  simp only [BitVec.getLsbD_extractLsb', BitVec.getLsbD_or, BitVec.getLsbD_shiftLeft,
    BitVec.getLsbD_signExtend, BitVec.getLsbD_fill, hi, h₁, h₂, h₃]
  grind

theorem append_halves (v : DWord) : v.extractLsb' 32 32 ++ v.extractLsb' 0 32 = v := by
  apply BitVec.eq_of_getLsbD_eq
  intro i hi
  simp only [BitVec.getLsbD_append, BitVec.getLsbD_extractLsb']
  grind

theorem packLong_of_nonneg (high : Word) (h : 0 ≤ low.toInt) : packLong high low = high ++ low := by
  have hm : low.msb = false := (BitVec.msb_eq_toInt ..).trans (decide_eq_false (Int.not_lt.mpr h))
  rw [← append_halves (packLong high low), packLong_low, packLong_high, hm]
  exact congrArg (· ++ low) BitVec.or_zero

theorem packLong_of_neg (high : Word) (h : low.toInt < 0) :
    packLong high low = (-1 : Word) ++ low := by
  have hm : low.msb = true := (BitVec.msb_eq_toInt ..).trans (decide_eq_true h)
  rw [← append_halves (packLong high low), packLong_low, packLong_high, hm]
  exact congrArg (· ++ low) BitVec.or_allOnes

/-- The sign of the low register does not reach the high one. -/
def Wide (high low : Word) : Prop := 0 ≤ low.toInt ∨ high = -1

theorem packLong_of_wide (h : Wide high low) : packLong high low = high ++ low := by
  rcases Int.lt_or_le low.toInt 0 with hn | hn
  · rw [packLong_of_neg high hn, h.resolve_left (Int.not_le.mpr hn)]
  · exact packLong_of_nonneg high hn

theorem packLong_high_iff (high low : Word) :
    (packLong high low).extractLsb' 32 32 = high ↔ Wide high low := by
  constructor
  · intro h
    rcases Int.lt_or_le low.toInt 0 with hn | hn
    · rw [packLong_of_neg high hn, high_append] at h
      exact .inr h.symm
    · exact .inl hn
  · intro h
    rw [packLong_of_wide h, high_append]

/-- The method returns `v`, with `w` as the state outside it. -/
def Jvm.Returns (rt : Runtime σ) (body : List Item) (c : Config σ) (v : Option Value)
    (w : World σ) : Prop :=
  ∃ d, Jvm.Runs rt body c d ∧ Jvm.step rt body d = .return_ v w

/-- A configuration that returns does so with one value. -/
theorem Jvm.Returns.unique {rt : Runtime σ} (h : Jvm.Returns rt body c v w)
    (h' : Jvm.Returns rt body c v' w') : v = v' ∧ w = w' := by
  obtain ⟨d, hd, hv⟩ := h
  obtain ⟨d', hd', hv'⟩ := h'
  induction hd using Relation.ReflTransGen.head_induction_on with
  | refl =>
    rcases hd'.cases_head with rfl | ⟨e, he, -⟩
    · cases hv.symm.trans hv'
      exact ⟨rfl, rfl⟩
    · cases hv.symm.trans he
  | head hs _ ih =>
    rcases hd'.cases_head with rfl | ⟨e, he, hr⟩
    · cases hs.symm.trans hv'
    · cases hs.symm.trans he
      exact ih hr

/-- The value that `bc_pushregister` pushes for a register: one without a local reads as zero. -/
def Reads (ra : RegisterAllocator) (l : Nat → Value) (r : Reg) (v : Word) : Prop :=
  match ra.regToLocal r with
  | none => v = 0
  | some n => l n = .int v

section

variable {ra : RegisterAllocator} {rt : Runtime σ} {l : Nat → Value} {w : World σ}

theorem exec_reads (hr : Reads ra l r v) (hm : r ≠ Reg.mem) (s : List Value) (bs : List Bc) :
    exec rt (lowerAll ra (.pushregister r :: bs)) ⟨s, l, w⟩ =
      exec rt (lowerAll ra bs) ⟨.int v :: s, l, w⟩ := by
  rw [Reads] at hr
  rw [Bc.lowerAll_cons, Bc.lower, Bc.pushregisterItem]
  cases hn : ra.regToLocal r with
  | none =>
    rw [hn] at hr
    cases hr
    split <;> rfl
  | some n =>
    rw [hn] at hr
    have hz : r ≠ Reg.zero := by
      rintro rfl
      rw [ra.zero_none] at hn
      cases hn
    rw [if_neg hz]
    simp only [if_neg hm, List.singleton_append, Jvm.exec_op, Jvm.exec_iload rt s l w hr,
      Jvm.Outcome.bind_ok]

theorem reads_writeLocals (hr : Writable ra r) (l : Nat → Value) (p : Reg × Word) (v : Word) :
    Reads ra (writeLocals ra l [p, (r, v)]) r v := by
  obtain ⟨n, hn⟩ := Option.isSome_iff_exists.mp hr.1
  rw [Reads, hn]
  simp only [writeLocals, hn]
  cases ra.regToLocal p.1 <;> exact Jvm.setLocal_same ..

theorem Reads.unique (h : Reads ra l r v) (h' : Reads ra l r v') : v = v' := by
  rw [Reads] at h h'
  cases hn : ra.regToLocal r with
  | none =>
    rw [hn] at h h'
    exact h.trans h'.symm
  | some n =>
    rw [hn] at h h'
    cases h.symm.trans h'
    rfl

/-- The thread-safe return packs V1 and V0 into the `long` that the method returns. -/
theorem returns_packLong {p : MethodPass1} (ht : env.config.threadSafe = true)
    (hp : p.returnSize = 2) (h₀ : Reads ra l Reg.v0 x₀) (h₁ : Reads ra l Reg.v1 x₁)
    (body : List Item) (s : List Value) (w : World σ) :
    Jvm.Returns rt body ⟨lowerAll ra (JavaMethod.returnCode env p), ⟨s, l, w⟩⟩
      (some (.long (packLong x₁ x₀))) w := by
  have hc : JavaMethod.returnCode env p =
      [.pushregister Reg.v1, Emit.op .i2l, Emit.pushconst 32, Emit.op (.longShift .lshl),
        .pushregister Reg.v0, Emit.op .i2l, Emit.op (.longOp .lor)] ++ [.item .lreturn] := by
    rw [JavaMethod.returnCode, if_pos ht, if_pos hp]
    rfl
  have hor : Jvm.LongOp.eval .lor (lshl (x₁.signExtend 64) 32) (x₀.signExtend 64) =
      .ok (packLong x₁ x₀) := rfl
  rw [hc, Bc.lowerAll_append]
  suffices h : exec rt _ ⟨s, l, w⟩ = .ok ⟨.long (packLong x₁ x₀) :: s, l, w⟩ from
    ⟨_, Jvm.Runs.of_exec h _, rfl⟩
  rw [exec_reads h₁ (by decide), exec_op (Jvm.exec_i2l ..), Bc.exec_pushconst,
    exec_op (Jvm.exec_longShift ..), exec_reads h₀ (by decide), exec_op (Jvm.exec_i2l ..),
    Jvm.LongShift.eval, exec_op (Jvm.exec_longOp rt _ _ _ hor)]
  rfl

end

/-- The method that the call `i` is of returns, and the code after the call leaves V0 and V1 of the
method in those of the caller. -/
def ReturnKept (rt : Runtime σ) (env : Env) (caller : JavaMethod) (i : Instruction)
    (body : List Item) (s s' : List Value) (l l' : Nat → Value) (w : World σ) (x₀ x₁ : Word) :
    Prop :=
  ∃ m v l'', i.dstMethod env = some m ∧
    Jvm.Returns rt body
      ⟨lowerAll (m.pass1 env).regalloc (JavaMethod.returnCode env (m.pass1 env)), ⟨s, l, w⟩⟩
      (some v) w ∧
    exec rt (lowerAll (caller.pass1 env).regalloc
      (Instruction.popReturnValue env (m.pass1 env))) ⟨v :: s', l', w⟩ = .ok ⟨s', l'', w⟩ ∧
    Reads (caller.pass1 env).regalloc l'' Reg.v0 x₀ ∧
    Reads (caller.pass1 env).regalloc l'' Reg.v1 x₁

/-- A call counts the registers of its result. -/
theorem JavaMethod.call_writable {caller : JavaMethod} (hi : i ∈ caller.insns env)
    (hk : i.kind = .jal ∨ i.kind = .jalr ∨ i.kind = .jalReturn) (hr : r = Reg.v0 ∨ r = Reg.v1) :
    Writable (caller.pass1 env).regalloc r := by
  have hz : r ≠ Reg.zero ∧ Reg.Ordinary r := by
    rcases hr with rfl | rfl <;> exact ⟨by decide, by decide, by decide⟩
  refine ⟨?_, hz.2⟩
  have hd : r ∈ i.fillDestinations env := by
    rw [Instruction.fillDestinations.eq_def]
    rcases hr with rfl | rfl <;> rcases hk with hk | hk | hk <;> rw [hk] <;> simp
  have hc := JavaMethod.counted_of_fills (JavaMethod.mem_fills hi (List.mem_append_left _ hd))
  exact (RegisterAllocator.setAllocation_isAllocated _ _).mpr (hc.resolve_left hz.1)

section

variable {m caller : JavaMethod} {i : Instruction}

theorem popReturnValue_long {p : MethodPass1} (ht : env.config.threadSafe = true)
    (hp : p.returnSize = 2) :
    Instruction.popReturnValue env p = Instruction.splitLong Reg.v1 Reg.v0 := by
  rw [Instruction.popReturnValue, if_pos ht, if_pos hp]

theorem ReturnKept.wide (ht : env.config.threadSafe = true) (hp : (m.pass1 env).returnSize = 2)
    (hi : i ∈ caller.insns env) (hk : i.kind = .jal ∨ i.kind = .jalReturn)
    (hd : i.dstMethod env = some m) (h₀ : Reads (m.pass1 env).regalloc l Reg.v0 x₀)
    (h₁ : Reads (m.pass1 env).regalloc l Reg.v1 x₁)
    (h : ReturnKept rt env caller i body s s' l l' w x₀ x₁) : Wide x₁ x₀ := by
  have hw {r : Reg} := JavaMethod.call_writable (r := r) hi (hk.imp_right .inr)
  obtain ⟨m', v, l'', hm, hr, he, -, hl⟩ := h
  cases hd.symm.trans hm
  cases (hr.unique (returns_packLong ht hp h₀ h₁ body s w)).1
  rw [popReturnValue_long ht hp, splitLong_exec (hw (.inr rfl)) (hw (.inl rfl)) (by decide)] at he
  cases he
  exact (packLong_high_iff x₁ x₀).mp ((reads_writeLocals (hw (.inr rfl)) ..).unique hl)

/-- Both halves survive exactly where the sign of V0 adds nothing to V1. -/
theorem long_return_kept_iff (ht : env.config.threadSafe = true)
    (hp : (m.pass1 env).returnSize = 2) (hi : i ∈ caller.insns env)
    (hk : i.kind = .jal ∨ i.kind = .jalReturn) (hd : i.dstMethod env = some m)
    (h₀ : Reads (m.pass1 env).regalloc l Reg.v0 x₀)
    (h₁ : Reads (m.pass1 env).regalloc l Reg.v1 x₁) (rt : Runtime σ) (body : List Item)
    (s s' : List Value) (l' : Nat → Value) (w : World σ) :
    ReturnKept rt env caller i body s s' l l' w x₀ x₁ ↔ 0 ≤ x₀.toInt ∨ x₁ = -1 := by
  constructor
  · intro h
    exact h.wide ht hp hi hk hd h₀ h₁
  · intro h
    have hw {r : Reg} := JavaMethod.call_writable (r := r) hi (hk.imp_right .inr)
    have hsplit : exec rt (lowerAll (caller.pass1 env).regalloc
        (Instruction.splitLong Reg.v1 Reg.v0)) ⟨.long (packLong x₁ x₀) :: s', l', w⟩ = _ :=
      splitLong_exec (hw (.inr rfl)) (hw (.inl rfl)) (by decide) s' (packLong x₁ x₀)
    rw [packLong_low, (packLong_high_iff x₁ x₀).mpr h] at hsplit
    refine ⟨m, _, _, hd, returns_packLong ht hp h₀ h₁ body s w,
      popReturnValue_long ht hp ▸ hsplit, ?_, reads_writeLocals (hw (.inr rfl)) ..⟩
    rw [writeLocals_swap _ _ (by decide)]
    exact reads_writeLocals (hw (.inl rfl)) ..

end

theorem Holds.reads (hl : Holds ra regs l) (hr : Writable ra r) : Reads ra l r (regs.get r) := by
  obtain ⟨n, hn⟩ := Option.isSome_iff_exists.mp hr.1
  rw [Reads, hn]
  exact hl r n hn hr.2

/-- A function that calls itself, as its own method. -/
def recursiveWords : List Word := [0x0c000400, 0, 0x03e00008, 0]

def recursiveArray : List Entry := (Controller.pass0 0x1000 recursiveWords).getD []

theorem recursive_pass0 : Controller.pass0 0x1000 recursiveWords = some recursiveArray := rfl

def recursiveMethod : JavaMethod :=
  ⟨(Function.ofSymbol "ll_ret_test" false recursiveArray
    (Controller.pass0_attached recursive_pass0) 0 3).toList, by decide⟩

def recursiveEnv : Env := .single { threadSafe := true } recursiveMethod

def recursiveCall : Instruction := ⟨.jal, 0x1000, .jal, 0, 0, 0, 0x400⟩

def recursiveAlloc : RegisterAllocator := (recursiveMethod.pass1 recursiveEnv).regalloc

theorem recursive_call : recursiveEnv.config.threadSafe = true ∧
    (recursiveMethod.pass1 recursiveEnv).returnSize = 2 ∧
    recursiveCall ∈ recursiveMethod.insns recursiveEnv ∧
    recursiveCall.dstMethod recursiveEnv = some recursiveMethod :=
  ⟨rfl, by decide +kernel, by decide, rfl⟩

/-- The locals when V1 and V0 hold the halves of a value. -/
def returnLocals (x₁ x₀ : Word) : Nat → Value :=
  localsFor recursiveAlloc ⟨fun r => if r = Reg.v0 then x₀ else if r = Reg.v1 then x₁ else 0, rfl⟩

theorem returnLocals_reads (x₁ x₀ : Word) : Reads recursiveAlloc (returnLocals x₁ x₀) Reg.v0 x₀ ∧
    Reads recursiveAlloc (returnLocals x₁ x₀) Reg.v1 x₁ := by
  have hw {r : Reg} := JavaMethod.call_writable (r := r) recursive_call.2.2.1 (.inl rfl)
  have hl : Holds recursiveAlloc _ (returnLocals x₁ x₀) := holds_localsFor recursiveAlloc _
  exact ⟨hl.reads (hw (.inl rfl)), hl.reads (hw (.inr rfl))⟩

theorem long_return_kept_small :
    ReturnKept Runtime.absent recursiveEnv recursiveMethod recursiveCall [] [] []
      (returnLocals 0xf0000000 0x0fffffff) (fun _ => .int 0) ⟨⟨[], by decide⟩, 0, ()⟩
      0x0fffffff 0xf0000000 :=
  have hr := recursive_call
  have hv := returnLocals_reads 0xf0000000 0x0fffffff
  (long_return_kept_iff hr.1 hr.2.1 hr.2.2.1 (.inl rfl) hr.2.2.2 hv.1 hv.2 _ _ _ _ _ _).mpr
    (.inl (by decide))

/-- A result of 0x00000000ffffffff comes back as 0xffffffffffffffff. -/
theorem long_return_lost :
    ¬ ReturnKept Runtime.absent recursiveEnv recursiveMethod recursiveCall [] [] []
      (returnLocals 0 0xffffffff) (fun _ => .int 0) ⟨⟨[], by decide⟩, 0, ()⟩ 0xffffffff 0 := by
  intro h
  have hr := recursive_call
  have hv := returnLocals_reads 0 0xffffffff
  have hw : Wide 0 0xffffffff := h.wide hr.1 hr.2.1 hr.2.2.1 (.inl rfl) hr.2.2.2 hv.1 hv.2
  rcases hw with hw | hw <;> exact absurd hw (by decide)

end Cibyl
