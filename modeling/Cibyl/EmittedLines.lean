import Cibyl.DeadLocals
import Cibyl.RegisterWrites

namespace Cibyl
set_option autoImplicit true

open Jvm (Op Item Value)
open Emit (op intOp pushconst pushconst_u pushconst_l pushaddress pushindex)

/-- The operand fits the line. -/
def Jvm.Item.fits : Item → Bool
  | op (.bipush n) => -128 ≤ n ∧ n ≤ 127
  | op (.sipush n) | op (.iinc _ n) => -32768 ≤ n ∧ n ≤ 32767
  | _ => true

/-- A line that belongs to no subroutine and no handler, and is one. -/
def Jvm.Item.inline : Item → Bool
  | jsr _ | ret _ | catch_ .. | abort => false
  | _ => true

attribute [local simp] Op.writes Item.writes Op.reads Item.reads Item.fits Item.inline

namespace Bc

/-- A finished line names no local, and its operand fits. What a line counts up is in `ok`, and
subroutines, handlers and a translation that is given up are there under `P` only. -/
def Emitted (ok : Reg → Prop) (P : Prop) : Bc → Prop
  | .item i => i.reads = [] ∧ i.writes = none ∧ i.fits = true ∧ (i.inline = true ∨ P)
  | .iinc r k => ok r ∧ -32768 ≤ k ∧ k ≤ 32767
  | .astore _ | .ret _ => P
  | _ => True

def EmittedLines (ok : Reg → Prop) (P : Prop) (bs : List Bc) : Prop := ∀ b ∈ bs, b.Emitted ok P

section

variable {bs cs : List Bc} {ok : Reg → Prop} {P : Prop} {ra : RegisterAllocator}

@[simp] theorem emittedLines_nil : EmittedLines ok P [] := List.forall_mem_nil _

@[simp] theorem emittedLines_append :
    EmittedLines ok P (bs ++ cs) ↔ EmittedLines ok P bs ∧ EmittedLines ok P cs :=
  List.forall_mem_append

@[simp] theorem emittedLines_cons :
    EmittedLines ok P (b :: bs) ↔ b.Emitted ok P ∧ EmittedLines ok P bs := List.forall_mem_cons

theorem emittedLines_flatMap {xs : List α} {f : α → List Bc}
    (h : ∀ x ∈ xs, EmittedLines ok P (f x)) : EmittedLines ok P (xs.flatMap f) := by
  intro b hb
  obtain ⟨x, hx, hb⟩ := List.mem_flatMap.mp hb
  exact h x hx b hb

theorem emittedLines_map {xs : List α} {f : α → Bc} (h : ∀ x, (f x).Emitted ok P) :
    EmittedLines ok P (xs.map f) := by
  intro b hb
  obtain ⟨x, -, rfl⟩ := List.mem_map.mp hb
  exact h x

theorem EmittedLines.mono {P' : Prop} (h : EmittedLines ok P bs) (hok : ∀ r, ok r → ok' r)
    (hP : P → P') : EmittedLines ok' P' bs := by
  intro b hb
  have hb := h b hb
  cases b with
  | item i => exact ⟨hb.1, hb.2.1, hb.2.2.1, hb.2.2.2.imp_right hP⟩
  | iinc r k => exact ⟨hok r hb.1, hb.2⟩
  | astore r | ret r => exact hP hb
  | pushregister r | popregister r => trivial

@[simp] theorem emitted_pushregister (r : Reg) : (pushregister r).Emitted ok P := trivial

@[simp] theorem emitted_popregister (r : Reg) : (popregister r).Emitted ok P := trivial

@[simp] theorem emitted_iinc (r : Reg) (k : Int) :
    (iinc r k).Emitted ok P ↔ ok r ∧ -32768 ≤ k ∧ k ≤ 32767 := Iff.rfl

@[simp] theorem emitted_astore (r : Reg) : (astore r).Emitted ok P ↔ P := Iff.rfl

@[simp] theorem emitted_ret (r : Reg) : (ret r).Emitted ok P ↔ P := Iff.rfl

@[simp] theorem emitted_item (i : Item) : (item i).Emitted ok P ↔
    i.reads = [] ∧ i.writes = none ∧ i.fits = true ∧ (i.inline = true ∨ P) := Iff.rfl

@[simp] theorem emitted_op (o : Op) : (op o).Emitted ok P ↔
    o.reads = [] ∧ o.writes = none ∧ (Item.op o).fits = true :=
  ⟨fun h => ⟨h.1, h.2.1, h.2.2.1⟩, fun h => ⟨h.1, h.2.1, h.2.2, .inl rfl⟩⟩

@[simp] theorem emitted_intOp (o : Jvm.IntOp) : (intOp o).Emitted ok P :=
  ⟨rfl, rfl, rfl, .inl rfl⟩

@[simp] theorem emitted_pushconst (v : Word) : (pushconst v).Emitted ok P := by
  rw [pushconst]
  split
  · exact ⟨rfl, rfl, rfl, .inl rfl⟩
  split
  · exact ⟨rfl, rfl, rfl, .inl rfl⟩
  split
  · next h => exact ⟨rfl, rfl, decide_eq_true h, .inl rfl⟩
  split
  · next h => exact ⟨rfl, rfl, decide_eq_true h, .inl rfl⟩
  · exact ⟨rfl, rfl, rfl, .inl rfl⟩

@[simp] theorem emitted_pushconst_u (v : Word) : (pushconst_u v).Emitted ok P := by
  rw [pushconst_u]
  split
  · exact ⟨rfl, rfl, rfl, .inl rfl⟩
  split
  · next h =>
    have hr : -128 ≤ (v.toNat : Int) ∧ (v.toNat : Int) ≤ 127 := by omega
    exact ⟨rfl, rfl, decide_eq_true hr, .inl rfl⟩
  split
  · next h =>
    have hr : -32768 ≤ (v.toNat : Int) ∧ (v.toNat : Int) ≤ 32767 := by omega
    exact ⟨rfl, rfl, decide_eq_true hr, .inl rfl⟩
  · exact ⟨rfl, rfl, rfl, .inl rfl⟩

@[simp] theorem emitted_pushconst_l (v : DWord) : (pushconst_l v).Emitted ok P :=
  ⟨rfl, rfl, rfl, .inl rfl⟩

@[simp] theorem emittedLines_pushaddress (r : Reg) (extra : Word) :
    EmittedLines ok P (pushaddress r extra) := by
  rw [pushaddress]
  split <;> simp

@[simp] theorem emittedLines_pushindex (r : Reg) (extra : Word) :
    EmittedLines ok P (pushindex r extra) := by
  rw [pushindex]
  split
  · simp
  · split <;> simp

/-- The finished lines are as the lines, but for a register without a local that is counted up. -/
theorem EmittedLines.lower (h : EmittedLines ok P bs) (hi : i ∈ lowerAll ra bs) :
    i.fits = true ∧ (i.inline = true ∨ P ∨ ∃ r, ok r ∧ ra.regToLocal r = none) := by
  obtain ⟨b, hb, hi⟩ := List.mem_flatMap.mp hi
  have hb := h b hb
  cases b with
  | pushregister r =>
    rw [Bc.lower] at hi
    split at hi
    · cases List.mem_singleton.mp hi
      exact ⟨rfl, .inl rfl⟩
    · cases List.mem_singleton.mp hi
      rw [pushregisterItem]
      split
      · exact ⟨rfl, .inl rfl⟩
      · split <;> exact ⟨rfl, .inl rfl⟩
  | popregister r =>
    rw [Bc.lower] at hi
    split at hi
    · cases hi
    · split at hi <;> cases List.mem_singleton.mp hi <;> exact ⟨rfl, .inl rfl⟩
  | iinc r k =>
    rw [Bc.lower] at hi
    split at hi
    · next hn =>
      cases List.mem_singleton.mp hi
      exact ⟨rfl, .inr (.inr ⟨r, hb.1, hn⟩)⟩
    · cases List.mem_singleton.mp hi
      exact ⟨decide_eq_true hb.2, .inl rfl⟩
  | astore r | ret r =>
    rw [Bc.lower] at hi
    split at hi <;> cases List.mem_singleton.mp hi <;> exact ⟨rfl, .inr (.inl hb)⟩
  | item j =>
    cases List.mem_singleton.mp hi
    exact ⟨hb.2.2.1, hb.2.2.2.imp_right .inl⟩

end

end Bc

namespace Instruction

open Bc (EmittedLines emittedLines_append emittedLines_nil emittedLines_map)

variable {ok : Reg → Prop} {P : Prop} {env : Env}

theorem splitLong_emitted (high low : Reg) : EmittedLines ok P (splitLong high low) := by
  simp [splitLong]

theorem pushLaneShift_emitted (w : WordSize) (insn : Instruction) :
    EmittedLines ok P (insn.pushLaneShift w) := by
  simp [pushLaneShift]

theorem extendCode_emitted (w : WordSize) (isSigned : Bool) :
    EmittedLines ok P (extendCode w isSigned) := by
  cases w <;> cases isSigned <;> simp [extendCode]

theorem lessCode_emitted (rd : Reg) : EmittedLines ok P (lessCode rd) := by
  simp [lessCode]

theorem loadXXCode_emitted (ho : env.config.optimizePartialMemoryOps = true → P)
    (bc : Jvm.ReadWhat) (insn : Instruction) : EmittedLines ok P (insn.loadXXCode env bc) := by
  rw [loadXXCode, emittedLines_append]
  split
  · next h => simp [ho h.1]
  · simp

theorem traceStore_emitted (bc : Jvm.WriteWhat) (insn : Instruction) :
    EmittedLines ok P (insn.traceStore bc) := by
  simp [traceStore]

theorem storeXXCode_emitted (env : Env) (bc : Jvm.WriteWhat) (insn : Instruction) :
    EmittedLines ok P (insn.storeXXCode env bc) := by
  rw [storeXXCode]
  split <;> simp [traceStore_emitted]

/-- An instruction counts up no register but its destination. -/
theorem code_emitted (ho : env.config.optimizePartialMemoryOps = true → P) (insn : Instruction)
    (hk : insn.kind = .catchInsn → P) :
    EmittedLines (· ∈ insn.fillDestinations env) P (insn.code env) := by
  obtain ⟨kind, address, opcode, rs, rt, rd, extra⟩ := insn
  cases kind <;> simp only [code]
  case rfmt bc => simp [rfmtCode]
  case addu =>
    rw [adduCode]
    repeat' split
    all_goals simp [rfmtCode]
  case subu =>
    rw [subuCode]
    split <;> simp [rfmtCode]
  case nor =>
    rw [norCode]
    repeat' split
    all_goals simp
  case shiftInstruction bc =>
    rw [shiftCode]
    split <;> simp
  case shiftInstructionV bc => simp [shiftVCode]
  case ifmt bc => simp [ifmtCode]
  case addi =>
    rw [addiCode]
    split
    · simp
    split
    · next h => simp [fillDestinations, h.2]
    · simp [ifmtCode]
  case lui => simp [luiCode]
  case mulDiv bc => cases bc <;> simp [mulDivCode, splitLong_emitted]
  case mult =>
    rw [multCode]
    split <;> simp [splitLong_emitted]
  case div =>
    rw [divCode]
    split <;> simp
  case mfxx => simp [mfxxCode]
  case mtxx dst => simp [mtxxCode]
  case slt => simp [sltCode, lessCode_emitted]
  case sltu => simp [sltuCode, pushUnsigned, lessCode_emitted]
  case slti => simp [sltiCode, lessCode_emitted]
  case sltiu => simp [sltiuCode, pushUnsigned, lessCode_emitted]
  case loadXX bc => exact loadXXCode_emitted ho bc _
  case lw =>
    rw [lwCode]
    split <;> simp
  case partialLoad w isSigned =>
    rw [partialLoadCode]
    repeat' split
    all_goals simp [loadXXCode_emitted ho, pushLaneShift_emitted, extendCode_emitted]
  case storeXX bc => exact storeXXCode_emitted env bc _
  case sw =>
    rw [swCode]
    repeat' split
    all_goals simp [traceStore_emitted]
  case partialStore w =>
    rw [partialStoreCode]
    repeat' split
    all_goals simp [storeXXCode_emitted, pushLaneShift_emitted]
  case syscallInsn =>
    rw [syscallCode]
    split <;> simp
  case syscallRegisterArgument => simp
  case catchInsn =>
    rw [catchCode, emittedLines_append]
    exact ⟨emittedLines_map fun _ => ⟨rfl, rfl, rfl, .inr (hk rfl)⟩, by simp⟩
  all_goals exact emittedLines_nil

theorem popReturnValue_emitted (env : Env) (p : MethodPass1) :
    EmittedLines ok P (popReturnValue env p) := by
  rw [popReturnValue]
  repeat' split
  all_goals simp [splitLong_emitted]

theorem passRegister_emitted (idx : Option Nat) (r : Reg) :
    (passRegister idx r).Emitted ok True := by
  rw [passRegister.eq_def]
  split
  · cases idx with
    | none => exact ⟨rfl, rfl, rfl, .inr trivial⟩
    | some i => exact Bc.emitted_pushconst _
  · trivial

theorem callCode_emitted (env : Env) (insn : Instruction) :
    EmittedLines ok True (insn.callCode env) := by
  have hpass (p : MethodPass1) (idx : Option Nat) :
      EmittedLines ok True (p.registersToPass.map (passRegister idx)) :=
    emittedLines_map (passRegister_emitted idx)
  rw [callCode]
  repeat' split
  all_goals simp [hpass, passCode, popReturnValue_emitted, invokestatic, invokeCallTable]

theorem builtin_emitted (b : Builtin) (start stop target : Word) :
    EmittedLines ok True (b.code start stop target) := by
  cases b with
  | arithmetic2 bc | arithmetic1 bc | compare bc =>
    cases bc <;> simp [Builtin.code, Builtin.intBitsToFloat, Builtin.floatToIntBits]
  | _ => simp [Builtin.code, splitLong_emitted, Builtin.push64BitFrom32BitRegs,
      Builtin.intBitsToFloat, Builtin.floatToIntBits]

theorem jalCode_emitted (env : Env) (insn : Instruction) (st : MethodState) :
    EmittedLines ok True (insn.jalCode env st).1 := by
  rw [jalCode]
  split
  · exact builtin_emitted _ _ _ _
  · split
    · simp
    · exact callCode_emitted env insn

theorem pass2_emitted {insn : Instruction} (hc : insn.isCall = true → P)
    (hi : EmittedLines ok P (insn.code env)) {delayed : Emission}
    (hd : ∀ st, EmittedLines ok P (delayed st).1) (st : MethodState) :
    EmittedLines ok P (insn.pass2 env delayed st).1 := by
  have hseq (e f : Emission) (st : MethodState) :
      EmittedLines ok P (e.seq f st).1 ↔
        EmittedLines ok P (e st).1 ∧ EmittedLines ok P (f (e st).2).1 :=
    emittedLines_append
  cases hk : insn.kind with
  | jump =>
    simp only [pass2, hk, hseq, Emission.lines]
    refine ⟨hd _, ?_⟩
    split <;> simp
  | oneRegisterConditionalJump bc | twoRegisterConditionalJump bc =>
    simp [pass2, hk, hseq, Emission.lines, hd]
  | jr =>
    simp only [pass2, hk]
    split <;> simp [hseq, Emission.lines, hd]
  | jal | jalr | jalReturn =>
    have hP : P := hc (by rw [isCall, hk])
    have hj (st : MethodState) : EmittedLines ok P (insn.jalCode env st).1 :=
      (jalCode_emitted env insn st).mono (fun _ h => h) fun _ => hP
    simp [pass2, hk, hseq, Emission.lines, hd, hj]
  | _ =>
    simp only [pass2, hk, Emission.lines]
    exact hi

end Instruction

namespace Entry

open Bc (EmittedLines emittedLines_append emittedLines_nil emittedLines_flatMap)

variable {ok : Reg → Prop} {P : Prop} {env : Env} {e : Entry}

theorem pass2_emitted (hc : ∀ i ∈ e.insns, i.isCall = true → P)
    (hi : ∀ i ∈ e.insns, EmittedLines ok P (i.code env)) (st : MethodState) :
    EmittedLines ok P (e.pass2 env st).1 := by
  have hdelayed {d : Instruction} (hd : e.delayed = some d) (st : MethodState) :
      EmittedLines ok P (d.pass2 env .nothing st).1 := by
    have hmem : d ∈ e.insns := List.mem_cons_of_mem _ (Option.mem_toList.mpr hd)
    exact Instruction.pass2_emitted (hc d hmem) (hi d hmem) (fun _ => emittedLines_nil) st
  have hslot (st : MethodState) : EmittedLines ok P (e.delayedPass2 env st).1 := by
    cases hd : e.delayed with
    | none =>
      simp only [delayedPass2, hd]
      exact emittedLines_nil
    | some d =>
      simp only [delayedPass2, hd]
      exact hdelayed hd st
  have hinsn : e.insn ∈ e.insns := List.mem_cons_self ..
  rw [pass2_lines, emittedLines_append, emittedLines_append]
  refine ⟨?_, Instruction.pass2_emitted (hc _ hinsn) (hi _ hinsn) hslot st, ?_⟩
  · rw [headCode, emittedLines_append]
    constructor
    · split <;> simp
    · rw [traceCode]
      split
      · rw [emittedLines_append]
        refine ⟨by simp, emittedLines_flatMap fun i _ => ?_⟩
        simp only [traceRegisterValues, traceRegister]
        repeat' split
        all_goals simp
      · exact emittedLines_nil
  · cases hd : e.delayed with
    | none =>
      simp only [againCode, hd]
      exact emittedLines_nil
    | some d =>
      simp only [againCode, hd]
      split
      · refine emittedLines_append.mpr ⟨by simp, ?_⟩
        exact emittedLines_append.mpr ⟨hdelayed hd _, by simp⟩
      · exact emittedLines_nil

end Entry

namespace JavaMethod

open Bc (EmittedLines emittedLines_append emittedLines_nil emittedLines_flatMap)

variable {ok : Reg → Prop} {P : Prop} {env : Env} {m : JavaMethod}

theorem functionsCode_emitted (hc : ∀ i ∈ m.insns env, i.isCall = true → P)
    (hi : ∀ i ∈ m.insns env, EmittedLines ok P (i.code env)) :
    EmittedLines ok P (m.functionsCode env).1 := by
  have hall {α : Type} {f : α → Emission} {es : List α}
      (h : ∀ x ∈ es, ∀ st, EmittedLines ok P (f x st).1) (st : MethodState) :
      EmittedLines ok P (Emission.all (es.map f) st).1 := by
    induction es generalizing st with
    | nil => exact emittedLines_nil
    | cons x es ih =>
      rw [List.map_cons, Emission.all_cons_lines, emittedLines_append]
      exact ⟨h x (List.mem_cons_self ..) st, ih (fun y hy => h y (List.mem_cons_of_mem _ hy)) _⟩
  refine hall (fun fn hfn st => ?_) _
  rw [functionCode, Emission.seq_lines, emittedLines_append]
  constructor
  · simp only [Emission.lines]
    split <;> simp
  · refine hall (fun e he st => ?_) _
    have hs : e ∈ m.slots env := List.mem_flatMap.mpr ⟨fn, hfn, he⟩
    have hm : ∀ i ∈ e.insns, i ∈ m.insns env := fun i hi => mem_insns_slot.mpr ⟨e, hs, hi⟩
    exact Entry.pass2_emitted (fun i hi => hc i (hm i hi)) (fun j hj => hi j (hm j hj)) st

theorem initRegisters_emitted (hf : 0 < (m.pass1 env).registerUsage.count Reg.fna → P) :
    EmittedLines ok P (m.initRegisters (m.pass1 env)) := by
  refine emittedLines_flatMap fun r _ => ?_
  rw [initStep]
  split
  · next h => simp [hf (h.1 ▸ h.2.1)]
  split
  · exact emittedLines_nil
  split
  · rw [initRegister]
    repeat' split
    all_goals simp
  · exact emittedLines_nil

theorem restLines_emitted (ho : env.config.optimizePartialMemoryOps = true → P)
    (hc : ∀ i ∈ m.insns env, i.isCall = true → P)
    (hi : ∀ i ∈ m.insns env, EmittedLines ok P (i.code env)) :
    EmittedLines ok P (m.restLines env) := by
  rw [restLines]
  simp only [emittedLines_append]
  refine ⟨⟨⟨⟨⟨?_, by simp⟩, ?_⟩, functionsCode_emitted hc hi⟩, ?_⟩, ?_⟩
  · split
    · next h =>
      refine Bc.emittedLines_cons.mpr ⟨by simp, emittedLines_flatMap fun o _ => ?_⟩
      rcases emitSubroutineForOp_cases o with h' | ⟨z, isSigned, rfl⟩
      · rw [h']
        exact emittedLines_nil
      · rw [emitSubroutineForOp_load]
        simp [ho h, emitLoadSubroutine, loadSubroutineBody, loadSubroutineOps,
          Instruction.extendCode_emitted]
    · exact emittedLines_nil
  · rw [functionTable]
    split <;> simp
  · rw [jumptabCode]
    split <;> simp
  · refine Bc.emittedLines_cons.mpr ⟨by simp, ?_⟩
    rw [backLines]
    simp only [emittedLines_append]
    refine ⟨⟨⟨emittedLines_flatMap fun x _ => ?_, by simp⟩, ?_⟩, ?_⟩
    · cases x <;> simp [ExceptionHandler.pass2, invokeCallTable, invokestatic]
    · rw [returnLocationCode]
      split <;> simp
    · rw [returnCode]
      repeat' split
      all_goals simp

theorem pass2Lines_emitted (ho : env.config.optimizePartialMemoryOps = true → P)
    (hf : 0 < (m.pass1 env).registerUsage.count Reg.fna → P)
    (hc : ∀ i ∈ m.insns env, i.isCall = true → P)
    (hi : ∀ i ∈ m.insns env, EmittedLines ok P (i.code env)) :
    EmittedLines ok P (m.pass2Lines env) := by
  rw [pass2Lines_rest, emittedLines_append]
  exact ⟨initRegisters_emitted hf, restLines_emitted ho hc hi⟩

theorem pass2Lines_any (env : Env) (m : JavaMethod) :
    EmittedLines (fun _ => True) True (m.pass2Lines env) :=
  pass2Lines_emitted (fun _ => trivial) (fun _ => trivial) (fun _ _ _ => trivial) fun i _ =>
    (i.code_emitted (fun _ => trivial) fun _ => trivial).mono (fun _ _ => trivial) id

/-- Every operand fits its line. -/
theorem pass2_fits (env : Env) (m : JavaMethod) : ∀ i ∈ m.pass2 env, i.fits = true :=
  fun _ hi => ((m.pass2Lines_any env).lower hi).1

end JavaMethod

end Cibyl
