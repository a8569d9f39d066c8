import Cibyl.ArgumentPassing
import Cibyl.Pass0
import Cibyl.Subroutine
import Cibyl.Usage

namespace Cibyl
set_option autoImplicit true

open Jvm (Op Item)
open Emit (op intOp pushconst pushconst_u pushconst_l pushaddress pushindex)

namespace Bc

/-- The register whose local a line pushes, pops, or otherwise names. -/
def reg? : Bc → Option Reg
  | .pushregister r | .popregister r | .astore r | .ret r | .iinc r _ => some r
  | .item _ => none

/-- No line names another register. -/
def Uses (bs : List Bc) (rs : List Reg) : Prop := ∀ b ∈ bs, ∀ r, b.reg? = some r → r ∈ rs

section

variable {bs cs : List Bc} {rs : List Reg}

theorem uses_nil (rs : List Reg) : Uses [] rs := List.forall_mem_nil _

theorem uses_append : Uses (bs ++ cs) rs ↔ Uses bs rs ∧ Uses cs rs := List.forall_mem_append

theorem uses_cons : Uses (b :: bs) rs ↔ (∀ r, b.reg? = some r → r ∈ rs) ∧ Uses bs rs :=
  List.forall_mem_cons

theorem Uses.mono (h : Uses bs rs) (hs : rs ⊆ rs') : Uses bs rs' :=
  fun b hb r hr => hs (h b hb r hr)

theorem uses_of_none (h : b.reg? = none) : Uses (b :: bs) rs ↔ Uses bs rs := by
  rw [uses_cons, h]
  exact ⟨And.right, fun h => ⟨(fun r hr => by cases hr), h⟩⟩

theorem uses_of_some (h : b.reg? = some r) : Uses (b :: bs) rs ↔ r ∈ rs ∧ Uses bs rs := by
  rw [uses_cons, h]
  simp

@[simp] theorem uses_pushregister (r : Reg) :
    Uses (.pushregister r :: bs) rs ↔ r ∈ rs ∧ Uses bs rs := uses_of_some rfl

@[simp] theorem uses_popregister (r : Reg) :
    Uses (.popregister r :: bs) rs ↔ r ∈ rs ∧ Uses bs rs := uses_of_some rfl

@[simp] theorem uses_iinc (r : Reg) (k : Int) :
    Uses (.iinc r k :: bs) rs ↔ r ∈ rs ∧ Uses bs rs := uses_of_some rfl

@[simp] theorem uses_astore (r : Reg) : Uses (.astore r :: bs) rs ↔ r ∈ rs ∧ Uses bs rs :=
  uses_of_some rfl

@[simp] theorem uses_ret (r : Reg) : Uses (.ret r :: bs) rs ↔ r ∈ rs ∧ Uses bs rs :=
  uses_of_some rfl

@[simp] theorem uses_item (i : Item) : Uses (.item i :: bs) rs ↔ Uses bs rs := uses_of_none rfl

@[simp] theorem uses_op (o : Op) : Uses (op o :: bs) rs ↔ Uses bs rs := uses_of_none rfl

@[simp] theorem uses_intOp (o : Jvm.IntOp) : Uses (intOp o :: bs) rs ↔ Uses bs rs :=
  uses_of_none rfl

theorem reg?_pushconst (v : Word) : (pushconst v).reg? = none := by
  rw [pushconst]
  repeat' split
  all_goals rfl

@[simp] theorem uses_pushconst (v : Word) : Uses (pushconst v :: bs) rs ↔ Uses bs rs :=
  uses_of_none (reg?_pushconst v)

@[simp] theorem uses_pushconst_u (v : Word) : Uses (pushconst_u v :: bs) rs ↔ Uses bs rs := by
  apply uses_of_none
  rw [pushconst_u]
  repeat' split
  all_goals rfl

@[simp] theorem uses_pushconst_l (v : DWord) : Uses (pushconst_l v :: bs) rs ↔ Uses bs rs :=
  uses_of_none rfl

@[simp] theorem uses_pushaddress (r : Reg) (extra : Word) :
    Uses (pushaddress r extra) rs ↔ r ∈ rs := by
  rw [pushaddress]
  split <;> simp [uses_nil]

@[simp] theorem uses_pushindex (r : Reg) (extra : Word) :
    Uses (pushindex r extra) rs ↔ r ∈ rs := by
  rw [pushindex]
  split
  · simp [uses_nil]
  · split <;> simp [uses_nil]

end

end Bc

namespace Instruction

open Bc (Uses uses_nil uses_append uses_pushconst)

/-- The registers an instruction counts. -/
def counts (env : Env) (insn : Instruction) : List Reg :=
  insn.fillDestinations env ++ insn.fillSources env

/-- The source of `mthi` and `mtlo`, which they push but do not count. -/
def uncounted (insn : Instruction) : List Reg :=
  match insn.kind with
  | .mtxx _ => [insn.rs]
  | _ => []

theorem splitLong_uses (high low : Reg) (rs : List Reg) :
    Uses (splitLong high low) rs ↔ high ∈ rs ∧ low ∈ rs := by
  simp [splitLong, uses_nil]

theorem pushLaneShift_uses (w : WordSize) (insn : Instruction) (rs : List Reg) :
    Uses (insn.pushLaneShift w) rs ↔ insn.rs ∈ rs := by
  simp [pushLaneShift, uses_nil, uses_append]

theorem extendCode_uses (w : WordSize) (isSigned : Bool) (rs : List Reg) :
    Uses (extendCode w isSigned) rs := by
  cases w <;> cases isSigned <;> simp [extendCode, uses_nil]

theorem lessCode_uses (rd : Reg) (rs : List Reg) : Uses (lessCode rd) rs ↔ rd ∈ rs := by
  simp [lessCode, uses_nil]

theorem loadXXCode_uses (env : Env) (bc : Jvm.ReadWhat) (insn : Instruction) (rs : List Reg) :
    Uses (insn.loadXXCode env bc) rs ↔ insn.rs ∈ rs ∧ insn.rt ∈ rs := by
  rw [loadXXCode, uses_append]
  split <;> simp [uses_nil]

theorem traceStore_uses (bc : Jvm.WriteWhat) (insn : Instruction) (rs : List Reg) :
    Uses (insn.traceStore bc) rs ↔ insn.rs ∈ rs ∧ insn.rt ∈ rs := by
  simp [traceStore, uses_nil, uses_append]

theorem storeXXCode_uses (env : Env) (bc : Jvm.WriteWhat) (insn : Instruction) (rs : List Reg) :
    Uses (insn.storeXXCode env bc) rs ↔ insn.rs ∈ rs ∧ insn.rt ∈ rs := by
  rw [storeXXCode]
  split <;> simp [uses_nil, uses_append, traceStore_uses]

/-- What the code of an instruction uses, it counts, but for the source of `mthi` and `mtlo`. -/
theorem code_uses (env : Env) (insn : Instruction) :
    Uses (insn.code env) (insn.counts env ++ insn.uncounted) := by
  obtain ⟨kind, address, opcode, rs, rt, rd, extra⟩ := insn
  cases kind <;> simp only [code, counts, uncounted, fillDestinations, fillSources]
  case rfmt bc => simp [rfmtCode, uses_nil]
  case addu =>
    rw [adduCode]
    repeat' split
    all_goals simp [rfmtCode, uses_nil]
  case subu =>
    rw [subuCode]
    repeat' split
    all_goals simp [rfmtCode, uses_nil]
  case nor =>
    rw [norCode]
    repeat' split
    all_goals simp [uses_nil]
  case shiftInstruction bc =>
    rw [shiftCode]
    repeat' split
    all_goals simp [uses_nil]
  case shiftInstructionV bc => simp [shiftVCode, uses_nil]
  case ifmt bc => simp [ifmtCode, uses_nil]
  case addi =>
    rw [addiCode]
    repeat' split
    all_goals simp [ifmtCode, uses_nil]
  case lui => simp [luiCode, uses_nil]
  case mulDiv bc => simp [mulDivCode, splitLong_uses]
  case mult =>
    rw [multCode]
    repeat' split
    all_goals simp [uses_nil, splitLong_uses, *]
  case div =>
    rw [divCode]
    repeat' split
    all_goals simp [uses_nil, *]
  case mfxx => simp [mfxxCode, uses_nil]
  case mtxx dst => simp [mtxxCode, uses_nil]
  case slt => simp [sltCode, lessCode_uses]
  case sltu => simp [sltuCode, pushUnsigned, lessCode_uses]
  case slti => simp [sltiCode, lessCode_uses]
  case sltiu => simp [sltiuCode, pushUnsigned, lessCode_uses]
  case loadXX bc =>
    rw [loadXXCode_uses]
    split <;> simp
  case lw =>
    rw [lwCode]
    repeat' split
    all_goals simp [uses_nil, uses_append]
  case partialLoad w isSigned =>
    rw [partialLoadCode]
    repeat' split
    all_goals simp [uses_nil, uses_append, loadXXCode_uses, pushLaneShift_uses, extendCode_uses]
  case storeXX bc => simp [storeXXCode_uses]
  case sw =>
    rw [swCode]
    repeat' split
    all_goals simp [uses_nil, uses_append, traceStore_uses]
  case partialStore w =>
    rw [partialStoreCode]
    repeat' split
    all_goals simp [uses_nil, uses_append, storeXXCode_uses, pushLaneShift_uses]
  case syscallInsn =>
    rw [syscallCode]
    split <;> simp [uses_nil, *]
  case syscallRegisterArgument => simp [uses_nil, argumentRegister]
  case catchInsn =>
    rw [catchCode, uses_append]
    refine ⟨?_, by simp [uses_nil]⟩
    intro b hb r hr
    obtain ⟨cl, -, rfl⟩ := List.mem_map.mp hb
    cases hr
  all_goals exact uses_nil _

/-- The registers of the calling convention. -/
def callRegisters : List Reg := [Reg.v0, Reg.v1, Reg.a0, Reg.a1, Reg.a2, Reg.a3, Reg.sp]

theorem passRegisters_uses {p : MethodPass1}
    (h : p.possibleArguments.takeWhile (· ≠ Reg.zero) <+: RegisterAllocator.initialRegisters)
    (idx : Option Nat) : Uses (p.registersToPass.map (passRegister idx)) callRegisters := by
  intro b hb r hr
  obtain ⟨reg, hreg, rfl⟩ := List.mem_map.mp hb
  have ha := ((p.mem_registersToPass reg).mp hreg).1
  rw [MethodPass1.registerIsArgument, List.contains_iff_mem] at ha
  have hm := h.subset ha
  rw [passRegister.eq_def] at hr
  split at hr
  · split at hr
    · rw [Bc.reg?_pushconst] at hr
      cases hr
    · cases hr
  · next hf =>
    cases hr
    simp only [RegisterAllocator.initialRegisters, List.mem_cons, List.not_mem_nil, or_false] at hm
    simp only [callRegisters, List.mem_cons, List.not_mem_nil, or_false]
    tauto

theorem popReturnValue_uses (env : Env) (p : MethodPass1) :
    Uses (popReturnValue env p) callRegisters := by
  rw [popReturnValue]
  repeat' split
  all_goals simp [uses_nil, splitLong_uses, callRegisters]

theorem callCode_uses (env : Env) (insn : Instruction) :
    Uses (insn.callCode env) callRegisters := by
  have hinvoke (cls name : String) (n : Nat) (result : Option Jvm.Ty) :
      Uses [invokestatic env cls name n result] callRegisters := by
    simp [invokestatic, uses_nil]
  rw [callCode]
  split
  · rw [uses_append, uses_append]
    exact ⟨⟨passRegisters_uses (by decide) none, hinvoke _ _ _ _⟩, popReturnValue_uses _ _⟩
  · split
    · simp [uses_nil]
    · next dst _ =>
      rw [uses_append, uses_append]
      exact ⟨⟨passRegisters_uses (dst.possibleArguments_prefix env _) _, hinvoke _ _ _ _⟩,
        popReturnValue_uses _ _⟩

theorem builtin_uses (b : Builtin) (start stop target : Word) :
    Uses (b.code start stop target) (b.fillDestinations ++ b.fillSources ++ callRegisters) := by
  cases b <;> simp [Builtin.code, Builtin.fillDestinations, Builtin.fillSources, callRegisters,
    uses_nil, splitLong_uses, Builtin.push64BitFrom32BitRegs, Builtin.intBitsToFloat,
    Builtin.floatToIntBits]

theorem jal_counts (env : Env) {insn : Instruction}
    (hk : insn.kind = .jal ∨ insn.kind = .jalr ∨ insn.kind = .jalReturn) :
    callRegisters ⊆ insn.counts env ∧
      (∀ b, insn.builtin env = some b → b.fillDestinations ++ b.fillSources ⊆ insn.counts env) ∧
      (insn.callsOwnMethod env = true → Reg.ra ∈ insn.counts env) := by
  have hd : insn.fillDestinations env = [Reg.v0, Reg.v1] ++
      ((insn.builtin env).map Builtin.fillDestinations).getD [] ++
        if insn.callsOwnMethod env then [Reg.ra] else [] := by
    rw [fillDestinations]
    rcases hk with hk | hk | hk <;> rw [hk]
  have hs : insn.fillSources env = [insn.rs, Reg.a0, Reg.a1, Reg.a2, Reg.a3, Reg.sp] ++
      ((insn.builtin env).map Builtin.fillSources).getD [] := by
    rw [fillSources]
    rcases hk with hk | hk | hk <;> rw [hk]
  rw [counts, hd, hs]
  refine ⟨?_, ?_, ?_⟩
  · intro r hr
    simp only [callRegisters, List.mem_cons, List.not_mem_nil, or_false] at hr
    simp only [List.mem_append, List.mem_cons, List.not_mem_nil, or_false]
    tauto
  · intro b hb r hr
    rw [hb]
    simp only [Option.map_some, Option.getD_some, List.mem_append] at hr ⊢
    tauto
  · intro ho
    rw [if_pos ho]
    simp

theorem jalCode_uses (env : Env) {insn : Instruction}
    (hk : insn.kind = .jal ∨ insn.kind = .jalr ∨ insn.kind = .jalReturn) (st : MethodState) :
    Uses (insn.jalCode env st).1 (insn.counts env) := by
  obtain ⟨hc, hb, ho⟩ := jal_counts env hk
  rw [jalCode]
  split
  · next b hbuiltin =>
    exact (builtin_uses b _ _ _).mono (List.append_subset.mpr ⟨hb b hbuiltin, hc⟩)
  · split
    · next h => simp [uses_nil, ho h.2]
    · exact (callCode_uses env insn).mono hc

/-- The lines of `pass2` use what the instruction counts and what the delay slot uses. -/
theorem pass2_uses {delayed : Emission} {rs : List Reg} (hd : ∀ st, Uses (delayed st).1 rs)
    (env : Env) (insn : Instruction) (hc : insn.counts env ++ insn.uncounted ⊆ rs)
    (st : MethodState) :
    Uses (insn.pass2 env delayed st).1 rs := by
  have hcode := (code_uses env insn).mono hc
  replace hc := (List.append_subset.mp hc).1
  have hj (hk : insn.kind = .jal ∨ insn.kind = .jalr ∨ insn.kind = .jalReturn)
      (st : MethodState) : Uses (insn.jalCode env st).1 rs := (jalCode_uses env hk st).mono hc
  have hseq (e f : Emission) (st : MethodState) :
      Uses (e.seq f st).1 rs ↔ Uses (e st).1 rs ∧ Uses (f (e st).2).1 rs := uses_append
  cases hk : insn.kind with
  | jump =>
    simp only [pass2, hk, hseq, Emission.lines]
    refine ⟨hd _, ?_⟩
    split <;> simp [uses_nil]
  | jal =>
    simp only [pass2, hk, hseq]
    exact ⟨hd _, hj (.inl hk) _⟩
  | jalr =>
    have hs : insn.rs ∈ rs := hc (by simp [counts, fillSources, hk])
    simp only [pass2, hk, hseq, Emission.lines]
    exact ⟨by simp [hs, uses_nil], hd _, hj (.inr (.inl hk)) _⟩
  | jalReturn =>
    simp only [pass2, hk, hseq, Emission.lines]
    exact ⟨hd _, hj (.inr (.inr hk)) _, by simp [uses_nil]⟩
  | jr =>
    have hs : insn.rs ∈ rs := hc (by simp [counts, fillSources, hk])
    simp only [pass2, hk]
    split <;> simp [hseq, Emission.lines, uses_nil, hs, hd]
  | oneRegisterConditionalJump bc =>
    have hs : insn.rs ∈ rs := hc (by simp [counts, fillSources, hk])
    simp only [pass2, hk]
    simp [hseq, Emission.lines, uses_nil, hs, hd]
  | twoRegisterConditionalJump bc =>
    have hs : insn.rs ∈ rs := hc (by simp [counts, fillSources, hk])
    have ht : insn.rt ∈ rs := hc (by simp [counts, fillSources, hk])
    simp only [pass2, hk]
    simp [hseq, Emission.lines, uses_nil, hs, ht, hd]
  | _ =>
    simp only [pass2, hk]
    exact hcode

end Instruction

end Cibyl
