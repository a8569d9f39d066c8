import Cibyl.Activations
import Cibyl.LabelCount

namespace Cibyl
set_option autoImplicit true

open Jvm (Op Item)
open Emit (op intOp pushconst pushconst_u pushconst_l pushaddress pushindex)

attribute [local simp] Op.writes Item.writes Item.Plain

namespace Bc

/-- The register whose local a line changes. -/
def written? : Bc → Option Reg
  | .popregister r | .astore r | .iinc r _ => some r
  | _ => none

/-- A finished line changes no local, and none makes a return address outside the code. -/
def Clean : Bc → Prop
  | .item i => i.writes = none ∧ i.Plain
  | _ => True

/-- No line changes another register. -/
def Sets (ok : Reg → Prop) (bs : List Bc) : Prop :=
  ∀ b ∈ bs, b.Clean ∧ ∀ r, b.written? = some r → ok r

section

variable {bs cs : List Bc} {ok : Reg → Prop}

theorem sets_nil (ok : Reg → Prop) : Sets ok [] := List.forall_mem_nil _

theorem sets_append : Sets ok (bs ++ cs) ↔ Sets ok bs ∧ Sets ok cs := List.forall_mem_append

theorem sets_cons : Sets ok (b :: bs) ↔ (b.Clean ∧ ∀ r, b.written? = some r → ok r) ∧ Sets ok bs :=
  List.forall_mem_cons

theorem Sets.mono (h : Sets ok bs) (hs : ∀ r, ok r → ok' r) : Sets ok' bs :=
  fun b hb => ⟨(h b hb).1, fun r hr => hs r ((h b hb).2 r hr)⟩

theorem sets_flatMap {xs : List α} {f : α → List Bc} (h : ∀ x ∈ xs, Sets ok (f x)) :
    Sets ok (xs.flatMap f) := by
  intro b hb
  obtain ⟨x, hx, hb⟩ := List.mem_flatMap.mp hb
  exact h x hx b hb

@[simp] theorem sets_pushregister (r : Reg) : Sets ok (.pushregister r :: bs) ↔ Sets ok bs := by
  rw [sets_cons]
  exact ⟨And.right, fun h => ⟨⟨trivial, nofun⟩, h⟩⟩

@[simp] theorem sets_ret (r : Reg) : Sets ok (.ret r :: bs) ↔ Sets ok bs := by
  rw [sets_cons]
  exact ⟨And.right, fun h => ⟨⟨trivial, nofun⟩, h⟩⟩

theorem sets_of_written (hc : b.Clean) (h : b.written? = some r) :
    Sets ok (b :: bs) ↔ ok r ∧ Sets ok bs := by
  rw [sets_cons, h]
  simp [hc]

@[simp] theorem sets_popregister (r : Reg) :
    Sets ok (.popregister r :: bs) ↔ ok r ∧ Sets ok bs := sets_of_written trivial rfl

@[simp] theorem sets_iinc (r : Reg) (k : Int) : Sets ok (.iinc r k :: bs) ↔ ok r ∧ Sets ok bs :=
  sets_of_written trivial rfl

@[simp] theorem sets_astore (r : Reg) : Sets ok (.astore r :: bs) ↔ ok r ∧ Sets ok bs :=
  sets_of_written trivial rfl

theorem sets_item (i : Item) :
    Sets ok (.item i :: bs) ↔ (i.writes = none ∧ i.Plain) ∧ Sets ok bs := by
  rw [sets_cons]
  exact ⟨fun h => ⟨h.1.1, h.2⟩, fun h => ⟨⟨h.1, nofun⟩, h.2⟩⟩

theorem sets_of_clean {i : Item} (hw : i.writes = none) (hp : i.Plain) :
    Sets ok (.item i :: bs) ↔ Sets ok bs := by
  rw [sets_item]
  exact ⟨And.right, fun h => ⟨⟨hw, hp⟩, h⟩⟩

@[simp] theorem sets_label (l : Jvm.Label) : Sets ok (.item (.label l) :: bs) ↔ Sets ok bs :=
  sets_of_clean rfl trivial

@[simp] theorem sets_goto (l : Jvm.Label) : Sets ok (.item (.goto l) :: bs) ↔ Sets ok bs :=
  sets_of_clean rfl trivial

@[simp] theorem sets_external (e : Jvm.External) :
    Sets ok (op (.external e) :: bs) ↔ e.result ≠ some .ret ∧ Sets ok bs := by
  rw [op, sets_item]
  exact ⟨fun h => ⟨h.1.2, h.2⟩, fun h => ⟨⟨rfl, h.1⟩, h.2⟩⟩

theorem sets_op (o : Op) :
    Sets ok (op o :: bs) ↔ (o.writes = none ∧ Item.Plain (.op o)) ∧ Sets ok bs := sets_item (.op o)

@[simp] theorem sets_intOp (o : Jvm.IntOp) : Sets ok (intOp o :: bs) ↔ Sets ok bs :=
  sets_of_clean rfl trivial

@[simp] theorem sets_pushconst (v : Word) : Sets ok (pushconst v :: bs) ↔ Sets ok bs := by
  rw [pushconst]
  repeat' split
  all_goals exact sets_of_clean rfl trivial

@[simp] theorem sets_pushconst_u (v : Word) : Sets ok (pushconst_u v :: bs) ↔ Sets ok bs := by
  rw [pushconst_u]
  repeat' split
  all_goals exact sets_of_clean rfl trivial

@[simp] theorem sets_pushconst_l (v : DWord) : Sets ok (pushconst_l v :: bs) ↔ Sets ok bs :=
  sets_of_clean rfl trivial

@[simp] theorem sets_pushaddress (r : Reg) (extra : Word) : Sets ok (pushaddress r extra) := by
  rw [pushaddress]
  split <;> simp [sets_nil]

@[simp] theorem sets_pushindex (r : Reg) (extra : Word) : Sets ok (pushindex r extra) := by
  rw [pushindex]
  split
  · simp [sets_nil]
  · split <;> simp [sets_nil]

theorem lower_writes {ra : RegisterAllocator} {b : Bc} {i : Item} (hc : b.Clean)
    (hi : i ∈ b.lower ra) :
    i.Plain ∧ ∀ n, i.writes = some n → ∃ r, b.written? = some r ∧ ra.regToLocal r = some n := by
  cases b with
  | pushregister r =>
    rw [lower, pushregisterItem] at hi
    repeat' split at hi
    all_goals
      cases List.mem_singleton.mp hi
      exact ⟨trivial, fun _ h => by cases h⟩
  | popregister r =>
    rw [lower] at hi
    split at hi
    · cases hi
    · next n hn =>
      split at hi <;> cases List.mem_singleton.mp hi <;>
        exact ⟨trivial, fun k hk => ⟨r, rfl, by cases hk; exact hn⟩⟩
  | astore r | iinc r k =>
    rw [lower] at hi
    split at hi
    · cases List.mem_singleton.mp hi
      exact ⟨trivial, fun _ h => by cases h⟩
    · next n hn =>
      cases List.mem_singleton.mp hi
      exact ⟨trivial, fun k hk => ⟨r, rfl, by cases hk; exact hn⟩⟩
  | ret r =>
    rw [lower] at hi
    split at hi <;> cases List.mem_singleton.mp hi <;> exact ⟨trivial, fun _ h => by cases h⟩
  | item j =>
    cases List.mem_singleton.mp hi
    refine ⟨hc.2, fun n hn => ?_⟩
    rw [hc.1] at hn
    cases hn

/-- The locals that the finished lines change belong to registers that the lines may change. -/
theorem Sets.writes (h : Sets ok bs) (hi : i ∈ lowerAll ra bs) :
    i.Plain ∧ ∀ n, i.writes = some n → ∃ r, ok r ∧ ra.regToLocal r = some n := by
  obtain ⟨b, hb, hi⟩ := List.mem_flatMap.mp hi
  obtain ⟨hc, hw⟩ := h b hb
  obtain ⟨hp, hl⟩ := lower_writes hc hi
  refine ⟨hp, fun n hn => ?_⟩
  obtain ⟨r, hr, hreg⟩ := hl n hn
  exact ⟨r, hw r hr, hreg⟩

end

end Bc

namespace Instruction

open Bc (Sets sets_nil sets_append sets_op sets_item)

variable {ok : Reg → Prop}

theorem splitLong_sets (high low : Reg) : Sets ok (splitLong high low) ↔ ok high ∧ ok low := by
  simp [splitLong, sets_nil, sets_op]

theorem pushLaneShift_sets (w : WordSize) (insn : Instruction) :
    Sets ok (insn.pushLaneShift w) := by
  simp [pushLaneShift, sets_nil, sets_append]

theorem extendCode_sets (w : WordSize) (isSigned : Bool) : Sets ok (extendCode w isSigned) := by
  cases w <;> cases isSigned <;> simp [extendCode, sets_nil, sets_op]

theorem lessCode_sets (rd : Reg) : Sets ok (lessCode rd) ↔ ok rd := by
  simp [lessCode, sets_nil, sets_op]

theorem loadXXCode_sets (env : Env) (bc : Jvm.ReadWhat) (insn : Instruction) :
    Sets ok (insn.loadXXCode env bc) ↔ ok insn.rt := by
  rw [loadXXCode, sets_append]
  split <;> simp [sets_nil, sets_op, sets_item]

theorem traceStore_sets (bc : Jvm.WriteWhat) (insn : Instruction) :
    Sets ok (insn.traceStore bc) := by
  simp [traceStore, sets_nil, sets_append, sets_op]

theorem storeXXCode_sets (env : Env) (bc : Jvm.WriteWhat) (insn : Instruction) :
    Sets ok (insn.storeXXCode env bc) := by
  rw [storeXXCode]
  split <;> simp [sets_nil, sets_append, traceStore_sets, sets_op]

/-- Only instructions that do something name registers. -/
def Named (insn : Instruction) : Prop := insn.kind.isNop = true ∨ insn.FieldsBelow

/-- The registers that the code of an instruction that is no call changes. -/
def changes (env : Env) (insn : Instruction) : List Reg :=
  match insn.kind with
  | .rfmt _ | .addu | .subu | .nor | .shiftInstruction _ | .shiftInstructionV _ | .slt | .sltu
  | .mfxx => [insn.rd]
  | .ifmt _ | .addi | .lui | .slti | .sltiu | .loadXX _ | .lw | .partialLoad .. => [insn.rt]
  | .mulDiv _ | .mult | .div | .syscallInsn => insn.fillDestinations env
  | .mtxx dst => [dst]
  | _ => []

theorem code_changes (env : Env) (insn : Instruction) :
    Sets (· ∈ insn.changes env) (insn.code env) := by
  obtain ⟨kind, address, opcode, rs, rt, rd, extra⟩ := insn
  cases kind <;> simp only [code, changes, fillDestinations]
  case rfmt bc => simp [rfmtCode, sets_nil]
  case addu =>
    rw [adduCode]
    repeat' split
    all_goals simp [rfmtCode, sets_nil]
  case subu =>
    rw [subuCode]
    split <;> simp [rfmtCode, sets_nil, sets_op]
  case nor =>
    rw [norCode]
    repeat' split
    all_goals simp [sets_nil]
  case shiftInstruction bc =>
    rw [shiftCode]
    split <;> simp [sets_nil]
  case shiftInstructionV bc => simp [shiftVCode, sets_nil]
  case ifmt bc => simp [ifmtCode, sets_nil]
  case addi =>
    rw [addiCode]
    repeat' split
    all_goals simp [ifmtCode, sets_nil]
  case lui => simp [luiCode, sets_nil]
  case mulDiv bc => cases bc <;> simp [mulDivCode, splitLong_sets, sets_op]
  case mult =>
    rw [multCode]
    split <;> simp [sets_nil, splitLong_sets, sets_op, *]
  case div =>
    rw [divCode]
    split <;> simp [sets_nil, sets_op, *]
  case mfxx => simp [mfxxCode, sets_nil]
  case mtxx dst => simp [mtxxCode, sets_nil]
  case slt => simp [sltCode, lessCode_sets, sets_op]
  case sltu => simp [sltuCode, pushUnsigned, lessCode_sets, sets_op]
  case slti => simp [sltiCode, lessCode_sets, sets_op]
  case sltiu => simp [sltiuCode, pushUnsigned, lessCode_sets, sets_op]
  case loadXX bc => simp [loadXXCode_sets]
  case lw =>
    rw [lwCode]
    split <;> simp [sets_nil, sets_append, sets_op]
  case partialLoad w isSigned =>
    rw [partialLoadCode]
    repeat' split
    all_goals simp [sets_nil, sets_append, loadXXCode_sets, pushLaneShift_sets, extendCode_sets,
      sets_op]
  case storeXX bc => exact storeXXCode_sets env bc _
  case sw =>
    rw [swCode]
    repeat' split
    all_goals simp [sets_nil, sets_append, traceStore_sets, sets_op]
  case partialStore w =>
    rw [partialStoreCode]
    repeat' split
    all_goals simp [sets_nil, sets_append, storeXXCode_sets, pushLaneShift_sets, sets_op]
  case syscallInsn =>
    rw [syscallCode]
    split <;> simp [sets_nil, *]
  case syscallRegisterArgument => simp [sets_nil]
  case catchInsn =>
    rw [catchCode, sets_append]
    refine ⟨fun b hb => ?_, by simp [sets_nil, sets_item]⟩
    obtain ⟨cl, -, rfl⟩ := List.mem_map.mp hb
    exact ⟨⟨rfl, trivial⟩, fun _ h => by cases h⟩
  all_goals exact sets_nil _

/-- The code of an instruction changes registers that instruction words can name. -/
theorem code_sets (env : Env) {insn : Instruction} (hn : insn.Named) :
    Sets (fun r => r.val < 72) (insn.code env) := by
  refine (code_changes env insn).mono ?_
  rw [changes.eq_def]
  rcases hn with hn | ⟨-, ht, hd, hm⟩
  · cases hk : insn.kind <;> rw [hk] at hn <;> cases hn <;> exact nofun
  cases hk : insn.kind <;> simp only [fillDestinations, hk]
  case mtxx dst => simp [hm dst hk]
  case mult | div | syscallInsn => split <;> simp
  all_goals simp [ht, hd]

/-- The registers that a call may change: those that `__NOPH_try` keeps are changed by it alone. -/
def MayChange (env : Env) (insn : Instruction) (r : Reg) : Prop :=
  r.val < 72 ∨ insn.builtin env = some .try_ ∧ (r = Reg.ecb ∨ r = Reg.ear)

theorem popReturnValue_changes (env : Env) (p : MethodPass1) :
    Sets (· ∈ [Reg.v0, Reg.v1]) (popReturnValue env p) := by
  rw [popReturnValue]
  repeat' split
  all_goals simp [sets_nil, splitLong_sets, sets_op]

theorem passRegisters_sets (p : MethodPass1) (idx : Option Nat) :
    Sets ok (p.registersToPass.map (passRegister idx)) := by
  intro b hb
  obtain ⟨reg, -, rfl⟩ := List.mem_map.mp hb
  have h : Sets ok [passRegister idx reg] := by
    rw [passRegister.eq_def]
    split
    · cases idx with
      | none => simp [sets_nil, sets_item]
      | some i => exact (Bc.sets_pushconst _).mpr (sets_nil _)
    · exact (Bc.sets_pushregister _).mpr (sets_nil _)
  exact h _ (List.mem_singleton_self _)

theorem invokestatic_sets (env : Env) (cls name : String) (n : Nat) (p : MethodPass1) :
    Sets ok [invokestatic env cls name n (returnTy env p)] := by
  have hr : returnTy env p ≠ some .ret := by
    rw [returnTy]
    repeat' split
    all_goals exact nofun
  simp [invokestatic, sets_nil, hr]

theorem callCode_changes (env : Env) (insn : Instruction) :
    Sets (· ∈ [Reg.v0, Reg.v1]) (insn.callCode env) := by
  rw [callCode]
  split
  · rw [sets_append, sets_append]
    exact ⟨⟨passRegisters_sets _ none, invokestatic_sets _ _ _ _ CallTableMethod.pass1⟩,
      popReturnValue_changes _ _⟩
  · split
    · simp [sets_nil, sets_item]
    · rw [sets_append, sets_append]
      exact ⟨⟨passRegisters_sets _ _, invokestatic_sets _ _ _ _ _⟩, popReturnValue_changes _ _⟩

theorem callCode_sets (env : Env) (insn : Instruction) :
    Sets (fun r => r.val < 72) (insn.callCode env) := by
  refine (callCode_changes env insn).mono ?_
  decide

theorem builtin_changes (b : Builtin) (start stop target : Word) :
    Sets (· ∈ [Reg.v0, Reg.v1] ++ b.fillDestinations) (b.code start stop target) := by
  cases b with
  | arithmetic2 bc | arithmetic1 bc | compare bc =>
    cases bc <;> simp [Builtin.code, sets_nil, sets_op, FloatOp.external, Builtin.intBitsToFloat,
      Builtin.floatToIntBits]
  | setjmp | throw_ =>
    simp [Builtin.code, sets_nil, sets_item]
  | _ => simp [Builtin.code, Builtin.fillDestinations, sets_nil, splitLong_sets,
      Builtin.push64BitFrom32BitRegs, Builtin.intBitsToFloat, Builtin.floatToIntBits, sets_op]

theorem builtin_sets (b : Builtin) (start stop target : Word) :
    Sets (fun r => r.val < 72 ∨ b = .try_ ∧ (r = Reg.ecb ∨ r = Reg.ear))
      (b.code start stop target) := by
  refine (builtin_changes b start stop target).mono fun r hr => ?_
  rcases List.mem_append.mp hr with hr | hr
  · exact .inl ((show ∀ r ∈ [Reg.v0, Reg.v1], r.val < 72 by decide) r hr)
  · cases b with
    | try_ => exact .inr ⟨rfl, by simpa [Builtin.fillDestinations, or_comm] using hr⟩
    | throw_ | setjmp => cases hr
    | arithmetic1 | arithmetic2 | compare | intToFloat | floatToInt =>
      cases List.mem_singleton.mp hr
      exact .inl (by decide)
    | mulDiv | shift =>
      exact .inl ((show ∀ r ∈ [Reg.v0, Reg.v1], r.val < 72 by decide) r hr)

/-- The code of a call changes only its destinations. -/
theorem jalCode_changes (env : Env) {insn : Instruction} (hk : insn.isCall = true)
    (st : MethodState) : Sets (· ∈ insn.fillDestinations env) (insn.jalCode env st).1 := by
  have hw : insn.fillDestinations env = [Reg.v0, Reg.v1] ++
      ((insn.builtin env).map Builtin.fillDestinations).getD [] ++
        if insn.callsOwnMethod env then [Reg.ra] else [] := by
    cases hc : insn.kind <;> rw [isCall, hc] at hk <;>
      first | exact absurd hk Bool.false_ne_true | simp only [fillDestinations, hc]
  rw [jalCode]
  split
  · next b hb =>
    rw [hw, hb]
    exact (builtin_changes b _ _ _).mono fun r hr => List.mem_append_left _ hr
  · split
    · next h =>
      rw [hw, if_pos h.2]
      simp [sets_nil, sets_item]
    · refine (callCode_changes env insn).mono fun r hr => ?_
      rw [hw, List.append_assoc]
      exact List.mem_append_left _ hr

theorem jalCode_sets (env : Env) (insn : Instruction) (st : MethodState) :
    Sets (insn.MayChange env) (insn.jalCode env st).1 := by
  rw [jalCode]
  split
  · next b hb =>
    refine (builtin_sets b _ _ _).mono fun r hr => ?_
    rcases hr with hr | ⟨rfl, hr⟩
    · exact .inl hr
    · exact .inr ⟨hb, hr⟩
  · split
    · simp [sets_nil, sets_item, MayChange]
    · exact (callCode_sets env insn).mono fun r => .inl

theorem pass2_sets (env : Env) {insn : Instruction} (hf : insn.Named)
    (hc : ∀ r, insn.MayChange env r → ok r) {delayed : Emission}
    (hd : ∀ st, Sets ok (delayed st).1) (st : MethodState) :
    Sets ok (insn.pass2 env delayed st).1 := by
  have hcode := (code_sets env hf).mono fun r hr => hc r (.inl hr)
  have hj (st : MethodState) : Sets ok (insn.jalCode env st).1 := (jalCode_sets env insn st).mono hc
  have hseq (e f : Emission) (st : MethodState) :
      Sets ok (e.seq f st).1 ↔ Sets ok (e st).1 ∧ Sets ok (f (e st).2).1 := sets_append
  have hi {i : Item} (hw : i.writes = none) (hp : i.Plain) : Sets ok [.item i] :=
    (Bc.sets_of_clean hw hp).mpr (sets_nil ok)
  have hp (rs : List Reg) : Sets ok (rs.map .pushregister) := by
    intro b hb
    obtain ⟨r, -, rfl⟩ := List.mem_map.mp hb
    exact ⟨trivial, nofun⟩
  cases hk : insn.kind with
  | jump =>
    simp only [pass2, hk, hseq, Emission.lines]
    refine ⟨hd _, ?_⟩
    split
    · exact hi rfl trivial
    · exact sets_nil ok
  | jal =>
    simp only [pass2, hk, hseq]
    exact ⟨hd _, hj _⟩
  | jalr =>
    simp only [pass2, hk, hseq, Emission.lines]
    exact ⟨hp [_], hd _, hj _⟩
  | jalReturn =>
    simp only [pass2, hk, hseq, Emission.lines]
    exact ⟨hd _, hj _, hi rfl trivial⟩
  | jr =>
    simp only [pass2, hk]
    split
    · simp only [hseq, Emission.lines]
      exact ⟨hd _, hi rfl trivial⟩
    · simp only [hseq, Emission.lines]
      exact ⟨hp [_], hd _, hi rfl trivial⟩
  | oneRegisterConditionalJump bc =>
    simp only [pass2, hk, hseq, Emission.lines]
    exact ⟨hp [_], hd _, hi rfl trivial⟩
  | twoRegisterConditionalJump bc =>
    simp only [pass2, hk, hseq, Emission.lines]
    exact ⟨hp [_, _], hd _, hi rfl trivial⟩
  | _ =>
    simp only [pass2, hk, Emission.lines]
    exact hcode

end Instruction

namespace Entry

open Bc (Sets sets_nil sets_append sets_op sets_item)

variable {ok : Reg → Prop} {e : Entry}

theorem delayedPass2_sets (env : Env) (hf : ∀ i ∈ e.insns, i.Named)
    (hc : ∀ i ∈ e.insns, ∀ r, i.MayChange env r → ok r) (st : MethodState) :
    Sets ok (e.delayedPass2 env st).1 := by
  cases hd : e.delayed with
  | none =>
    simp only [delayedPass2, hd]
    exact sets_nil ok
  | some d =>
    simp only [delayedPass2, hd]
    have hm : d ∈ e.insns := List.mem_cons_of_mem _ (by rw [hd]; exact List.mem_singleton_self _)
    exact d.pass2_sets env (hf d hm) (hc d hm) (fun _ => sets_nil ok) st

theorem pass2_sets (env : Env) (hf : ∀ i ∈ e.insns, i.Named)
    (hc : ∀ i ∈ e.insns, ∀ r, i.MayChange env r → ok r) (st : MethodState) :
    Sets ok (e.pass2 env st).1 := by
  have hd := delayedPass2_sets env hf hc
  have hm : e.insn ∈ e.insns := List.mem_cons_self ..
  have hi {i : Item} (hw : i.writes = none) (hp : i.Plain) : Sets ok [.item i] :=
    (Bc.sets_of_clean hw hp).mpr (sets_nil ok)
  rw [pass2_lines, sets_append, sets_append]
  refine ⟨?_, Instruction.pass2_sets env (hf _ hm) (hc _ hm) hd st, ?_⟩
  · rw [headCode, sets_append]
    constructor
    · split
      · exact hi rfl trivial
      · exact sets_nil ok
    · rw [traceCode]
      split
      · rw [sets_append]
        refine ⟨by simp [sets_nil], Bc.sets_flatMap fun i _ => ?_⟩
        simp only [traceRegisterValues, traceRegister]
        repeat' split
        all_goals simp [sets_nil]
      · exact sets_nil ok
  · cases hdel : e.delayed with
    | none =>
      simp only [againCode, hdel]
      exact sets_nil ok
    | some d =>
      have hmd : d ∈ e.insns :=
        List.mem_cons_of_mem _ (by rw [hdel]; exact List.mem_singleton_self _)
      simp only [againCode, hdel]
      split
      · refine sets_append.mpr ⟨?_, sets_append.mpr ⟨?_, hi rfl trivial⟩⟩
        · simp [sets_nil, sets_item]
        · exact d.pass2_sets env (hf d hmd) (hc d hmd) (fun _ => sets_nil ok) _
      · exact sets_nil ok

end Entry

namespace JavaMethod

open Bc (Sets sets_nil sets_append sets_op sets_item lowerAll)

variable {m : JavaMethod} {array : List Entry}

theorem Made.named (hm : m.Made array) (hp : Controller.pass0 base text = some array)
    (hi : i ∈ m.insns env) : i.Named := by
  rcases hm.insn hp hi with ⟨a, word, hc⟩ | hk | hk | ⟨a, extra, rfl⟩
  · exact .inr (create_fieldsBelow hc)
  · exact .inl (by rw [hk]; rfl)
  · exact .inl (by rw [hk]; rfl)
  · have h0 : (0 : Reg).val < 72 := by decide
    exact .inr ⟨h0, h0, h0, fun dst hd => by cases hd⟩

/-- The lines of the body behind the initial values of the registers. -/
def restLines (env : Env) (m : JavaMethod) : List Bc :=
  (if env.config.optimizePartialMemoryOps then
      .item (.goto .javamethodBegin) :: m.emitSubroutines else []) ++
    [.item (.label .javamethodBegin)] ++ m.functionTable ++ (m.functionsCode env).1 ++
    m.jumptabCode env ++ .item (.label .exceptionHandlers) :: m.backLines env

/-- The code that sets up the registers. -/
def initCode (env : Env) (m : JavaMethod) : List Item :=
  lowerAll (m.pass1 env).regalloc (m.initRegisters (m.pass1 env))

/-- The code behind it. -/
def restCode (env : Env) (m : JavaMethod) : List Item :=
  lowerAll (m.pass1 env).regalloc (m.restLines env)

theorem pass2Lines_rest (env : Env) (m : JavaMethod) :
    m.pass2Lines env = m.initRegisters (m.pass1 env) ++ m.restLines env := by
  rw [pass2Lines_eq, frontLines, restLines]
  simp only [List.append_assoc]

theorem pass2_code (env : Env) (m : JavaMethod) :
    m.pass2 env = m.initCode env ++ m.restCode env := by
  rw [pass2, pass2Lines_rest, Bc.lowerAll_append]
  rfl

/-- The registers that the body changes behind the initial values. -/
def MayChange (env : Env) (m : JavaMethod) (r : Reg) : Prop :=
  r.val < 72 ∨ r = Reg.madr ∨
    (∃ i ∈ m.insns env, i.builtin env = some .try_) ∧ (r = Reg.ecb ∨ r = Reg.ear)

theorem functionsCode_sets (hn : ∀ i ∈ m.insns env, i.Named) :
    Sets (m.MayChange env) (m.functionsCode env).1 := by
  have hall {α : Type} {es : List α} {f : α → Emission}
      (h : ∀ x ∈ es, ∀ st, Sets (m.MayChange env) (f x st).1) (st : MethodState) :
      Sets (m.MayChange env) (Emission.all (es.map f) st).1 := by
    induction es generalizing st with
    | nil => exact sets_nil _
    | cons x es ih =>
      rw [List.map_cons, Emission.all_cons_lines, sets_append]
      exact ⟨h x (List.mem_cons_self ..) st, ih (fun y hy => h y (List.mem_cons_of_mem _ hy)) _⟩
  refine hall (fun fn hf st => ?_) _
  rw [functionCode, Emission.seq_lines, sets_append]
  constructor
  · simp only [Emission.lines]
    split
    · simp [sets_nil, sets_item]
    · exact sets_nil _
  · refine hall (fun e he st => ?_) _
    have hi : ∀ i ∈ e.insns, i ∈ m.insns env := fun i hi =>
      mem_insns_slot.mpr ⟨e, List.mem_flatMap.mpr ⟨fn, hf, he⟩, hi⟩
    refine e.pass2_sets env (fun i h => hn i (hi i h)) (fun i h r hr => ?_) st
    rcases hr with hr | ⟨hb, hr⟩
    · exact .inl hr
    · exact .inr (.inr ⟨⟨i, hi i h, hb⟩, hr⟩)

theorem handler_sets (env : Env) (x : ExceptionHandler) :
    Sets (fun r => r.val < 72) (x.pass2 env) := by
  have hr : returnTy env CallTableMethod.pass1 ≠ some .ret := by
    rw [returnTy]
    repeat' split
    all_goals exact nofun
  cases x <;> simp [ExceptionHandler.pass2, invokeCallTable, invokestatic, hr, sets_nil, sets_op,
    sets_item]

/-- Behind the initial values no line changes the memory array or, without `__NOPH_try`, the
registers of the callback. -/
theorem restLines_sets (hn : ∀ i ∈ m.insns env, i.Named) :
    Sets (m.MayChange env) (m.restLines env) := by
  have hi {i : Item} (hw : i.writes = none) (hp : i.Plain) : Sets (m.MayChange env) [.item i] :=
    (Bc.sets_of_clean hw hp).mpr (sets_nil _)
  rw [restLines]
  simp only [sets_append]
  refine ⟨⟨⟨⟨⟨?_, hi rfl trivial⟩, ?_⟩, functionsCode_sets hn⟩, ?_⟩, ?_⟩
  · split
    · refine (Bc.sets_goto _).mpr (Bc.sets_flatMap fun o _ => ?_)
      rcases emitSubroutineForOp_cases o with h | ⟨z, isSigned, rfl⟩
      · rw [h]
        exact sets_nil _
      · rw [emitSubroutineForOp_load]
        simp [emitLoadSubroutine, loadSubroutineBody, loadSubroutineOps, sets_nil, sets_append,
          sets_op, sets_item, MayChange, Instruction.extendCode_sets]
    · exact sets_nil _
  · rw [functionTable]
    split
    · simp [sets_nil, sets_item]
    · exact sets_nil _
  · rw [jumptabCode]
    split
    · simp [sets_nil, sets_item]
    · exact sets_nil _
  · refine (Bc.sets_label _).mpr ?_
    rw [backLines]
    simp only [sets_append]
    refine ⟨⟨⟨Bc.sets_flatMap fun x _ => ?_, hi rfl trivial⟩, ?_⟩, ?_⟩
    · exact (handler_sets env x).mono fun r => .inl
    · rw [returnLocationCode]
      split
      · simp [sets_nil, sets_item]
      · exact sets_nil _
    · rw [returnCode]
      repeat' split
      all_goals simp [sets_nil, sets_op, sets_item]

/-- Only methods with several functions take a function index. -/
theorem counted_fna (hm : m.Made array) (hp : Controller.pass0 base text = some array)
    (h : 0 < (m.pass1 env).registerUsage.count Reg.fna) : m.hasMultipleFunctions = true := by
  by_contra hf
  simp only [pass1, pass1From, if_neg hf] at h
  rcases (RegisterUsage.pos_addAll _ _ _).mp h with h | ⟨h, -⟩
  · exact absurd h (Nat.lt_irrefl 0)
  · rcases mem_fills_iff.mp h with ⟨i, hi, hr⟩ | ⟨fn, -, hr⟩
    · rcases hm.counts_special hp hi hr (by decide) with h | ⟨h, -⟩ | ⟨h | h, -⟩ <;> cases h
    · rw [Function.startRegisters] at hr
      split at hr
      · exact absurd hr (by decide)
      · cases hr

theorem initRegister_straight {m : JavaMethod} (hb : b ∈ m.initRegister r)
    (hi : i ∈ b.lower ra) : ∃ o, i = .op o ∧ o.setsUp = true := by
  rw [initRegister] at hb
  rcases List.mem_cons.mp hb with rfl | hb
  · split at hi
    · cases List.mem_singleton.mp hi
      exact ⟨_, rfl, rfl⟩
    · split at hi <;> cases List.mem_singleton.mp hi <;> exact ⟨_, rfl, rfl⟩
  · cases List.mem_singleton.mp hb
    rw [Bc.lower] at hi
    split at hi
    · cases hi
    · split at hi <;> cases List.mem_singleton.mp hi <;> exact ⟨_, rfl, rfl⟩

/-- The first lines of a body set up the registers. -/
theorem prologue (hm : m.Made array) (hp : Controller.pass0 base text = some array) (env : Env) :
    Jvm.Prologue (m.initCode env) (m.restCode env) where
  straight i hi := by
    obtain ⟨b, hb, hi⟩ := List.mem_flatMap.mp hi
    obtain ⟨r, -, hb⟩ := List.mem_flatMap.mp hb
    rw [initStep] at hb
    split at hb
    · next h =>
      obtain ⟨rfl, hc, hn⟩ := h
      rw [counted_fna hm hp hc] at hn
      cases hn
    · split at hb
      · cases hb
      · split at hb
        · exact initRegister_straight hb hi
        · cases hb
  plain i hi := ((restLines_sets fun i hi => hm.named hp hi).writes hi).1

/-- Registers that are no arguments start with their initial values. -/
theorem initial_local (hm : m.Made array) (hp : Controller.pass0 base text = some array)
    {rt : Jvm.Runtime σ} (w : Jvm.World σ)
    (he : Jvm.exec rt (m.initCode env) ⟨[], l, w⟩ = .ok ⟨s, l', w⟩)
    (hr : (m.pass1 env).regalloc.regToLocal r = some n)
    (ha : (m.pass1 env).registerIsArgument r = false) : l' n = m.initialValue r := by
  obtain ⟨l₁, he', hin⟩ := exec_initSteps rt w (counted_fna hm hp)
    (RegisterAllocator.setAllocation_isAllocated (m.pass1 env).registerUsage) (List.finRange 86)
    (List.nodup_finRange 86) [] l
  cases he.symm.trans he'
  exact hin.initialized r n hr (List.mem_finRange r) ha

theorem not_argument (env : Env) (m : JavaMethod) (hr : r ∉ RegisterAllocator.initialRegisters) :
    (m.pass1 env).registerIsArgument r = false := by
  rw [MethodPass1.registerIsArgument, ← Bool.not_eq_true, List.contains_iff_mem]
  exact fun h => hr ((m.possibleArguments_prefix env _).subset h)

/-- A register that the body does not change keeps its initial value. -/
theorem constant_local (hm : m.Made array) (hp : Controller.pass0 base text = some array)
    {rt : Jvm.Runtime σ} (w : Jvm.World σ) {f : Jvm.Activation}
    (hs : Jvm.Settled rt (m.initCode env) (m.restCode env) f)
    (hr : (m.pass1 env).regalloc.regToLocal r = some n)
    (ha : (m.pass1 env).registerIsArgument r = false) (hc : ¬ m.MayChange env r) :
    f.locals n = m.initialValue r := by
  obtain ⟨l₀, s₀, l₁, he, hl⟩ := hs.locals
  rw [hl n, initial_local hm hp w (he w) hr ha]
  intro i hi hw
  obtain ⟨r', hok, hr'⟩ := ((restLines_sets fun i hi => hm.named hp hi).writes hi).2 n hw
  cases (m.pass1 env).regalloc.injective hr hr'
  exact hc hok

/-- The memory array stays in its local. -/
theorem memory_local (hm : m.Made array) (hp : Controller.pass0 base text = some array)
    {rt : Jvm.Runtime σ} (w : Jvm.World σ) {f : Jvm.Activation}
    (hs : Jvm.Settled rt (m.initCode env) (m.restCode env) f)
    (hr : (m.pass1 env).regalloc.regToLocal Reg.mem = some n) : f.locals n = .ref .memory := by
  rw [constant_local hm hp w hs hr (not_argument env m (by decide)), initialValue,
    if_neg (fun h => absurd h.2 (by decide)), if_pos rfl]
  rintro (h | h | ⟨-, h | h⟩)
  · exact absurd h (by decide)
  all_goals cases h

end JavaMethod

end Cibyl
