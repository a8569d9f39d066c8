import Cibyl.StackTypes
import Cibyl.UsageSound

namespace Cibyl
set_option autoImplicit true

open Jvm (StackType StackTypes Label Op IntOp)
open Jvm.StackType (int long float memory object)
open Emit (op intOp pushconst pushconst_u pushconst_l pushaddress pushindex)

namespace Bc

section

variable {ra : RegisterAllocator} {base s : StackTypes} {bs : List Bc}

theorem check_append (bs cs : List Bc) (st : Option StackTypes) :
    check ra base (bs ++ cs) st = (check ra base bs st).bind (check ra base cs) := by
  induction bs generalizing st with
  | nil => rfl
  | cons b bs ih =>
    rw [List.cons_append, check, check]
    cases b.flow ra base st with
    | none => rfl
    | some st' => exact ih st'

@[simp] theorem check_nil (st : Option StackTypes) : check ra base [] st = some st := rfl

theorem check_line {b : Bc} (hb : b.IsLine) (h : b.types ra s = some s') (bs : List Bc) :
    check ra base (b :: bs) (some s) = check ra base bs (some s') := by
  rw [check, flow_line hb, h]
  rfl

theorem check_pushregister (ho : Reg.Ordinary r) : check ra base (.pushregister r :: bs) (some s) =
    check ra base bs (some (int :: s)) := by
  have ht : pushType ra r = some int := by
    rw [pushType, localType, if_neg ho.1, if_neg ho.2]
    split <;> rfl
  exact check_line (b := .pushregister r) trivial (by rw [types, ht]; rfl) bs

theorem check_pushmem (ha : ra.regIsAllocated Reg.mem = true) :
    check ra base (.pushregister Reg.mem :: bs) (some s) =
      check ra base bs (some (memory :: s)) := by
  have ht : pushType ra Reg.mem = some memory := by
    rw [pushType, ha]
    rfl
  exact check_line (b := .pushregister Reg.mem) trivial (by rw [types, ht]; rfl) bs

theorem check_popregister (hw : Writable ra r) :
    check ra base (.popregister r :: bs) (some (int :: s)) = check ra base bs (some s) := by
  have ht : types ra (.popregister r) (int :: s) = some s := by
    rw [types, if_pos hw.1, localType, if_neg hw.2.1]
    rfl
  exact check_line (b := .popregister r) trivial ht bs

theorem check_popzero : check ra base (.popregister 0 :: bs) (some s) =
    check ra base bs (some s) := by
  have ht : types ra (.popregister 0) s = some s := by
    have hz : ra.regIsAllocated 0 = false := by
      rw [RegisterAllocator.regIsAllocated, ra.zero_none]
      rfl
    rw [types, hz]
    rfl
  exact check_line (b := .popregister 0) trivial ht bs

/-- The result stays on the stack when it is for register zero. -/
theorem check_result (hw : r = 0 ∨ Writable ra r) :
    check ra base (.popregister r :: bs) (some (int :: s)) =
      check ra base bs (some (if r = 0 then int :: s else s)) := by
  split
  · next h => rw [h, check_popzero]
  · next h => exact check_popregister (hw.resolve_left h)

@[simp] theorem check_op (o : Op) : check ra base (op o :: bs) (some s) =
    (o.types s).bind (fun s' => check ra base bs (some s')) := by
  rw [check, op, flow_line (b := .item (.op o)) trivial, types]
  cases o.types s <;> rfl

@[simp] theorem check_pushconst (v : Word) : check ra base (pushconst v :: bs) (some s) =
    check ra base bs (some (int :: s)) := by
  rw [pushconst]
  repeat' split
  all_goals rfl

@[simp] theorem check_pushconst_u (v : Word) : check ra base (pushconst_u v :: bs) (some s) =
    check ra base bs (some (int :: s)) := by
  rw [pushconst_u]
  repeat' split
  all_goals rfl

@[simp] theorem check_pushconst_l (v : DWord) : check ra base (pushconst_l v :: bs) (some s) =
    check ra base bs (some (long :: s)) := rfl

@[simp] theorem check_intOp (o : IntOp) :
    check ra base (intOp o :: bs) (some (int :: int :: s)) =
      check ra base bs (some (int :: s)) := rfl

theorem check_iinc (hw : Writable ra r) (k : Int) :
    check ra base (.iinc r k :: bs) (some s) = check ra base bs (some s) :=
  check_line (b := .iinc r k) trivial (if_pos ⟨hw.1, hw.2⟩) bs

theorem check_label (l : Label) : check ra base (.item (.label l) :: bs) (some (l.entry ++ base)) =
    check ra base bs (some (l.entry ++ base)) := by
  rw [check, flow, if_pos rfl]
  rfl

theorem check_handler (start stop : Word) :
    check ra base (.item (.label (.handler start stop)) :: bs) none =
      check ra base bs (some (object :: base)) := rfl

theorem check_goto (l : Label) : check ra base (.item (.goto l) :: bs) (some (l.entry ++ base)) =
    check ra base bs none := by
  rw [check, flow, if_pos rfl]
  rfl

theorem check_cond1 (c : Jvm.Cond1) (l : Label) :
    check ra base (.item (.cond1 c l) :: bs) (some (int :: (l.entry ++ base))) =
      check ra base bs (some (l.entry ++ base)) := by
  rw [check, flow, if_pos rfl]
  rfl

theorem check_cond2 (c : Jvm.Cond2) (l : Label) :
    check ra base (.item (.cond2 c l) :: bs) (some (int :: int :: (l.entry ++ base))) =
      check ra base bs (some (l.entry ++ base)) := by
  rw [check, flow, if_pos rfl]
  rfl

theorem check_pushaddress (ho : Reg.Ordinary r) (extra : Word) :
    check ra base (pushaddress r extra ++ bs) (some s) = check ra base bs (some (int :: s)) := by
  rw [pushaddress]
  split <;> simp [check_pushregister ho]

theorem check_pushindex (ho : Reg.Ordinary r) (extra : Word) :
    check ra base (pushindex r extra ++ bs) (some s) = check ra base bs (some (int :: s)) := by
  rw [pushindex]
  repeat' split
  all_goals simp [check_pushregister ho]

theorem check_splitLong (hh : Writable ra high) (hl : Writable ra low) :
    check ra base (Instruction.splitLong high low ++ bs) (some (long :: s)) =
      check ra base bs (some s) := by
  simp [Instruction.splitLong, check_popregister hh, check_popregister hl, Op.types]

end

end Bc

namespace Instruction

open Bc

/-- The registers of an instruction are those that hold integers. -/
structure Plain (insn : Instruction) : Prop where
  rs : Reg.Ordinary insn.rs
  rt : Reg.Ordinary insn.rt
  rd : Reg.Ordinary insn.rd
  dst : ∀ dst, insn.kind = .mtxx dst → Reg.Ordinary dst

theorem ordinary_of_lt {r : Reg} (h : r.val < 72) : Reg.Ordinary r := by
  constructor <;> intro he <;> rw [he] at h <;> exact absurd h (by decide)

theorem FieldsBelow.plain {insn : Instruction} (h : insn.FieldsBelow) : insn.Plain where
  rs := ordinary_of_lt h.1
  rt := ordinary_of_lt h.2.1
  rd := ordinary_of_lt h.2.2.1
  dst dst hk := ordinary_of_lt (h.2.2.2 dst hk)

/-- The register that the code of the class pops its result to. -/
def result (insn : Instruction) : Option Reg :=
  match insn.kind with
  | .rfmt _ | .addu | .subu | .nor | .shiftInstruction _ | .shiftInstructionV _ | .slt | .sltu
  | .mfxx => some insn.rd
  | .ifmt _ | .addi | .lui | .slti | .sltiu | .loadXX _ | .lw | .partialLoad .. => some insn.rt
  | .mtxx dst => some dst
  | _ => none

/-- The encodings of `nop` that the classes look for. -/
def nopEncoding (insn : Instruction) : Bool :=
  match insn.kind with
  | .addu => insn.rt = 0 ∧ insn.rs = 0 ∧ insn.rd = 0
  | .shiftInstruction _ => insn.rt = 0 ∧ insn.extra = 0 ∧ insn.rd = 0
  | _ => false

/-- A result for register zero, of an instruction that is not a `nop`. -/
def DropsResult (insn : Instruction) : Prop := insn.result = some 0 ∧ insn.nopEncoding = false

instance (insn : Instruction) : Decidable insn.DropsResult := instDecidableAnd

/-- The stack after an instruction. -/
def leaves (insn : Instruction) (s : StackTypes) : StackTypes :=
  if insn.DropsResult then int :: s else s

section

variable {ra : RegisterAllocator} {base s : StackTypes} {insn : Instruction}

theorem leaves_some (hr : insn.result = some r) (hn : insn.nopEncoding = false) (s : StackTypes) :
    insn.leaves s = if r = 0 then int :: s else s := by
  refine if_congr ?_ rfl rfl
  rw [DropsResult, hr, Option.some.injEq, and_iff_left hn]

theorem leaves_none (hr : insn.result = none) (s : StackTypes) : insn.leaves s = s := by
  refine if_neg (fun h => ?_)
  rw [DropsResult, hr] at h
  cases h.1

theorem leaves_nop (hn : insn.nopEncoding = true) (s : StackTypes) : insn.leaves s = s := by
  refine if_neg (fun h => ?_)
  rw [DropsResult, hn] at h
  cases h.2

theorem rfmtCode_check (hp : insn.Plain) (hw : insn.rd = 0 ∨ Writable ra insn.rd) (bc : IntOp) :
    check ra base (insn.rfmtCode bc) (some s) =
      some (some (if insn.rd = 0 then int :: s else s)) := by
  rw [rfmtCode, check_pushregister hp.rs, check_pushregister hp.rt, check_intOp, check_result hw]
  rfl

theorem ifmtCode_check (hp : insn.Plain) (hw : insn.rt = 0 ∨ Writable ra insn.rt) (bc : IntOp) :
    check ra base (insn.ifmtCode bc) (some s) =
      some (some (if insn.rt = 0 then int :: s else s)) := by
  rw [ifmtCode, check_pushregister hp.rs, check_pushconst, check_intOp, check_result hw]
  rfl

theorem adduCode_check (hp : insn.Plain) (hw : insn.rd = 0 ∨ Writable ra insn.rd)
    (hn : ¬ (insn.rt = 0 ∧ insn.rs = 0 ∧ insn.rd = 0)) :
    check ra base insn.adduCode (some s) =
      some (some (if insn.rd = 0 then int :: s else s)) := by
  rw [adduCode, if_neg hn]
  split
  · exact rfmtCode_check hp hw _
  · split
    · rw [check_pushregister hp.rs, check_result hw]
      rfl
    · rw [check_pushregister hp.rt, check_result hw]
      rfl

theorem subuCode_check (hp : insn.Plain) (hw : insn.rd = 0 ∨ Writable ra insn.rd) :
    check ra base insn.subuCode (some s) =
      some (some (if insn.rd = 0 then int :: s else s)) := by
  rw [subuCode]
  split
  · rw [check_pushregister hp.rt, check_op, Op.types, Option.bind_some, check_result hw]
    rfl
  · exact rfmtCode_check hp hw _

theorem norCode_check (hp : insn.Plain) (hw : insn.rd = 0 ∨ Writable ra insn.rd) :
    check ra base insn.norCode (some s) =
      some (some (if insn.rd = 0 then int :: s else s)) := by
  have hr : check ra base [.popregister insn.rd] (some (int :: s)) =
      some (some (if insn.rd = 0 then int :: s else s)) := check_result hw
  rw [norCode]
  generalize (if insn.rd = 0 then int :: s else s) = t at hr ⊢
  repeat' split
  all_goals
    simp only [List.cons_append, List.nil_append, check_pushregister hp.rs,
      check_pushregister hp.rt, check_intOp, check_pushconst, hr]

theorem addiCode_check (hp : insn.Plain) (hw : insn.rt = 0 ∨ Writable ra insn.rt) :
    check ra base insn.addiCode (some s) =
      some (some (if insn.rt = 0 then int :: s else s)) := by
  rw [addiCode]
  split
  · rw [check_pushconst, check_result hw]
    rfl
  · next hs =>
    split
    · next h =>
      have hz : insn.rt ≠ 0 := fun hz => hs (h.1.symm.trans hz)
      rw [check_iinc (hw.resolve_left hz), if_neg hz]
      rfl
    · exact ifmtCode_check hp hw _

theorem lessCode_check (hw : r = 0 ∨ Writable ra r) :
    check ra base (lessCode r) (some (long :: long :: s)) =
      some (some (if r = 0 then int :: s else s)) := by
  simp only [lessCode, check_op, Op.types, Option.bind_some, check_pushconst, check_intOp,
    check_result hw, check_nil]

theorem pushUnsigned_check (ho : Reg.Ordinary r) : check ra base (pushUnsigned r ++ bs) (some s) =
    check ra base bs (some (long :: s)) := by
  simp only [pushUnsigned, List.cons_append, List.nil_append, check_pushregister ho, check_op,
    Op.types, Option.bind_some, check_pushconst_l]

theorem check_splitLong_nil (hh : Writable ra high) (hl : Writable ra low) :
    check ra base (splitLong high low) (some (long :: s)) = some (some s) := by
  rw [← List.append_nil (splitLong high low), check_splitLong hh hl]
  rfl

theorem multCode_check (hp : insn.Plain) (hh : insn.usingHi env = true → Writable ra Reg.hi)
    (hl : Writable ra Reg.lo) : check ra base (insn.multCode env) (some s) = some (some s) := by
  rw [multCode]
  split
  · next hu =>
    simp only [List.cons_append, List.nil_append, check_pushregister hp.rs,
      check_pushregister hp.rt, check_op, Op.types, Option.bind_some,
      check_splitLong_nil (hh hu) hl]
  · simp only [check_pushregister hp.rs, check_pushregister hp.rt, check_intOp,
      check_popregister hl, check_nil]

theorem divCode_check (hp : insn.Plain) (hh : insn.usingHi env = true → Writable ra Reg.hi)
    (hl : Writable ra Reg.lo) : check ra base (insn.divCode env) (some s) = some (some s) := by
  rw [divCode]
  split
  · next hu =>
    simp [check_pushregister hp.rs, check_pushregister hp.rt, check_op, Op.types,
      check_popregister (hh hu), check_popregister hl]
  · simp only [check_pushregister hp.rs, check_pushregister hp.rt, check_intOp,
      check_popregister hl, check_nil]

theorem mulDivCode_check (hp : insn.Plain) (hh : Writable ra Reg.hi) (hl : Writable ra Reg.lo)
    (bc : UnsignedOp) : check ra base (insn.mulDivCode bc) (some s) = some (some s) := by
  cases bc <;> simp only [mulDivCode, List.cons_append, List.nil_append, check_pushregister hp.rs,
    check_pushregister hp.rt, check_op, Op.types, Option.bind_some, check_splitLong_nil hh hl]

theorem loadXXCode_check (hp : insn.Plain) (hw : insn.rt = 0 ∨ Writable ra insn.rt)
    (env : Env) (bc : Jvm.ReadWhat) : check ra base (insn.loadXXCode env bc) (some s) =
      some (some (if insn.rt = 0 then int :: s else s)) := by
  have hr : check ra base [.popregister insn.rt] (some (int :: s)) =
      some (some (if insn.rt = 0 then int :: s else s)) := check_result hw
  rw [loadXXCode, check_pushaddress hp.rs]
  split
  · exact hr
  · exact hr

theorem skipsRa_ne (h : insn.skipsRa env = true) : insn.rt ≠ 0 := by
  rw [skipsRa, Bool.and_eq_true, beq_iff_eq] at h
  rw [h.1]
  decide

theorem lwCode_check (hp : insn.Plain) (hw : insn.rt = 0 ∨ Writable ra insn.rt)
    (hm : ra.regIsAllocated Reg.mem = true) (env : Env) :
    check ra base (insn.lwCode env) (some s) =
      some (some (if insn.rt = 0 then int :: s else s)) := by
  rw [lwCode]
  split
  · next h =>
    rw [if_neg (skipsRa_ne h)]
    rfl
  · simp only [List.cons_append, List.nil_append, check_pushmem hm, check_pushindex hp.rs, check_op,
      Op.types, Option.bind_some, check_result hw, check_nil]

theorem pushLaneShift_check (hp : insn.Plain) (w : WordSize) :
    check ra base (insn.pushLaneShift w ++ bs) (some s) = check ra base bs (some (int :: s)) := by
  simp only [pushLaneShift, List.cons_append, List.nil_append, List.append_assoc, check_pushconst,
    check_pushaddress hp.rs, check_intOp]

theorem extendCode_check (w : WordSize) (isSigned : Bool) :
    check ra base (extendCode w isSigned ++ bs) (some (int :: s)) =
      check ra base bs (some (int :: s)) := by
  cases w <;> cases isSigned <;> rfl

theorem partialLoadCode_check (hp : insn.Plain) (hw : insn.rt = 0 ∨ Writable ra insn.rt)
    (hm : ra.regIsAllocated Reg.mem = true) (env : Env) (w : WordSize) (isSigned : Bool) :
    check ra base (insn.partialLoadCode env w isSigned) (some s) =
      some (some (if insn.rt = 0 then int :: s else s)) := by
  rw [partialLoadCode]
  split
  · exact loadXXCode_check hp hw env _
  · split
    · next h =>
      rw [if_neg (skipsRa_ne h)]
      rfl
    · simp only [List.cons_append, List.nil_append, List.append_assoc, check_pushmem hm,
        check_pushindex hp.rs, check_op, Op.types, Option.bind_some, pushLaneShift_check hp,
        check_intOp, extendCode_check, check_result hw, check_nil]

theorem traceStore_check (hp : insn.Plain) (bc : Jvm.WriteWhat) :
    check ra base (insn.traceStore bc ++ bs) (some s) = check ra base bs (some s) := by
  simp only [traceStore, List.cons_append, List.nil_append, List.append_assoc, check_pushconst,
    check_pushaddress hp.rs, check_pushregister hp.rt, check_op, Op.types, Option.bind_some]

theorem storeXXCode_check (hp : insn.Plain) (env : Env) (bc : Jvm.WriteWhat) :
    check ra base (insn.storeXXCode env bc) (some s) = some (some s) := by
  rw [storeXXCode, List.append_assoc]
  split
  · rw [traceStore_check hp, check_pushaddress hp.rs, check_pushregister hp.rt]
    rfl
  · rw [List.nil_append, check_pushaddress hp.rs, check_pushregister hp.rt]
    rfl

theorem swCode_check (hp : insn.Plain) (hm : ra.regIsAllocated Reg.mem = true) (env : Env) :
    check ra base (insn.swCode env) (some s) = some (some s) := by
  have hs : check ra base ([.pushregister Reg.mem] ++ pushindex insn.rs insn.extra ++
      [.pushregister insn.rt, op .iastore]) (some s) = some (some s) := by
    simp only [List.cons_append, List.nil_append, check_pushmem hm, check_pushindex hp.rs,
      check_pushregister hp.rt, check_op, Op.types, Option.bind_some, check_nil]
  rw [swCode]
  split
  · rfl
  · rw [List.append_assoc, List.append_assoc]
    rw [List.append_assoc] at hs
    split
    · rw [traceStore_check hp, hs]
    · rw [List.nil_append, hs]

theorem partialStoreCode_check (hp : insn.Plain) (hm : ra.regIsAllocated Reg.mem = true)
    (env : Env) (w : WordSize) :
    check ra base (insn.partialStoreCode env w) (some s) = some (some s) := by
  rw [partialStoreCode]
  split
  · exact storeXXCode_check hp env _
  · split
    · rfl
    · simp [check_pushmem hm, check_pushindex hp.rs, Op.types, pushLaneShift_check hp,
        check_pushregister hp.rt]

theorem catchCode_check (env : Env) (insn : Instruction) :
    check ra base (insn.catchCode env) (some base) = some (some base) := by
  rw [catchCode]
  induction env.exceptionClasses insn.extra with
  | nil => exact check_label (.addr insn.address)
  | cons cl cls ih => exact ih

/-- What an instruction needs of the allocation. -/
structure Allocated (ra : RegisterAllocator) (env : Env) (insn : Instruction) : Prop where
  registers : ∀ r, r ∈ insn.fillDestinations env ∨ r ∈ insn.fillSources env → r ≠ Reg.zero →
    ra.regIsAllocated r = true

theorem Allocated.writable (ha : insn.Allocated ra env)
    (hr : r ∈ insn.fillDestinations env ∨ r ∈ insn.fillSources env) (ho : Reg.Ordinary r) :
    r = 0 ∨ Writable ra r :=
  (eq_or_ne r 0).imp_right fun hz => ⟨ha.registers r hr hz, ho⟩

/-- Every instruction but the parts of a syscall and the branches. -/
theorem code_check (ha : insn.Allocated ra env) (hp : insn.Plain)
    (hs : insn.kind ≠ .syscallInsn) (hr : insn.kind ≠ .syscallRegisterArgument)
    (hc : insn.kind = .catchInsn → s = base) :
    check ra base (insn.code env) (some s) = some (some (insn.leaves s)) := by
  have hf := ha.writable (r := insn.rd)
  have ht := ha.writable (r := insn.rt)
  have hm (h : Reg.mem ∈ insn.fillSources env) : ra.regIsAllocated Reg.mem = true :=
    ha.registers _ (.inr h) (by decide)
  have hx {r : Reg} (h : r ∈ insn.fillDestinations env ∨ r ∈ insn.fillSources env)
      (ho : Reg.Ordinary r) (hz : r ≠ 0) : Writable ra r :=
    (ha.writable h ho).resolve_left hz
  have hlo : Reg.Ordinary Reg.lo ∧ Reg.lo ≠ 0 := by decide
  have hhi : Reg.Ordinary Reg.hi ∧ Reg.hi ≠ 0 := by decide
  rw [fillDestinations.eq_def, fillSources.eq_def] at hf ht
  rw [fillSources.eq_def] at hm
  rw [fillDestinations.eq_def, fillSources.eq_def] at hx
  rw [code]
  cases hk : insn.kind <;> simp only [hk] at hf ht hm hx
  case addu =>
    have hrd := hf (.inl (List.mem_singleton_self _)) hp.rd
    by_cases hn : insn.rt = 0 ∧ insn.rs = 0 ∧ insn.rd = 0
    · rw [leaves_nop (by rw [nopEncoding, hk]; exact decide_eq_true hn)]
      exact congrArg (check ra base · (some s)) (if_pos hn)
    · rw [leaves_some (r := insn.rd) (by rw [result, hk])
        (by rw [nopEncoding, hk]; exact decide_eq_false hn)]
      exact adduCode_check hp hrd hn
  case shiftInstruction bc =>
    have hrd := hf (.inl (List.mem_singleton_self _)) hp.rd
    by_cases hn : insn.rt = 0 ∧ insn.extra = 0 ∧ insn.rd = 0
    · rw [leaves_nop (by rw [nopEncoding, hk]; exact decide_eq_true hn)]
      exact congrArg (check ra base · (some s)) (if_pos hn)
    · rw [leaves_some (r := insn.rd) (by rw [result, hk])
        (by rw [nopEncoding, hk]; exact decide_eq_false hn)]
      simp only [shiftCode, if_neg hn, check_pushregister hp.rt, check_pushconst, check_intOp,
        check_result hrd, check_nil]
  case rfmt bc =>
    rw [leaves_some (r := insn.rd) (by rw [result, hk]) (by rw [nopEncoding, hk])]
    exact rfmtCode_check hp (hf (.inl (List.mem_singleton_self _)) hp.rd) bc
  case subu =>
    rw [leaves_some (r := insn.rd) (by rw [result, hk]) (by rw [nopEncoding, hk])]
    exact subuCode_check hp (hf (.inl (List.mem_singleton_self _)) hp.rd)
  case nor =>
    rw [leaves_some (r := insn.rd) (by rw [result, hk]) (by rw [nopEncoding, hk])]
    exact norCode_check hp (hf (.inl (List.mem_singleton_self _)) hp.rd)
  case shiftInstructionV bc =>
    rw [leaves_some (r := insn.rd) (by rw [result, hk]) (by rw [nopEncoding, hk])]
    simp only [shiftVCode, check_pushregister hp.rt, check_pushregister hp.rs, check_intOp,
      check_result (hf (.inl (List.mem_singleton_self _)) hp.rd), check_nil]
  case ifmt bc =>
    rw [leaves_some (r := insn.rt) (by rw [result, hk]) (by rw [nopEncoding, hk])]
    exact ifmtCode_check hp (ht (.inl (List.mem_singleton_self _)) hp.rt) bc
  case addi =>
    rw [leaves_some (r := insn.rt) (by rw [result, hk]) (by rw [nopEncoding, hk])]
    exact addiCode_check hp (ht (.inl (List.mem_singleton_self _)) hp.rt)
  case lui =>
    rw [leaves_some (r := insn.rt) (by rw [result, hk]) (by rw [nopEncoding, hk])]
    rw [luiCode, check_pushconst_u, check_result (ht (.inl (List.mem_singleton_self _)) hp.rt)]
    rfl
  case mfxx =>
    rw [leaves_some (r := insn.rd) (by rw [result, hk]) (by rw [nopEncoding, hk])]
    rw [mfxxCode, check_pushregister hp.rs,
      check_result (hf (.inl (List.mem_singleton_self _)) hp.rd)]
    rfl
  case mtxx dst =>
    have hw : dst = 0 ∨ Writable ra dst := or_iff_not_imp_left.mpr
      (hx (.inr (List.mem_singleton_self _)) (hp.dst dst hk))
    rw [leaves_some (r := dst) (by rw [result, hk]) (by rw [nopEncoding, hk])]
    simp only [mtxxCode, check_pushregister hp.rs, check_result hw, check_nil]
  case mulDiv bc =>
    rw [leaves_none (by rw [result, hk])]
    exact mulDivCode_check hp (hx (.inl (by simp)) hhi.1 hhi.2) (hx (.inl (by simp)) hlo.1 hlo.2) bc
  case mult =>
    rw [leaves_none (by rw [result, hk])]
    have hh (h : insn.usingHi env = true) : Writable ra Reg.hi :=
      hx (.inl (by simp [h])) hhi.1 hhi.2
    exact multCode_check hp hh (hx (.inl (by split <;> simp)) hlo.1 hlo.2)
  case div =>
    rw [leaves_none (by rw [result, hk])]
    have hh (h : insn.usingHi env = true) : Writable ra Reg.hi :=
      hx (.inl (by simp [h])) hhi.1 hhi.2
    exact divCode_check hp hh (hx (.inl (by split <;> simp)) hlo.1 hlo.2)
  case slt =>
    rw [leaves_some (r := insn.rd) (by rw [result, hk]) (by rw [nopEncoding, hk])]
    rw [sltCode]
    simp only [List.cons_append, List.nil_append, check_pushregister hp.rt, check_op,
      check_pushregister hp.rs, Op.types, Option.bind_some,
        lessCode_check (hf (.inl (List.mem_singleton_self _)) hp.rd)]
  case slti =>
    rw [leaves_some (r := insn.rt) (by rw [result, hk]) (by rw [nopEncoding, hk])]
    rw [sltiCode]
    simp only [List.cons_append, List.nil_append, check_pushconst, check_op,
      check_pushregister hp.rs, Op.types, Option.bind_some,
        lessCode_check (ht (.inl (List.mem_singleton_self _)) hp.rt)]
  case sltu =>
    rw [leaves_some (r := insn.rd) (by rw [result, hk]) (by rw [nopEncoding, hk])]
    rw [sltuCode]
    simp only [List.append_assoc, pushUnsigned_check hp.rt, pushUnsigned_check hp.rs,
      lessCode_check (hf (.inl (List.mem_singleton_self _)) hp.rd)]
  case sltiu =>
    rw [leaves_some (r := insn.rt) (by rw [result, hk]) (by rw [nopEncoding, hk])]
    rw [sltiuCode]
    simp only [List.cons_append, List.nil_append, check_pushconst_l, pushUnsigned_check hp.rs,
      lessCode_check (ht (.inl (List.mem_singleton_self _)) hp.rt)]
  case loadXX bc =>
    rw [leaves_some (r := insn.rt) (by rw [result, hk]) (by rw [nopEncoding, hk])]
    exact loadXXCode_check hp (ht (.inl (by split <;> simp)) hp.rt) env bc
  case lw =>
    rw [leaves_some (r := insn.rt) (by rw [result, hk]) (by rw [nopEncoding, hk])]
    exact lwCode_check hp (ht (.inl (by split <;> simp)) hp.rt) (hm (by simp)) env
  case partialLoad w isSigned =>
    rw [leaves_some (r := insn.rt) (by rw [result, hk]) (by rw [nopEncoding, hk])]
    exact partialLoadCode_check hp (ht (.inl (by split <;> simp)) hp.rt) (hm (by simp)) env w
      isSigned
  case storeXX bc =>
    rw [leaves_none (by rw [result, hk])]
    exact storeXXCode_check hp env bc
  case sw =>
    rw [leaves_none (by rw [result, hk])]
    exact swCode_check hp (hm (by simp)) env
  case partialStore w =>
    rw [leaves_none (by rw [result, hk])]
    exact partialStoreCode_check hp (hm (by simp)) env w
  case syscallInsn => exact absurd hk hs
  case syscallRegisterArgument => exact absurd hk hr
  case catchInsn =>
    rw [leaves_none (by rw [result, hk])]
    rw [hc hk]
    exact catchCode_check env insn
  all_goals
    rw [leaves_none (by rw [result, hk])]
    rfl

end

end Instruction

end Cibyl
