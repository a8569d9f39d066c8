import Cibyl.Labels
import Cibyl.UsageSound
import Mathlib.Data.List.Flatten

namespace Cibyl
set_option autoImplicit true

open Jvm (Label)
open Mark (defined named)

theorem emitted_attachDelaySlots (hk : ∀ i ∈ insns, i.kind ≠ .delaySlotNop) :
    (attachDelaySlots insns).flatMap Entry.emitted = insns := by
  fun_induction attachDelaySlots insns with
  | case1 => rfl
  | case2 insn h =>
    rw [List.flatMap_singleton]
    exact emitted_single (hk _ (List.mem_cons_self ..))
  | case3 insn h d insns ih =>
    have hi : insn.kind ≠ .delaySlotNop := hk _ (List.mem_cons_self ..)
    have hd : d.kind ≠ .delaySlotNop := hk _ (List.mem_cons_of_mem _ (List.mem_cons_self ..))
    have hem : Entry.emitted ⟨insn, some d, fun _ => h⟩ = [insn, d] := by
      rw [Entry.emitted, Entry.insns]
      simp [hi, hd]
    rw [List.flatMap_cons, List.flatMap_cons, hem,
      ih fun i hi => hk i (List.mem_cons_of_mem _ (List.mem_cons_of_mem _ hi))]
    rfl
  | case4 insn insns h ih =>
    rw [List.flatMap_cons, emitted_single (hk _ (List.mem_cons_self ..)),
      ih fun i hi => hk i (List.mem_cons_of_mem _ hi)]
    rfl

/-- A delay-slot instruction leaves a nop at its own address. -/
theorem nop_of_delayed {e : Entry} (he : e ∈ attachDelaySlots insns) (hd : e.delayed = some d) :
    .single (InstructionFactory.createDelaySlotNop d.address) ∈ attachDelaySlots insns := by
  fun_induction attachDelaySlots insns with
  | case1 => cases he
  | case2 insn h =>
    cases List.mem_singleton.mp he
    cases hd
  | case3 insn h d' insns ih =>
    rcases List.mem_cons.mp he with rfl | he
    · cases hd
      exact List.mem_cons_of_mem _ (List.mem_cons_self ..)
    · rcases List.mem_cons.mp he with rfl | he
      · cases hd
      · exact List.mem_cons_of_mem _ (List.mem_cons_of_mem _ (ih he))
  | case4 insn insns h ih =>
    rcases List.mem_cons.mp he with rfl | he
    · cases hd
    · exact List.mem_cons_of_mem _ (ih he)

theorem nodup_map_of_subperm {xs ys : List α} (h : xs.Subperm ys) (g : α → β)
    (hn : (ys.map g).Nodup) : (xs.map g).Nodup := by
  obtain ⟨zs, hperm, hsub⟩ := h
  exact (hperm.map g).nodup_iff.mp ((hsub.map g).nodup hn)

theorem subperm_flatMap {xs ys : List α} (h : xs.Subperm ys) (f : α → List β) :
    (xs.flatMap f).Subperm (ys.flatMap f) := by
  obtain ⟨zs, hperm, hsub⟩ := h
  exact ⟨zs.flatMap f, hperm.flatMap_right f, hsub.flatMap f⟩

namespace JavaMethod

variable {m : JavaMethod} {array : List Entry}

/-- The slots of a method stand at different addresses. -/
theorem Of.slot_nodup (hm : m.Of array) (hp : Controller.pass0 base text = some array)
    (hl : 4 * text.length ≤ 2 ^ 32) (env : Env) :
    ((m.slots env).map (fun e => e.insn.address)).Nodup := by
  obtain ⟨insns, hd, rfl⟩ := Option.map_eq_some_iff.mp hp
  have ha : (m.slots env).map (fun e => e.insn.address) =
      (m.functions.flatMap Function.entries).map (fun e => e.insn.address) := by
    generalize m.functions.flatMap Function.entries = es, m.slots env = fs,
      m.slots_replaced env = hr
    induction hr with
    | nil => rfl
    | cons h _ ih => rw [List.map_cons, List.map_cons, h.address, ih]
  rw [ha]
  refine nodup_map_of_subperm hm.disjoint _ ?_
  rw [attachDelaySlots_addresses]
  exact Controller.decode_nodup hd hl

/-- So do the instructions they emit. -/
theorem Of.emitted_nodup (hm : m.Of array) (hp : Controller.pass0 base text = some array)
    (hl : 4 * text.length ≤ 2 ^ 32) (env : Env) :
    (((m.slots env).flatMap Entry.emitted).map Instruction.address).Nodup := by
  have hslot {e : Entry} (he : e ∈ m.functions.flatMap Function.entries) : e ∈ array :=
    hm.disjoint.subset he
  rw [Entry.flatMap_emitted (m.slots_replaced env) fun e he => Controller.pass0_slot hp (hslot he)]
  refine nodup_map_of_subperm (subperm_flatMap hm.disjoint Entry.emitted) _ ?_
  obtain ⟨insns, hd, rfl⟩ := Option.map_eq_some_iff.mp hp
  rw [emitted_attachDelaySlots]
  · exact Controller.decode_nodup hd hl
  · intro i hi
    obtain ⟨word, -, hc⟩ := Controller.mem_decode hd hi
    exact create_not_delaySlotNop hc

end JavaMethod

namespace Instruction

/-- An instruction that defines a label of its own address. -/
def isSite (env : Env) (insn : Instruction) : Bool :=
  insn.builtin env == some .setjmp || insn.kind == .catchInsn

/-- The addresses that the code of an instruction goes to or protects. -/
def targets (env : Env) (insn : Instruction) : List Word :=
  match insn.kind with
  | .jump => if env.getBranchTarget (insn.extra <<< 2) then [insn.extra <<< 2] else []
  | .jal | .jalr | .jalReturn => if insn.staysInMethod env then [insn.extra <<< 2] else []
  | .oneRegisterConditionalJump _ | .twoRegisterConditionalJump _ => [insn.dst]
  | .catchInsn => (env.exceptionClasses insn.extra).map (fun _ => env.tryInstruction insn.address)
  | _ => []

theorem defined_callMarks (env : Env) (insn : Instruction) : defined (insn.callMarks env) =
    if insn.builtin env = some .setjmp then [.addr insn.address] else [] := by
  rw [callMarks]
  split
  · rfl
  · split <;> rfl

theorem defined_loadMarks (env : Env) (bc : Jvm.ReadWhat) (insn : Instruction) :
    defined (insn.loadMarks env bc) = [] := by
  rw [loadMarks]
  split <;> rfl

theorem isSite_of_call {insn : Instruction} (h : insn.isCall = true) :
    insn.isSite env = true ↔ insn.builtin env = some .setjmp := by
  have hk : insn.kind ≠ .catchInsn := by
    intro hk
    rw [isCall, hk] at h
    cases h
  simp [isSite, hk]

theorem isSite_of_not_call {insn : Instruction} (h : insn.isCall = false) :
    insn.isSite env = true ↔ insn.kind = .catchInsn := by
  have hb : insn.builtin env ≠ some .setjmp := by
    intro hb
    rcases kind_of_builtin hb with hk | hk | hk <;> rw [isCall, hk] at h <;> cases h
  simp [isSite, hb]

/-- An instruction defines at most the label of its address. -/
theorem defined_marks (env : Env) (insn : Instruction) : defined (insn.marks env) =
    if insn.isSite env then [.addr insn.address] else [] := by
  cases hc : insn.isCall with
  | true =>
    simp only [isSite_of_call hc]
    cases hk : insn.kind <;> rw [isCall, hk] at hc <;> simp only [reduceCtorEq] at hc
    all_goals simp [marks, hk, defined_callMarks]
  | false =>
    simp only [isSite_of_not_call hc]
    cases hk : insn.kind <;> rw [isCall, hk] at hc <;> simp only [reduceCtorEq] at hc
    case catchInsn => simp [marks, hk]
    case jump =>
      simp only [marks, hk]
      split <;> simp
    case loadXX => simp [marks, hk, defined_loadMarks]
    case partialLoad =>
      simp only [marks, hk]
      split <;> simp [defined_loadMarks]
    case jr =>
      simp only [marks, hk]
      split <;> simp
    all_goals simp [marks, hk]

/-- The handler whose label the code of an instruction names. -/
def handlers (env : Env) (insn : Instruction) : List ExceptionHandler :=
  if insn.kind = .catchInsn then [.exception (env.tryInstruction insn.address) insn.address]
  else insn.setjmpHandlers env

/-- The subroutine that an instruction calls. -/
def Reads (env : Env) (bc : Jvm.ReadWhat) (insn : Instruction) : Prop :=
  env.config.optimizePartialMemoryOps = true ∧
    (insn.kind = .loadXX bc ∧ insn.opcode ≠ .lwl ∨
      ∃ w isSigned, insn.kind = .partialLoad w isSigned ∧ bc = w.readWhat isSigned)

theorem named_callMarks {l : Label} {insn : Instruction} (hc : insn.isCall = true)
    (h : l ∈ named (insn.callMarks env)) :
    (∃ a ∈ insn.targets env, l = .addr a) ∨ (∃ x ∈ insn.handlers env, l = x.label) ∨
      l ∈ [.javamethodBegin, .exceptionHandlers, .functionReturn] := by
  have hk : insn.kind ≠ .catchInsn := by
    intro hk
    rw [isCall, hk] at hc
    cases hc
  rw [callMarks] at h
  split at h
  · next hb =>
    simp only [Mark.named_protects, setjmpEntry, Mark.named_defines, Mark.named_nil, List.mem_cons,
      List.not_mem_nil, or_false] at h
    rcases h with rfl | rfl | rfl
    · exact .inr (.inr (by simp))
    · exact .inr (.inr (by simp))
    · refine .inr (.inl ⟨.setjmp _ _ insn.address, ?_, rfl⟩)
      rw [handlers, if_neg hk, setjmpHandlers, if_pos hb]
      exact List.mem_singleton_self _
  · split at h
    · next hs =>
      cases List.mem_singleton.mp h
      refine .inl ⟨_, ?_, rfl⟩
      cases hkind : insn.kind <;> rw [isCall, hkind] at hc <;> simp only [reduceCtorEq] at hc
      all_goals simp [targets, hkind, hs]
    · cases h

theorem named_loadMarks (h : l ∈ named (loadMarks env bc insn)) :
    l = .memoryRead bc ∧ env.config.optimizePartialMemoryOps = true ∧ insn.opcode ≠ .lwl := by
  rw [loadMarks] at h
  split at h
  · next ho => exact ⟨List.mem_singleton.mp h, ho.1, ho.2.1⟩
  · cases h

/-- The labels that the code of an instruction names. -/
theorem named_marks {l : Label} {insn : Instruction} (h : l ∈ named (insn.marks env)) :
    (∃ a ∈ insn.targets env, l = .addr a) ∨ (insn.isSite env = true ∧ l = .addr insn.address) ∨
    (∃ x ∈ insn.handlers env, l = x.label) ∨
    (insn.isRegisterIndirectJump = true ∧ l = .localJumptab) ∨
    (∃ bc, insn.Reads env bc ∧ l = .memoryRead bc) ∨
    l ∈ [.javamethodBegin, .exceptionHandlers, .functionReturn] := by
  have hcall (hc : insn.isCall = true) (h : l ∈ named (insn.callMarks env)) := named_callMarks hc h
  cases hk : insn.kind <;> simp only [marks, hk] at h
  case jump =>
    split at h
    · next ht =>
      refine .inl ⟨_, ?_, List.mem_singleton.mp h⟩
      simp [targets, hk, ht]
    · cases h
  case jal | jalr =>
    rcases hcall (by rw [isCall, hk]) h with h | h | h
    · exact .inl h
    · exact .inr (.inr (.inl h))
    · exact .inr (.inr (.inr (.inr (.inr h))))
  case jalReturn =>
    rw [Mark.named_append] at h
    rcases List.mem_append.mp h with h | h
    · rcases hcall (by rw [isCall, hk]) h with h | h | h
      · exact .inl h
      · exact .inr (.inr (.inl h))
      · exact .inr (.inr (.inr (.inr (.inr h))))
    · cases List.mem_singleton.mp h
      exact .inr (.inr (.inr (.inr (.inr (by simp)))))
  case jr =>
    split at h
    · cases List.mem_singleton.mp h
      exact .inr (.inr (.inr (.inr (.inr (by simp)))))
    · next hr =>
      refine .inr (.inr (.inr (.inl ⟨?_, List.mem_singleton.mp h⟩)))
      simp [isRegisterIndirectJump, hk, hr]
  case oneRegisterConditionalJump | twoRegisterConditionalJump =>
    refine .inl ⟨_, ?_, List.mem_singleton.mp h⟩
    simp [targets, hk]
  case loadXX bc =>
    obtain ⟨rfl, ho, hl⟩ := named_loadMarks h
    exact .inr (.inr (.inr (.inr (.inl ⟨_, ⟨ho, .inl ⟨hk, hl⟩⟩, rfl⟩))))
  case partialLoad w isSigned =>
    split at h
    · obtain ⟨rfl, ho, -⟩ := named_loadMarks h
      exact .inr (.inr (.inr (.inr (.inl ⟨_, ⟨ho, .inr ⟨_, _, hk, rfl⟩⟩, rfl⟩))))
    · cases h
  case catchInsn =>
    rw [Mark.named_append, List.mem_append, Mark.mem_named_protects] at h
    rcases h with ⟨e, he, h⟩ | h
    · obtain ⟨cl, hcl, rfl⟩ := List.mem_map.mp he
      rcases h with rfl | rfl | rfl
      · refine .inl ⟨_, ?_, rfl⟩
        rw [targets, hk]
        exact List.mem_map.mpr ⟨cl, hcl, rfl⟩
      · exact .inr (.inl ⟨by simp [isSite, hk], rfl⟩)
      · refine .inr (.inr (.inl ⟨.exception _ _, ?_, rfl⟩))
        rw [handlers, if_pos hk]
        exact List.mem_singleton_self _
    · cases h
  all_goals cases h

theorem mem_catchEntries {insn : Instruction} (h : cl ∈ env.exceptionClasses insn.extra) :
    ⟨cl, .addr (env.tryInstruction insn.address), .addr insn.address,
      .handler (env.tryInstruction insn.address) insn.address⟩ ∈ insn.catchEntries env :=
  List.mem_map.mpr ⟨cl, h, rfl⟩

theorem named_target {insn : Instruction} (h : a ∈ insn.targets env) :
    .addr a ∈ named (insn.marks env) := by
  have hcall (hs : insn.staysInMethod env = true) :
      .addr (insn.extra <<< 2) ∈ named (insn.callMarks env) := by
    have hb : insn.builtin env = none := by
      rw [staysInMethod] at hs
      simp only [Bool.and_eq_true, beq_iff_eq] at hs
      exact hs.1.1.2
    rw [callMarks, hb, if_neg (Option.some_ne_none Builtin.setjmp).symm, if_pos hs]
    exact List.mem_singleton_self _
  cases hk : insn.kind <;> simp only [targets, hk] at h <;> simp only [marks, hk]
  case jump =>
    split at h
    · next ht =>
      cases List.mem_singleton.mp h
      rw [if_pos ht]
      exact List.mem_singleton_self _
    · cases h
  case jal | jalr | jalReturn =>
    split at h
    · next hs =>
      cases List.mem_singleton.mp h
      simp [hcall hs]
    · cases h
  case oneRegisterConditionalJump | twoRegisterConditionalJump =>
    cases List.mem_singleton.mp h
    exact List.mem_singleton_self _
  case catchInsn =>
    obtain ⟨cl, hcl, rfl⟩ := List.mem_map.mp h
    rw [Mark.named_append]
    exact List.mem_append_left _ (Mark.mem_named_protects.mpr ⟨_, mem_catchEntries hcl, .inl rfl⟩)
  all_goals cases h

theorem named_localJumptab {insn : Instruction} (h : insn.isRegisterIndirectJump = true) :
    .localJumptab ∈ named (insn.marks env) := by
  simp only [isRegisterIndirectJump, Bool.and_eq_true, beq_iff_eq, bne_iff_ne] at h
  rw [marks, h.1]
  simp [h.2]

/-- A catch names its handler once for each class. -/
theorem named_handler {insn : Instruction} (hc : insn.kind = .catchInsn →
    env.exceptionClasses insn.extra ≠ []) (hx : x ∈ insn.handlers env) :
    x.label ∈ named (insn.marks env) := by
  rw [handlers] at hx
  split at hx
  · next hk =>
    cases List.mem_singleton.mp hx
    obtain ⟨cl, hcl⟩ := List.exists_mem_of_ne_nil _ (hc hk)
    rw [marks, hk, Mark.named_append]
    exact List.mem_append_left _
      (Mark.mem_named_protects.mpr ⟨_, mem_catchEntries hcl, .inr (.inr rfl)⟩)
  · rw [setjmpHandlers] at hx
    split at hx
    · next hb =>
      cases List.mem_singleton.mp hx
      have hm : .handler (insn.methodRange env).1 (insn.methodRange env).2 ∈
          named (insn.callMarks env) := by
        rw [callMarks, if_pos hb]
        exact List.mem_cons_of_mem _ (List.mem_cons_of_mem _ (List.mem_singleton_self _))
      rcases kind_of_builtin hb with hk | hk | hk <;> rw [marks, hk]
      · exact hm
      · exact hm
      · rw [Mark.named_append]
        exact List.mem_append_left _ hm
    · cases hx

end Instruction

end Cibyl
