import Cibyl.LabelsOnce
import Cibyl.Thread

namespace Cibyl
set_option autoImplicit true

open Jvm (Item Label CatchEntry exceptionTable findLabel findHandler)
open Mark (defined named entries)
open Bc (allMarks lowerAll)

namespace Bc

theorem mem_defined : l ∈ defined (allMarks bs) ↔ ∃ b ∈ bs, b.label? = some l := by
  have hb (b : Bc) : l ∈ defined b.marks ↔ b.label? = some l := by
    cases b with
    | item i => cases i <;> simp [marks, Jvm.Item.label?, eq_comm, -List.map_append]
    | _ => simp [marks, label?]
  rw [allMarks, Mark.defined_flatMap, List.mem_flatMap]
  simp only [hb]

theorem exceptionTable_lowerAll (ra : RegisterAllocator) (bs : List Bc) :
    exceptionTable (lowerAll ra bs) = entries (allMarks bs) := by
  have hb (b : Bc) : (b.lower ra).filterMap Item.entry? = entries b.marks := by
    cases b with
    | item i =>
      cases i <;> simp [lower, marks, Item.entry?, -List.map_append]
    | pushregister r =>
      simp only [lower, pushregisterItem, marks]
      repeat' split
      all_goals rfl
    | _ =>
      simp only [lower, marks]
      repeat' split
      all_goals rfl
  induction bs with
  | nil => rfl
  | cons b bs ih =>
    rw [lowerAll_cons, exceptionTable, List.filterMap_append, hb, allMarks_cons,
      Mark.entries_append, ← ih]
    rfl

/-- A label that is there once is found where it stands. -/
theorem find_of_once (h : (defined (allMarks (pre ++ b :: post))).count l = 1)
    (hb : b.label? = some l) : Labelled.find label? l (pre ++ b :: post) = some post := by
  have hm : l ∈ defined (allMarks [b]) := mem_defined.mpr ⟨b, List.mem_singleton_self _, hb⟩
  have hpos : 0 < (defined (allMarks [b])).count l := List.count_pos_iff.mpr hm
  rw [allMarks_append, ← List.singleton_append, allMarks_append, Mark.defined_append,
    Mark.defined_append, List.count_append, List.count_append] at h
  have hz : (defined (allMarks pre)).count l = 0 := by omega
  refine Labelled.find_append_label (fun c hc hl => ?_) hb post
  exact List.count_eq_zero.mp hz (mem_defined.mpr ⟨c, hc, hl⟩)

end Bc

namespace Instruction

/-- The entries of the exception table that an instruction makes. -/
def entries (env : Env) (insn : Instruction) : List CatchEntry :=
  if insn.kind = .catchInsn then insn.catchEntries env
  else if insn.builtin env = some .setjmp then
    [setjmpEntry (insn.methodRange env).1 (insn.methodRange env).2]
  else []

theorem entries_callMarks (env : Env) (insn : Instruction) : Mark.entries (insn.callMarks env) =
    if insn.builtin env = some .setjmp then
      [setjmpEntry (insn.methodRange env).1 (insn.methodRange env).2] else [] := by
  rw [callMarks]
  split
  · rfl
  · split <;> rfl

theorem entries_marks (env : Env) (insn : Instruction) :
    Mark.entries (insn.marks env) = insn.entries env := by
  have hload (bc : Jvm.ReadWhat) : Mark.entries (insn.loadMarks env bc) = [] := by
    rw [loadMarks]
    split <;> rfl
  rw [entries]
  cases hk : insn.kind
  case catchInsn => simp [marks, hk]
  case jal | jalr | jalReturn => simp [marks, hk, entries_callMarks]
  all_goals
    rw [if_neg (fun h => by cases h), if_neg (by
      rw [builtin_none (by rw [hk]; exact Kind.noConfusion)
        (by rw [hk]; exact Kind.noConfusion)]
      exact fun h => by cases h)]
    simp only [marks, hk]
    first
      | rfl
      | exact hload _
      | (split <;> first | rfl | exact hload _)

/-- A range ends at the instruction that makes it or with the code of the method. -/
theorem entries_stop {insn : Instruction} (h : e ∈ insn.entries env) :
    e.stop = .exceptionHandlers ∨ e.stop ∈ defined (insn.marks env) := by
  rw [entries] at h
  split at h
  · next hk =>
    obtain ⟨cl, -, rfl⟩ := List.mem_map.mp h
    refine .inr ?_
    rw [defined_marks, if_pos (by simp [isSite, hk])]
    exact List.mem_singleton_self _
  · split at h
    · cases List.mem_singleton.mp h
      exact .inl rfl
    · cases h

end Instruction

namespace JavaMethod

variable {m : JavaMethod}

theorem pass2_eq (env : Env) (m : JavaMethod) : m.pass2 env =
    lowerAll (m.pass1 env).regalloc (m.frontLines env) ++
      .label .exceptionHandlers :: lowerAll (m.pass1 env).regalloc (m.backLines env) := by
  rw [pass2, pass2Lines_eq, Bc.lowerAll_append, Bc.lowerAll_cons]
  rfl

theorem mem_functionsDefined_of (hi : i ∈ m.insns env) (hl : l ∈ defined (i.marks env)) :
    l ∈ defined (allMarks (m.functionsCode env).1) := by
  obtain ⟨e, he, hi⟩ := mem_insns_slot.mp hi
  obtain ⟨fn, hf, he⟩ := List.mem_flatMap.mp he
  rw [functionsCode_marks, Mark.defined_flatMap]
  refine List.mem_flatMap.mpr ⟨fn, hf, ?_⟩
  rw [Mark.defined_append, Mark.defined_flatMap]
  refine List.mem_append_right _ (List.mem_flatMap.mpr ⟨e, he, ?_⟩)
  simp only [Entry.marks, Mark.defined_append, Mark.defined_flatMap, List.mem_append,
    List.mem_flatMap]
  rcases List.mem_cons.mp hi with rfl | hi
  · exact .inl (.inr hl)
  · exact .inl (.inl (.inr ⟨i, hi, hl⟩))

theorem entries_entry (env : Env) (e : Entry) :
    Mark.entries (e.marks env) = e.gather env (Instruction.entries env) := by
  have hl :
      Mark.entries (if e.hasLabel env then [.defines (.addr e.insn.address)] else []) = [] := by
    split <;> rfl
  have ha : Mark.entries ((e.again env).flatMap (Entry.againMarks env)) =
      if e.delayed.any (fun d => env.hasJumptabLabel d.address) then
        e.delayed.toList.flatMap (Instruction.entries env) else [] := by
    rw [Mark.entries_flatMap, Entry.again]
    cases e.delayed with
    | none => rfl
    | some d =>
      rw [Option.toList_some, List.filter_singleton, Option.any_some]
      cases env.hasJumptabLabel d.address with
      | true => simp [Entry.againMarks, Instruction.entries_marks]
      | false => rfl
  simp only [Entry.marks, Mark.entries_append, hl, ha, Mark.entries_flatMap,
    Instruction.entries_marks, List.nil_append]
  rfl

/-- The exception table of a method, in the order of its slots. -/
theorem exceptionTable_pass2 (env : Env) (m : JavaMethod) : exceptionTable (m.pass2 env) =
    (m.slots env).flatMap (Entry.gather env (Instruction.entries env)) := by
  have hs : Mark.entries (allMarks (if env.config.optimizePartialMemoryOps then
      .item (.goto .javamethodBegin) :: m.emitSubroutines else [])) = [] := by
    have ho (o : Opcode) : Mark.entries (allMarks (emitSubroutineForOp o)) = [] := by
      rcases emitSubroutineForOp_cases o with h | ⟨z, isSigned, rfl⟩
      · rw [h]
        rfl
      · rw [subroutine_marks]
        rfl
    split
    · rw [Bc.allMarks_cons, emitSubroutines, Bc.allMarks_flatMap, Bc.marks_goto,
        Mark.entries_append, Mark.entries_flatMap, List.flatMap_eq_nil_iff.mpr fun o _ => ho o]
      rfl
    · rfl
  have ht : Mark.entries (allMarks m.functionTable) = [] := by
    rw [functionTable]
    split <;> simp [-List.map_map]
  have hj : Mark.entries (allMarks (m.jumptabCode env)) = [] := by
    rw [jumptabCode]
    split <;> simp [-List.map_map]
  have hr (st : MethodState) : Mark.entries (allMarks (m.returnLocationCode st)) = [] := by
    rw [returnLocationCode]
    split <;> simp [-List.map_map]
  have hh : Mark.entries (allMarks ((m.functionsCode env).2.exceptionHandlers.flatMap
      (ExceptionHandler.pass2 env))) = [] := by
    rw [Bc.allMarks_flatMap, Mark.entries_flatMap]
    refine List.flatMap_eq_nil_iff.mpr fun x _ => ?_
    cases x <;> simp [ExceptionHandler.pass2, invokeCallTable, invokestatic]
  have hf : Mark.entries (allMarks (m.functionsCode env).1) =
      (m.slots env).flatMap (Entry.gather env (Instruction.entries env)) := by
    have hl (fn : Function) : Mark.entries
        (if m.hasMultipleFunctions then [.defines (.addr fn.address)] else []) = [] := by
      split <;> rfl
    rw [functionsCode_marks, Mark.entries_flatMap]
    simp only [Mark.entries_append, hl, List.nil_append, Mark.entries_flatMap, entries_entry]
    exact List.flatMap_assoc.symm
  rw [pass2, Bc.exceptionTable_lowerAll]
  simp only [pass2Lines, Bc.allMarks_append, Mark.entries_append, initRegisters_marks,
    returnCode_marks, hs, ht, hj, hr, hh, hf]
  simp

theorem mem_exceptionTable : e ∈ exceptionTable (m.pass2 env) ↔
    ∃ i ∈ m.insns env, e ∈ i.entries env := by
  rw [exceptionTable_pass2]
  simp only [List.mem_flatMap, Entry.mem_gather, mem_insns_slot]
  constructor
  · rintro ⟨s, hs, i, hi, h⟩
    exact ⟨i, ⟨s, hs, hi⟩, h⟩
  · rintro ⟨i, ⟨s, hs, hi⟩, h⟩
    exact ⟨s, hs, i, hi, h⟩

theorem mem_frontDefined (h : l ∈ defined (allMarks (m.frontLines env))) :
    l = .javamethodBegin ∨ l = .localJumptab ∨ (∃ bc, l = .memoryRead bc) ∨
      ∃ a, l = .addr a ∨ l = .out a := by
  rw [defined_frontLines] at h
  rcases List.mem_append.mp h with h | h
  · split at h
    · exact .inr (.inr (.inl (mem_subroutines h)))
    · cases h
  · rcases List.mem_cons.mp h with h | h
    · exact .inl h
    · rcases List.mem_append.mp h with h | h
      · exact .inr (.inr (.inr (mem_functionsDefined h)))
      · split at h
        · exact .inr (.inl (List.mem_singleton.mp h))
        · cases h

/-- The labels of the handlers are not those of the code before them. -/
theorem not_frontLines (hb : l ≠ .javamethodBegin) (hj : l ≠ .localJumptab)
    (hr : ∀ bc, l ≠ .memoryRead bc) (ha : ∀ a, l ≠ .addr a) (ho : ∀ a, l ≠ .out a) :
    ∀ b ∈ m.frontLines env, b.label? ≠ some l := by
  intro b hm hl
  rcases mem_frontDefined (Bc.mem_defined.mpr ⟨b, hm, hl⟩) with h | h | ⟨bc, h⟩ | ⟨a, h | h⟩
  · exact hb h
  · exact hj h
  · exact hr bc h
  · exact ha a h
  · exact ho a h

theorem findLabel_exceptionHandlers (env : Env) (m : JavaMethod) :
    findLabel (m.pass2 env) .exceptionHandlers =
      some (lowerAll (m.pass1 env).regalloc (m.backLines env)) := by
  have hb : ∀ b ∈ m.frontLines env, b.label? ≠ some .exceptionHandlers :=
    not_frontLines (by exact nofun) (by exact nofun) (by exact nofun) (by exact nofun)
      (by exact nofun)
  rw [pass2, Bc.findLabel_lowerAll, pass2Lines_eq, Labelled.find_append_label hb rfl]
  rfl

/-- The end of a range stands before the handlers. -/
theorem findLabel_stop (he : e ∈ exceptionTable (m.pass2 env)) :
    ∃ b, findLabel (m.pass2 env) e.stop = some b ∧
      (lowerAll (m.pass1 env).regalloc (m.backLines env)).length ≤ b.length := by
  obtain ⟨i, hi, he⟩ := mem_exceptionTable.mp he
  rcases Instruction.entries_stop he with hs | hs
  · rw [hs, findLabel_exceptionHandlers]
    exact ⟨_, rfl, Nat.le_refl _⟩
  · have hf : e.stop ∈ defined (allMarks (m.frontLines env)) := by
      rw [defined_frontLines]
      exact List.mem_append_right _ (List.mem_cons_of_mem _
        (List.mem_append_left _ (mem_functionsDefined_of hi hs)))
    obtain ⟨c, hc⟩ := Labelled.find_append_of_mem (Bc.mem_defined.mp hf)
      (.item (.label .exceptionHandlers) :: m.backLines env)
    rw [pass2, Bc.findLabel_lowerAll, pass2Lines_eq, hc]
    refine ⟨_, rfl, ?_⟩
    rw [Bc.lowerAll_append, Bc.lowerAll_cons]
    simp only [List.length_append]
    omega

/-- No range of the table reaches the handlers. -/
theorem findHandler_backLines (isInstance : String → Bool)
    (hc : code.length ≤ (lowerAll (m.pass1 env).regalloc (m.backLines env)).length) :
    findHandler isInstance (m.pass2 env) code = none := by
  refine List.find?_eq_none.mpr fun e he => ?_
  obtain ⟨b, hb, hle⟩ := findLabel_stop he
  have hcov : e.covers (m.pass2 env) code = false := by
    rw [CatchEntry.covers, hb]
    cases findLabel (m.pass2 env) e.start with
    | none => rfl
    | some a =>
      dsimp only
      rw [decide_eq_false (by omega), Bool.false_and]
  rw [hcov, Bool.and_false]
  exact Bool.false_ne_true

/-- A label that is there once is found where it stands. -/
theorem LabelsOnce.findLabel (h : m.LabelsOnce env)
    (hl : l ∈ named (allMarks (m.pass2Lines env))) (hp : m.pass2Lines env = pre ++ b :: post)
    (hb : b.label? = some l) :
    findLabel (m.pass2 env) l = some (lowerAll (m.pass1 env).regalloc post) := by
  have hc := h l hl
  rw [hp] at hc
  rw [pass2, Bc.findLabel_lowerAll, hp, Bc.find_of_once hc hb]
  rfl

theorem handler_named (hx : x ∈ m.handlers env) (hc : ∀ i ∈ m.insns env, x ∈ i.handlers env →
    i.kind = .catchInsn → env.exceptionClasses i.extra ≠ []) :
    ∀ l ∈ x.label :: x.named, l ∈ named (allMarks (m.pass2Lines env)) := by
  obtain ⟨i, hi, hxi⟩ := mem_handlers_iff.mp hx
  have hf : x.label ∈ named (allMarks (m.functionsCode env).1) :=
    mem_functionsNamed.mpr (.inl ⟨i, hi, Instruction.named_handler (hc i hi hxi) hxi⟩)
  have hb (l : Label) (hl : l ∈ x.named) : l ∈ (m.handlers env).flatMap ExceptionHandler.named :=
    List.mem_flatMap.mpr ⟨x, hx, hl⟩
  intro l hl
  rw [named_pass2Lines]
  simp only [List.mem_append]
  rcases List.mem_cons.mp hl with rfl | hl
  · exact .inr (.inr (.inl hf))
  · exact .inr (.inr (.inr (.inr (.inl (.inl (hb l hl))))))

theorem backLines_handler (hx : x ∈ m.handlers env) :
    ∃ pre post, m.backLines env = pre ++ (x.pass2 env ++ post) := by
  obtain ⟨xs, ys, he⟩ := List.append_of_mem hx
  refine ⟨xs.flatMap (ExceptionHandler.pass2 env), ys.flatMap (ExceptionHandler.pass2 env) ++
    ([.item (.label .functionReturn)] ++ m.returnLocationCode (m.functionsCode env).2 ++
      returnCode env (m.pass1 env)), ?_⟩
  rw [backLines, he, List.flatMap_append, List.flatMap_cons]
  simp only [List.append_assoc]

/-- The label of a handler stands before its code. -/
theorem findLabel_handler {x : ExceptionHandler} (h : m.LabelsOnce env)
    (hl : x.label ∈ named (allMarks (m.pass2Lines env)))
    (hs : m.backLines env = pre ++ (x.pass2 env ++ post)) : findLabel (m.pass2 env) x.label =
      some (lowerAll (m.pass1 env).regalloc ((x.pass2 env).tail ++ post)) := by
  have hp : m.pass2Lines env = (m.frontLines env ++ .item (.label .exceptionHandlers) :: pre) ++
      .item (.label x.label) :: ((x.pass2 env).tail ++ post) := by
    rw [pass2Lines_eq, hs]
    cases x <;> simp [ExceptionHandler.pass2, ExceptionHandler.label]
  exact h.findLabel hl hp rfl

theorem findLabel_notThis (h : m.LabelsOnce env)
    (hl : .setjmpNotThis start stop ∈ named (allMarks (m.pass2Lines env)))
    (hs : m.backLines env =
      pre ++ (ExceptionHandler.pass2 env (.setjmp start stop target) ++ post)) :
    findLabel (m.pass2 env) (.setjmpNotThis start stop) =
      some (.athrow :: lowerAll (m.pass1 env).regalloc post) := by
  have hp : m.pass2Lines env = (m.frontLines env ++ .item (.label .exceptionHandlers) ::
      (pre ++ (ExceptionHandler.pass2 env (.setjmp start stop target)).dropLast.dropLast)) ++
      .item (.label (.setjmpNotThis start stop)) :: .item .athrow :: post := by
    rw [pass2Lines_eq, hs]
    simp [ExceptionHandler.pass2]
  exact h.findLabel hl hp rfl

end JavaMethod

end Cibyl
