import Cibyl.CodeShape
import Cibyl.Pass0
import Cibyl.Subroutine

namespace Cibyl
set_option autoImplicit true

open Jvm (Item Op Label findLabel)
open Emit (op intOp pushconst)
open Bc (lowerAll)

namespace Emission

theorem seq_lines (e f : Emission) (st : MethodState) :
    (e.seq f st).1 = (e st).1 ++ (f (e st).2).1 := rfl

theorem all_cons_lines (e : Emission) (es : List Emission) (st : MethodState) :
    (all (e :: es) st).1 = (e st).1 ++ (all es (e st).2).1 := rfl

theorem all_append (es fs : List Emission) : all (es ++ fs) = (all es).seq (all fs) := by
  induction es with
  | nil => rfl
  | cons e es ih =>
    rw [List.cons_append, all, all, ih]
    funext st
    exact Prod.ext (List.append_assoc ..).symm rfl

end Emission

/-- No line is the label after a delay-slot instruction that was emitted again. -/
def NoOut (bs : List Bc) : Prop := ∀ b ∈ bs, ∀ a, b.label? ≠ some (.out a)

theorem noOut_nil : NoOut [] := List.forall_mem_nil _

theorem noOut_append : NoOut (bs ++ cs) ↔ NoOut bs ∧ NoOut cs := List.forall_mem_append

theorem noOut_of_none (h : ∀ b ∈ bs, b.label? = none) : NoOut bs := by
  intro b hb a ha
  rw [h b hb] at ha
  cases ha

theorem noOut_flatMap {xs : List α} {f : α → List Bc} (h : ∀ x ∈ xs, NoOut (f x)) :
    NoOut (xs.flatMap f) := by
  intro b hb
  obtain ⟨x, hx, hb⟩ := List.mem_flatMap.mp hb
  exact h x hx b hb

/-- A line that has a shape is no such label. -/
theorem noOut_of_fits (h : Bc.fits n bs s = some s') : NoOut bs := by
  induction bs generalizing s with
  | nil => exact noOut_nil
  | cons b bs ih =>
    rw [Bc.fits] at h
    cases hb : b.shape s with
    | none =>
      rw [hb] at h
      cases h
    | some s₁ =>
      rw [hb] at h
      dsimp only at h
      split at h
      · refine List.forall_mem_cons.mpr ⟨?_, ih h⟩
        rintro a hl
        cases b with
        | item i =>
          cases i with
          | label l =>
            cases hl
            cases hb
          | _ => cases hl
        | _ => cases hl
      · cases h

namespace Builtin

theorem code_noOut (b : Builtin) (start stop target : Word) :
    NoOut (b.code start stop target) := by
  have hp (r1 r2 : Reg) : NoOut (push64BitFrom32BitRegs r1 r2) :=
    noOut_of_none (by simp [push64BitFrom32BitRegs])
  have hs (high low : Reg) : NoOut (Instruction.splitLong high low) :=
    noOut_of_none (by simp [Instruction.splitLong])
  cases b with
  | mulDiv bc =>
    simp only [code, noOut_append]
    exact ⟨⟨⟨hp _ _, hp _ _⟩, noOut_of_none (by simp)⟩, hs _ _⟩
  | shift bc =>
    simp only [code, noOut_append]
    exact ⟨⟨hp _ _, noOut_of_none (by simp)⟩, hs _ _⟩
  | setjmp =>
    intro b hb a
    simp only [code, List.mem_cons, List.not_mem_nil, or_false] at hb
    rcases hb with rfl | rfl | rfl | rfl <;> simp [Jvm.Item.label?]
  | _ => exact noOut_of_none (by simp [code, intBitsToFloat, floatToIntBits, Jvm.Item.label?])

end Builtin

namespace Instruction

theorem passRegister_label (idx : Option Nat) (reg : Reg) :
    (passRegister idx reg).label? = none := by
  rw [passRegister.eq_def]
  split
  · cases idx with
    | none => exact rfl
    | some i => exact Bc.label?_pushconst _
  · exact rfl

theorem popReturnValue_noOut (env : Env) (p : MethodPass1) : NoOut (popReturnValue env p) := by
  have hs (high low : Reg) : NoOut (splitLong high low) := noOut_of_none (by simp [splitLong])
  rw [popReturnValue]
  repeat' split
  all_goals first
    | exact hs _ _
    | exact noOut_of_none (by simp)

theorem callCode_noOut (env : Env) (insn : Instruction) : NoOut (insn.callCode env) := by
  have hmap (idx : Option Nat) (rs : List Reg) : NoOut (rs.map (passRegister idx)) := by
    apply noOut_of_none
    intro b hb
    obtain ⟨r, _, rfl⟩ := List.mem_map.mp hb
    exact passRegister_label idx r
  rw [callCode]
  split
  · simp only [noOut_append]
    exact ⟨⟨hmap _ _, noOut_of_none (by simp [invokeCallTable, invokestatic])⟩,
      popReturnValue_noOut _ _⟩
  · split
    · exact noOut_of_none (by simp [Jvm.Item.label?])
    · simp only [noOut_append]
      exact ⟨⟨hmap _ _, noOut_of_none (by simp [invokestatic])⟩, popReturnValue_noOut _ _⟩

theorem jalCode_noOut (env : Env) (insn : Instruction) (st : MethodState) :
    NoOut (insn.jalCode env st).1 := by
  rw [jalCode]
  split
  · exact Builtin.code_noOut _ _ _ _
  · split
    · exact noOut_of_none (by simp [Jvm.Item.label?])
    · exact callCode_noOut _ _

theorem code_noOut (env : Env) (insn : Instruction) : NoOut (insn.code env) := by
  by_cases hs : insn.kind = .syscallInsn
  · rw [code, hs]
    apply noOut_of_none
    rw [syscallCode]
    simp only
    split <;> simp
  · by_cases hr : insn.kind = .syscallRegisterArgument
    · rw [code, hr]
      exact noOut_of_none (by simp)
    · exact noOut_of_fits (insn.code_fits env hs hr)

theorem pass2_noOut {delayed : Emission} (h : ∀ st, NoOut (delayed st).1) (env : Env)
    (insn : Instruction) (st : MethodState) : NoOut (insn.pass2 env delayed st).1 := by
  have hn (bs : List Bc) (hb : ∀ b ∈ bs, b.label? = none) (st : MethodState) :
      NoOut (Emission.lines bs st).1 := noOut_of_none hb
  have hj (st : MethodState) := jalCode_noOut env insn st
  cases hk : insn.kind with
  | jump =>
    simp only [pass2, hk, Emission.seq_lines, noOut_append]
    refine ⟨h _, hn _ ?_ _⟩
    split <;> simp [Jvm.Item.label?]
  | jal =>
    simp only [pass2, hk, Emission.seq_lines, noOut_append]
    exact ⟨h _, hj _⟩
  | jalr =>
    simp only [pass2, hk, Emission.seq_lines, noOut_append]
    exact ⟨hn _ (by simp) _, h _, hj _⟩
  | jalReturn =>
    simp only [pass2, hk, Emission.seq_lines, noOut_append]
    exact ⟨h _, hj _, hn _ (by simp [Jvm.Item.label?]) _⟩
  | jr =>
    simp only [pass2, hk]
    split
    · simp only [Emission.seq_lines, noOut_append]
      exact ⟨h _, hn _ (by simp [Jvm.Item.label?]) _⟩
    · simp only [Emission.seq_lines, noOut_append]
      exact ⟨hn _ (by simp) _, h _, hn _ (by simp [Jvm.Item.label?]) _⟩
  | oneRegisterConditionalJump bc | twoRegisterConditionalJump bc =>
    simp only [pass2, hk, Emission.seq_lines, noOut_append]
    exact ⟨hn _ (by simp) _, h _, hn _ (by simp [Jvm.Item.label?]) _⟩
  | _ =>
    simp only [pass2, hk]
    exact code_noOut env insn

end Instruction

namespace Entry

theorem delayedPass2_noOut (env : Env) (e : Entry) (st : MethodState) :
    NoOut (e.delayedPass2 env st).1 := by
  cases hd : e.delayed with
  | none =>
    simp only [delayedPass2, hd]
    exact noOut_nil
  | some d =>
    simp only [delayedPass2, hd]
    exact Instruction.pass2_noOut (fun _ => noOut_nil) env d st

theorem traceCode_noOut (env : Env) (e : Entry) : NoOut (e.traceCode env) := by
  rw [traceCode]
  split
  · refine noOut_append.mpr ⟨noOut_of_none (by simp), noOut_flatMap fun i _ => ?_⟩
    apply noOut_of_none
    simp only [traceRegisterValues, traceRegister]
    intro b hb
    simp only [List.mem_cons, List.not_mem_nil, or_false] at hb
    rcases hb with rfl | rfl | rfl | rfl
    all_goals first
      | rfl
      | split <;> simp
  · exact noOut_nil

/-- What is emitted before the instruction. -/
def headCode (env : Env) (e : Entry) : List Bc :=
  (if e.hasLabel env then [.item (.label (.addr e.insn.address))] else []) ++ e.traceCode env

theorem headCode_noOut (env : Env) (e : Entry) : NoOut (e.headCode env) := by
  refine noOut_append.mpr ⟨?_, traceCode_noOut env e⟩
  split
  · intro b hb a
    cases List.mem_singleton.mp hb
    exact nofun
  · exact noOut_nil

theorem pass2_lines (env : Env) (e : Entry) (st : MethodState) : (e.pass2 env st).1 =
    e.headCode env ++ ((e.insn.pass2 env (e.delayedPass2 env) st).1 ++
      (e.againCode env (e.insn.pass2 env (e.delayedPass2 env) st).2).1) := rfl

theorem againCode_lines {e : Entry} (hd : e.delayed = some d) (hj : e.insn.hasDelaySlot = true)
    (ht : env.hasJumptabLabel d.address = true) (st : MethodState) : (e.againCode env st).1 =
    .item (.goto (.out d.address)) :: .item (.label (.addr d.address)) ::
      ((d.pass2 env .nothing st).1 ++ [.item (.label (.out d.address))]) := by
  rw [againCode, hd]
  simp only [hj, ht, Bool.and_self, if_true]
  rfl

/-- An instruction emitted again ends with such a label. -/
theorem pass2_again {e : Entry} (hd : e.delayed = some d) (hj : e.insn.hasDelaySlot = true)
    (ht : env.hasJumptabLabel d.address = true) (st : MethodState) :
    ∃ bs, NoOut bs ∧ (e.pass2 env st).1 = bs ++ [.item (.label (.out d.address))] := by
  have hi := Instruction.pass2_noOut (e.delayedPass2_noOut env) env e.insn st
  have hr (st : MethodState) : NoOut (d.pass2 env .nothing st).1 :=
    Instruction.pass2_noOut (fun _ => noOut_nil) env d st
  refine ⟨e.headCode env ++ ((e.insn.pass2 env (e.delayedPass2 env) st).1 ++
    .item (.goto (.out d.address)) :: .item (.label (.addr d.address)) ::
      (d.pass2 env .nothing (e.insn.pass2 env (e.delayedPass2 env) st).2).1), ?_, ?_⟩
  · refine noOut_append.mpr ⟨e.headCode_noOut env, noOut_append.mpr ⟨hi, ?_⟩⟩
    refine List.forall_mem_cons.mpr ⟨fun a => by exact nofun, ?_⟩
    exact List.forall_mem_cons.mpr ⟨fun a => by exact nofun, hr _⟩
  · rw [pass2_lines, againCode_lines hd hj ht]
    simp only [List.append_assoc, List.cons_append]

/-- Only an instruction emitted again has such a label, after its delay slot's address. -/
theorem pass2_out {e : Entry} (hb : b ∈ (e.pass2 env st).1) (hl : b.label? = some (.out a)) :
    e.delayAddress = some a := by
  rw [pass2_lines] at hb
  rcases List.mem_append.mp hb with hb | hb
  · exact absurd hl (e.headCode_noOut env b hb a)
  · rcases List.mem_append.mp hb with hb | hb
    · exact absurd hl (Instruction.pass2_noOut (e.delayedPass2_noOut env) env _ _ b hb a)
    · cases hd : e.delayed with
      | none =>
        rw [againCode, hd] at hb
        cases hb
      | some d =>
        by_cases hj : e.insn.hasDelaySlot = true ∧ env.hasJumptabLabel d.address = true
        · rw [againCode_lines hd hj.1 hj.2] at hb
          rcases List.mem_cons.mp hb with rfl | hb
          · cases hl
          · rcases List.mem_cons.mp hb with rfl | hb
            · cases hl
            · rcases List.mem_append.mp hb with hb | hb
              · exact absurd hl (Instruction.pass2_noOut (fun _ => noOut_nil) env d _ b hb a)
              · cases List.mem_singleton.mp hb
                cases hl
                rw [delayAddress, hd]
                rfl
        · rw [againCode, hd] at hb
          simp only [Bool.and_eq_true, if_neg hj] at hb
          cases hb

/-- The same for the slots in a row. -/
theorem all_out {es : List Entry} (hb : b ∈ (Emission.all (es.map (Entry.pass2 env)) st).1)
    (hl : b.label? = some (.out a)) : a ∈ es.filterMap delayAddress := by
  induction es generalizing st with
  | nil => cases hb
  | cons e es ih =>
    rw [List.map_cons, Emission.all_cons_lines] at hb
    rcases List.mem_append.mp hb with hb | hb
    · exact List.mem_filterMap.mpr ⟨e, List.mem_cons_self .., pass2_out hb hl⟩
    · obtain ⟨e', he', ha⟩ := List.mem_filterMap.mp (ih hb)
      exact List.mem_filterMap.mpr ⟨e', List.mem_cons_of_mem _ he', ha⟩

end Entry

namespace JavaMethod

/-- The code of the method from the slots `es` on. -/
def At (env : Env) (m : JavaMethod) (es : List Entry) (c : List Item) : Prop :=
  ∃ before after pre st post, m.slots env = before ++ es ++ after ∧
    m.pass2Lines env = pre ++ ((Emission.all (es.map (Entry.pass2 env)) st).1 ++ post) ∧
    (∀ b ∈ pre, ∀ a, b.label? = some (.out a) → a ∈ before.filterMap Entry.delayAddress) ∧
    c = lowerAll (m.pass1 env).regalloc ((Emission.all (es.map (Entry.pass2 env)) st).1 ++ post)

theorem next_at {m : JavaMethod} (hs : m.slots env = before ++ (e :: es) ++ after)
    (hl : m.pass2Lines env = pre ++ ((Emission.all ((e :: es).map (Entry.pass2 env)) st).1 ++ post))
    (hp : ∀ b ∈ pre, ∀ a, b.label? = some (.out a) → a ∈ before.filterMap Entry.delayAddress)
    (hc : c = lowerAll (m.pass1 env).regalloc
      ((Emission.all ((e :: es).map (Entry.pass2 env)) st).1 ++ post)) :
    c = lowerAll (m.pass1 env).regalloc (e.pass2 env st).1 ++ lowerAll (m.pass1 env).regalloc
        ((Emission.all (es.map (Entry.pass2 env)) (e.pass2 env st).2).1 ++ post) ∧
      m.At env es (lowerAll (m.pass1 env).regalloc
        ((Emission.all (es.map (Entry.pass2 env)) (e.pass2 env st).2).1 ++ post)) := by
  rw [List.map_cons, Emission.all_cons_lines, List.append_assoc] at hl hc
  refine ⟨hc.trans (Bc.lowerAll_append ..), before ++ [e], after, pre ++ (e.pass2 env st).1,
    _, post, ?_, hl.trans (List.append_assoc ..).symm, ?_, rfl⟩
  · rw [hs, List.append_assoc, List.append_assoc, List.append_assoc]
    rfl
  · intro b hb a ha
    rw [List.filterMap_append]
    rcases List.mem_append.mp hb with hb | hb
    · exact List.mem_append_left _ (hp b hb a ha)
    · refine List.mem_append_right _ (List.mem_filterMap.mpr ⟨e, List.mem_singleton_self _, ?_⟩)
      exact Entry.pass2_out hb ha

theorem At.next {m : JavaMethod} (h : m.At env (e :: es) c) :
    ∃ st d, c = lowerAll (m.pass1 env).regalloc (e.pass2 env st).1 ++ d ∧ m.At env es d := by
  obtain ⟨before, after, pre, st, post, hs, hl, hp, hc⟩ := h
  exact ⟨st, _, next_at hs hl hp hc⟩

theorem functionCode_out {m : JavaMethod} (hb : b ∈ (m.functionCode env fn st).1)
    (hl : b.label? = some (.out a)) : a ∈ (fn.pass1 env).filterMap Entry.delayAddress := by
  rw [functionCode, Emission.seq_lines] at hb
  rcases List.mem_append.mp hb with hb | hb
  · simp only [Emission.lines] at hb
    split at hb
    · cases List.mem_singleton.mp hb
      cases hl
    · cases hb
  · exact Entry.all_out hb hl

theorem functions_out {m : JavaMethod} {fns : List Function}
    (hb : b ∈ (Emission.all (fns.map (m.functionCode env)) st).1)
    (hl : b.label? = some (.out a)) :
    a ∈ (fns.flatMap (Function.pass1 env)).filterMap Entry.delayAddress := by
  induction fns generalizing st with
  | nil => cases hb
  | cons fn fns ih =>
    rw [List.map_cons, Emission.all_cons_lines] at hb
    rw [List.flatMap_cons, List.filterMap_append]
    rcases List.mem_append.mp hb with hb | hb
    · exact List.mem_append_left _ (functionCode_out hb hl)
    · exact List.mem_append_right _ (ih hb)

theorem emitSubroutines_noOut (m : JavaMethod) : NoOut m.emitSubroutines := by
  refine noOut_flatMap fun o _ => ?_
  rcases emitSubroutineForOp_cases o with h | ⟨z, isSigned, rfl⟩
  · rw [h]
    exact noOut_nil
  · rw [emitSubroutineForOp_load]
    refine List.forall_mem_cons.mpr ⟨fun a => by exact nofun, ?_⟩
    exact noOut_of_none (loadSubroutineBody_label z isSigned)

theorem prologue_noOut (env : Env) (m : JavaMethod) (p : MethodPass1) :
    NoOut (m.initRegisters p ++
      (if env.config.optimizePartialMemoryOps then
        .item (.goto .javamethodBegin) :: m.emitSubroutines else []) ++
      [.item (.label .javamethodBegin)] ++ m.functionTable) := by
  simp only [noOut_append]
  refine ⟨⟨⟨noOut_of_none fun b hb => initRegisters_label hb, ?_⟩, fun b hb a => ?_⟩, ?_⟩
  · split
    · exact List.forall_mem_cons.mpr ⟨fun a => by exact nofun, emitSubroutines_noOut m⟩
    · exact noOut_nil
  · cases List.mem_singleton.mp hb
    exact nofun
  · rw [functionTable]
    split
    · exact noOut_of_none (by simp [Jvm.Item.label?])
    · exact noOut_nil

theorem functionsCode_at {m : JavaMethod} (hf : m.functions = fs₁ ++ fn :: fs₂)
    (he : fn.pass1 env = es₁ ++ es) : ∃ pre st post,
      (m.functionsCode env).1 = pre ++ ((Emission.all (es.map (Entry.pass2 env)) st).1 ++ post) ∧
      ∀ b ∈ pre, ∀ a, b.label? = some (.out a) →
        a ∈ (fs₁.flatMap (Function.pass1 env) ++ es₁).filterMap Entry.delayAddress := by
  let st₀ : MethodState := ⟨[], m.catchHandlers env⟩
  let st₁ := (Emission.all (fs₁.map (m.functionCode env)) st₀).2
  have hfn : m.functionCode env fn = (Emission.lines (if m.hasMultipleFunctions then
      [.item (.label (.addr fn.address))] else [])).seq
        ((Emission.all (es₁.map (Entry.pass2 env))).seq
          (Emission.all (es.map (Entry.pass2 env)))) := by
    rw [functionCode, he, List.map_append, Emission.all_append]
  refine ⟨(Emission.all (fs₁.map (m.functionCode env)) st₀).1 ++
    ((if m.hasMultipleFunctions then [.item (.label (.addr fn.address))] else []) ++
      (Emission.all (es₁.map (Entry.pass2 env)) st₁).1),
    (Emission.all (es₁.map (Entry.pass2 env)) st₁).2,
    (Emission.all (fs₂.map (m.functionCode env)) (m.functionCode env fn st₁).2).1, ?_, ?_⟩
  · rw [functionsCode, hf, List.map_append, Emission.all_append, Emission.seq_lines, List.map_cons,
      Emission.all_cons_lines, hfn, Emission.seq_lines, Emission.seq_lines]
    simp only [List.append_assoc]
    rfl
  · intro b hb a ha
    rw [List.filterMap_append]
    rcases List.mem_append.mp hb with hb | hb
    · exact List.mem_append_left _ (functions_out hb ha)
    · rcases List.mem_append.mp hb with hb | hb
      · split at hb
        · cases List.mem_singleton.mp hb
          cases ha
        · cases hb
      · exact List.mem_append_right _ (Entry.all_out hb ha)

/-- Every slot of the method has its place in the code. -/
theorem exists_at {m : JavaMethod} (hf : m.functions = fs₁ ++ fn :: fs₂)
    (he : fn.pass1 env = es₁ ++ es) : ∃ c, m.At env es c := by
  obtain ⟨pre, st, post, hl, hp⟩ := functionsCode_at hf he
  refine ⟨_, fs₁.flatMap (Function.pass1 env) ++ es₁, fs₂.flatMap (Function.pass1 env),
    m.initRegisters (m.pass1 env) ++ (if env.config.optimizePartialMemoryOps then
      .item (.goto .javamethodBegin) :: m.emitSubroutines else []) ++
      [.item (.label .javamethodBegin)] ++ m.functionTable ++ pre, st,
    post ++ m.jumptabCode env ++ [.item (.label .exceptionHandlers)] ++
      (m.functionsCode env).2.exceptionHandlers.flatMap (ExceptionHandler.pass2 env) ++
      [.item (.label .functionReturn)] ++ m.returnLocationCode (m.functionsCode env).2 ++
      returnCode env (m.pass1 env), ?_, ?_, ?_, rfl⟩
  · rw [slots, hf, List.flatMap_append, List.flatMap_cons, he]
    simp only [List.append_assoc]
  · rw [pass2Lines]
    simp only [hl, List.append_assoc]
  · intro b hb a ha
    rcases List.mem_append.mp hb with hb | hb
    · exact absurd ha (prologue_noOut env m _ b hb a)
    · exact hp b hb a ha

/-- The code after an instruction emitted again is found by its label. -/
theorem At.findLabel_out {m : JavaMethod} (h : m.At env (e :: es) c) (hn : m.OwnDelaySlots env)
    (hd : e.delayed = some d) (hj : e.insn.hasDelaySlot = true)
    (ht : env.hasJumptabLabel d.address = true) :
    ∃ st c', c = lowerAll (m.pass1 env).regalloc (e.pass2 env st).1 ++ c' ∧ m.At env es c' ∧
      findLabel (m.pass2 env) (.out d.address) = some c' := by
  obtain ⟨before, after, pre, st, post, hs, hl, hp, hc⟩ := h
  have hd' : e.delayAddress = some d.address := by
    rw [Entry.delayAddress, hd]
    rfl
  have hpre : ∀ b ∈ pre, b.label? ≠ some (.out d.address) := by
    intro b hb hl
    rw [OwnDelaySlots, hs, List.append_assoc, List.filterMap_append] at hn
    refine (List.nodup_append.mp hn).2.2 _ (hp b hb _ hl) d.address ?_ rfl
    rw [List.cons_append, List.filterMap_cons_some hd']
    exact List.mem_cons_self ..
  obtain ⟨bs, hbs, he⟩ := Entry.pass2_again hd hj ht st
  obtain ⟨hc, hnext⟩ := next_at hs hl hp hc
  refine ⟨st, _, hc, hnext, ?_⟩
  rw [List.map_cons, Emission.all_cons_lines, List.append_assoc] at hl
  rw [pass2, Bc.findLabel_lowerAll, hl, Labelled.find_append hpre, he, List.append_assoc,
    Labelled.find_append (fun b hb => hbs b hb _), List.singleton_append,
    Labelled.find_of_label (by rfl)]
  rfl

end JavaMethod

end Cibyl
