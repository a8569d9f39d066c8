import Cibyl.LabelCount

namespace Cibyl
set_option autoImplicit true

namespace Emission

def Grows (e : Emission) : Prop := ∀ st, st.returnLocations <+: (e st).2.returnLocations

/-- Somewhere within `e` is `f`; the return locations known then stay what they are. -/
def Includes (e f : Emission) : Prop :=
  ∀ st, ∃ pre st' post, (e st).1 = pre ++ ((f st').1 ++ post) ∧
    (f st').2.returnLocations <+: (e st).2.returnLocations

theorem grows_of_adds {e : Emission} (h : e.Adds MethodState.returnLocations xs) : e.Grows :=
  fun st => ⟨xs, (h st).symm⟩

theorem Grows.seq {e f : Emission} (he : e.Grows) (hf : f.Grows) : (e.seq f).Grows :=
  fun st => (he st).trans (hf (e st).2)

theorem grows_lines (bs : List Bc) : (lines bs).Grows := fun _ => List.prefix_refl _

theorem grows_all {es : List Emission} (h : ∀ e ∈ es, e.Grows) : (all es).Grows := by
  induction es with
  | nil => exact grows_lines []
  | cons e es ih =>
    exact (h e (List.mem_cons_self ..)).seq (ih fun e he => h e (List.mem_cons_of_mem _ he))

theorem includes_refl (e : Emission) : e.Includes e :=
  fun st => ⟨[], st, [], (List.append_nil _).symm, List.prefix_refl _⟩

theorem Includes.trans {e f g : Emission} (h : e.Includes f) (h' : f.Includes g) :
    e.Includes g := by
  intro st
  obtain ⟨pre, st₁, post, hl, hr⟩ := h st
  obtain ⟨pre', st₂, post', hl', hr'⟩ := h' st₁
  refine ⟨pre ++ pre', st₂, post' ++ post, ?_, hr'.trans hr⟩
  rw [hl, hl']
  simp only [List.append_assoc]

theorem Includes.seq_left {e f g : Emission} (h : e.Includes f) (hg : g.Grows) :
    (e.seq g).Includes f := by
  intro st
  obtain ⟨pre, st', post, hl, hr⟩ := h st
  refine ⟨pre, st', post ++ (g (e st).2).1, ?_, hr.trans (hg _)⟩
  rw [seq_lines, hl]
  simp only [List.append_assoc]

theorem Includes.seq_right {e f : Emission} (h : e.Includes f) (g : Emission) :
    (g.seq e).Includes f := by
  intro st
  obtain ⟨pre, st', post, hl, hr⟩ := h (g st).2
  refine ⟨(g st).1 ++ pre, st', post, ?_, hr⟩
  rw [seq_lines, hl, List.append_assoc]

theorem includes_all {es : List Emission} (he : e ∈ es) (h : e.Includes f)
    (hg : ∀ e ∈ es, e.Grows) : (all es).Includes f := by
  induction es with
  | nil => cases he
  | cons e' es ih =>
    rcases List.mem_cons.mp he with rfl | he
    · exact h.seq_left (grows_all fun e he => hg e (List.mem_cons_of_mem _ he))
    · exact (ih he fun e he => hg e (List.mem_cons_of_mem _ he)).seq_right e'

end Emission

namespace Instruction

theorem jalCode_grows {insn : Instruction} (hk : insn.isCall = true) : (insn.jalCode env).Grows :=
  Emission.grows_of_adds (jalCode_returns hk)

/-- The code of a branch has that of its delay slot in it. -/
theorem includes_delayed {insn : Instruction} {delayed : Emission} (hb : insn.isBranch = true)
    (h : delayed.Includes f) : (insn.pass2 env delayed).Includes f := by
  have hl (bs : List Bc) := h.seq_left (Emission.grows_lines bs)
  cases hk : insn.kind <;> rw [isBranch, hk] at hb <;> simp only [pass2, hk]
  case jump => exact hl _
  case jal => exact h.seq_left (jalCode_grows (by rw [isCall, hk]))
  case jalr => exact (h.seq_left (jalCode_grows (by rw [isCall, hk]))).seq_right _
  case jalReturn =>
    exact h.seq_left ((jalCode_grows (by rw [isCall, hk])).seq (Emission.grows_lines _))
  case jr =>
    split
    · exact hl _
    · exact (hl _).seq_right _
  case oneRegisterConditionalJump | twoRegisterConditionalJump => exact (hl _).seq_right _
  all_goals cases hb

/-- The code of a call has that of the call in it. -/
theorem includes_jalCode {insn : Instruction} {delayed : Emission} (hc : insn.isCall = true) :
    (insn.pass2 env delayed).Includes (insn.jalCode env) := by
  have h := Emission.includes_refl (insn.jalCode env)
  cases hk : insn.kind <;> rw [isCall, hk] at hc <;> simp only [pass2, hk]
  case jal => exact h.seq_right _
  case jalr => exact (h.seq_right _).seq_right _
  case jalReturn => exact (h.seq_left (Emission.grows_lines _)).seq_right _
  all_goals cases hc

end Instruction

namespace Entry

theorem pass2_grows (env : Env) (e : Entry) : (e.pass2 env).Grows :=
  Emission.grows_of_adds (e.pass2_adds (ownReturns_added env))

theorem againCode_grows (env : Env) (e : Entry) : (e.againCode env).Grows := by
  rw [againCode.eq_def]
  split
  · exact Emission.grows_lines []
  · next d hd =>
    split
    · have ha := delayed_adds (ownReturns_added env) e
      rw [delayedPass2, hd] at ha
      exact (Emission.grows_lines _).seq
        ((Emission.grows_of_adds ha).seq (Emission.grows_lines _))
    · exact Emission.grows_lines []

/-- The code of each instruction of a slot is in that of the slot. -/
theorem includes_insn (env : Env) {e : Entry} (hi : i ∈ e.insns) :
    ∃ delayed : Emission, (e.pass2 env).Includes (i.pass2 env delayed) := by
  have hin : (e.pass2 env).Includes (e.insn.pass2 env (e.delayedPass2 env)) :=
    ((Emission.includes_refl _).seq_left (againCode_grows env e)).seq_right _
  rcases List.mem_cons.mp hi with rfl | hi
  · exact ⟨_, hin⟩
  · have hs := Option.mem_toList.mp hi
    refine ⟨.nothing, hin.trans (Instruction.includes_delayed ?_ ?_)⟩
    · exact e.attached (Option.isSome_of_mem hs)
    · rw [delayedPass2, hs]
      exact Emission.includes_refl _

end Entry

namespace JavaMethod

variable {m : JavaMethod}

theorem functionsCode_includes (hi : i ∈ m.insns env) : ∃ delayed : Emission,
    (Emission.all (m.functions.map (m.functionCode env))).Includes (i.pass2 env delayed) := by
  obtain ⟨e, he, hi⟩ := mem_insns_slot.mp hi
  obtain ⟨fn, hf, he⟩ := List.mem_flatMap.mp he
  obtain ⟨delayed, hin⟩ := e.includes_insn env hi
  have hall {es : List Entry} : ∀ x ∈ es.map (Entry.pass2 env), Emission.Grows x := by
    intro x hx
    obtain ⟨e, -, rfl⟩ := List.mem_map.mp hx
    exact e.pass2_grows env
  refine ⟨delayed, Emission.includes_all (List.mem_map.mpr ⟨fn, hf, rfl⟩) ?_ ?_⟩
  · exact (Emission.includes_all (List.mem_map.mpr ⟨e, he, rfl⟩) hin hall).seq_right _
  · intro x hx
    obtain ⟨fn, -, rfl⟩ := List.mem_map.mp hx
    exact (Emission.grows_lines _).seq (Emission.grows_all hall)

/-- The code of a call as it stands in the body. -/
theorem jalCode_in_body (hi : i ∈ m.insns env) (hc : i.isCall = true) : ∃ pre st post,
    m.frontLines env = pre ++ ((i.jalCode env st).1 ++ post) ∧
      (i.jalCode env st).2.returnLocations <+: (m.functionsCode env).2.returnLocations := by
  obtain ⟨delayed, hin⟩ := functionsCode_includes hi
  obtain ⟨pre, st, post, hl, hr⟩ :=
    (hin.trans (Instruction.includes_jalCode hc)) ⟨[], m.catchHandlers env⟩
  have hf : (m.functionsCode env).1 = pre ++ ((i.jalCode env st).1 ++ post) := hl
  refine ⟨m.initRegisters (m.pass1 env) ++ (if env.config.optimizePartialMemoryOps then
    .item (.goto .javamethodBegin) :: m.emitSubroutines else []) ++
      [.item (.label .javamethodBegin)] ++ m.functionTable ++ pre, st,
    post ++ m.jumptabCode env, ?_, hr⟩
  rw [frontLines, hf]
  simp only [List.append_assoc]

end JavaMethod

end Cibyl
