import Cibyl.Pass0
import Cibyl.Pass2

namespace Cibyl
set_option autoImplicit true

namespace Emission

/-- What an emission adds to a list of the method, behind what is there. -/
def Adds (field : MethodState → List β) (e : Emission) (xs : List β) : Prop :=
  ∀ st, field (e st).2 = field st ++ xs

variable {field : MethodState → List β}

theorem adds_nothing : nothing.Adds field [] := fun _ => (List.append_nil _).symm

theorem adds_lines (bs : List Bc) : (lines bs).Adds field [] := fun _ => (List.append_nil _).symm

theorem Adds.seq {e f : Emission} (he : e.Adds field xs) (hf : f.Adds field ys) :
    (e.seq f).Adds field (xs ++ ys) := by
  intro st
  rw [← List.append_assoc, ← he st]
  exact hf _

theorem adds_all {es : List α} {f : α → Emission} {g : α → List β}
    (h : ∀ x ∈ es, (f x).Adds field (g x)) : (all (es.map f)).Adds field (es.flatMap g) := by
  induction es with
  | nil => exact adds_nothing
  | cons x es ih =>
    rw [List.flatMap_cons]
    exact (h x (List.mem_cons_self ..)).seq (ih fun y hy => h y (List.mem_cons_of_mem _ hy))

end Emission

namespace Instruction

/-- The handler that the call of `__NOPH_setjmp` adds. -/
def setjmpHandlers (env : Env) (insn : Instruction) : List ExceptionHandler :=
  if insn.builtin env = some .setjmp then
    [.setjmp (insn.methodRange env).1 (insn.methodRange env).2 insn.address]
  else []

def isCall (insn : Instruction) : Bool :=
  match insn.kind with
  | .jal | .jalr | .jalReturn => true
  | _ => false

/-- A call that stays within the method. -/
def staysInMethod (env : Env) (insn : Instruction) : Bool :=
  insn.isCall && insn.builtin env == none && insn.opcode == .jal && insn.callsOwnMethod env

/-- The return location that a call within the method adds. -/
def ownReturns (env : Env) (insn : Instruction) : List Word :=
  if insn.staysInMethod env then [insn.address + 8] else []

theorem builtin_none {insn : Instruction} (hj : insn.kind ≠ .jal) (hr : insn.kind ≠ .jalReturn) :
    insn.builtin env = none := by
  rw [builtin]
  split
  · next h => exact absurd h hj
  · next h => exact absurd h hr
  · rfl

theorem jalCode_adds (env : Env) (insn : Instruction) :
    Emission.Adds MethodState.exceptionHandlers (insn.jalCode env) (insn.setjmpHandlers env) := by
  intro st
  rw [jalCode, setjmpHandlers]
  cases hb : insn.builtin env with
  | some b =>
    dsimp only
    by_cases h : b = .setjmp
    · rw [if_pos h, if_pos (congrArg some h)]
    · rw [if_neg h, if_neg (fun h' => h (Option.some.inj h')), List.append_nil]
  | none =>
    rw [if_neg (show ¬ (none = some Builtin.setjmp) from nofun), List.append_nil]
    dsimp only
    split <;> rfl

theorem jalCode_returns {insn : Instruction} (hk : insn.isCall = true) :
    Emission.Adds MethodState.returnLocations (insn.jalCode env) (insn.ownReturns env) := by
  intro st
  rw [jalCode, ownReturns, staysInMethod, hk, Bool.true_and]
  cases hb : insn.builtin env with
  | some b =>
    rw [Option.some_beq_none, Bool.false_and, Bool.false_and, if_neg Bool.false_ne_true,
      List.append_nil]
    dsimp only
    split <;> rfl
  | none =>
    dsimp only
    by_cases h : insn.opcode = .jal ∧ insn.callsOwnMethod env = true
    · rw [if_pos h, if_pos (by simp [h])]
    · rw [if_neg h, if_neg (by simpa using h), List.append_nil]

/-- What is added by `pass2` of an instruction, where only calls add something. -/
theorem pass2_adds {insn : Instruction} {delayed : Emission} {field : MethodState → List β}
    (hd : delayed.Adds field xs)
    (hj : insn.isCall = true → Emission.Adds field (insn.jalCode env) ys)
    (hn : insn.isCall = false → ys = []) :
    (insn.pass2 env delayed).Adds field ((if insn.isBranch then xs else []) ++ ys) := by
  have hl (bs : List Bc) (e : Emission) {zs : List β} (he : e.Adds field zs) :
      ((Emission.lines bs).seq e).Adds field zs :=
    (Emission.adds_lines bs).seq he
  cases hk : insn.kind with
  | jump =>
    rw [hn (by rw [isCall, hk]), isBranch, hk]
    simp only [pass2, hk]
    exact hd.seq (Emission.adds_lines _)
  | jal =>
    rw [isBranch, hk]
    simp only [pass2, hk]
    exact hd.seq (hj (by rw [isCall, hk]))
  | jalr =>
    rw [isBranch, hk]
    simp only [pass2, hk]
    exact hl _ _ (hd.seq (hj (by rw [isCall, hk])))
  | jalReturn =>
    rw [isBranch, hk, ← List.append_nil ys]
    simp only [pass2, hk]
    exact hd.seq ((hj (by rw [isCall, hk])).seq (Emission.adds_lines _))
  | jr =>
    rw [hn (by rw [isCall, hk]), isBranch, hk]
    simp only [pass2, hk]
    split
    · exact hd.seq (Emission.adds_lines _)
    · exact hl _ _ (hd.seq (Emission.adds_lines _))
  | oneRegisterConditionalJump bc | twoRegisterConditionalJump bc =>
    rw [hn (by rw [isCall, hk]), isBranch, hk]
    simp only [pass2, hk]
    exact hl _ _ (hd.seq (Emission.adds_lines _))
  | _ =>
    rw [hn (by rw [isCall, hk]), isBranch, hk]
    simp only [pass2, hk]
    exact Emission.adds_lines _

end Instruction

/-- The calls of an instruction add `g` of it to the list. -/
structure CallsAdd (env : Env) (field : MethodState → List β) (g : Instruction → List β) :
    Prop where
  call : ∀ insn : Instruction, insn.isCall = true → Emission.Adds field (insn.jalCode env) (g insn)
  other : ∀ insn : Instruction, insn.isCall = false → g insn = []

theorem setjmpHandlers_added (env : Env) :
    CallsAdd env MethodState.exceptionHandlers (Instruction.setjmpHandlers env) where
  call insn _ := insn.jalCode_adds env
  other insn h := by
    rw [Instruction.setjmpHandlers, Instruction.builtin.eq_def]
    cases hk : insn.kind <;> first
      | rfl
      | (rw [Instruction.isCall, hk] at h; cases h)

theorem ownReturns_added (env : Env) :
    CallsAdd env MethodState.returnLocations (Instruction.ownReturns env) where
  call _ := Instruction.jalCode_returns
  other insn h := by
    rw [Instruction.ownReturns, Instruction.staysInMethod, h]
    rfl

namespace Entry

/-- What the instructions of a slot add: the delay slot comes first, and once more where it is
emitted again. -/
def gather (env : Env) (g : Instruction → List β) (e : Entry) : List β :=
  let delayed := e.delayed.toList.flatMap g
  delayed ++ g e.insn ++ if e.delayed.any (fun d => env.hasJumptabLabel d.address) then
    delayed else []

theorem mem_gather {g : Instruction → List β} {e : Entry} :
    x ∈ e.gather env g ↔ ∃ i ∈ e.insns, x ∈ g i := by
  simp only [gather, List.mem_append, List.mem_flatMap, insns, List.mem_cons, exists_eq_or_imp]
  constructor
  · rintro ((h | h) | h)
    · exact .inr h
    · exact .inl h
    · split at h
      · exact .inr (List.mem_flatMap.mp h)
      · cases h
  · rintro (h | h)
    · exact .inl (.inr h)
    · exact .inl (.inl h)

/-- The handlers of the slot. -/
def setjmpHandlers (env : Env) (e : Entry) : List ExceptionHandler :=
  e.gather env (Instruction.setjmpHandlers env)

variable {field : MethodState → List β} {g : Instruction → List β}

theorem delayed_adds (hg : CallsAdd env field g) (e : Entry) :
    (e.delayedPass2 env).Adds field (e.delayed.toList.flatMap g) := by
  cases hd : e.delayed with
  | none =>
    rw [delayedPass2, hd]
    exact Emission.adds_nothing
  | some d =>
    have h := Instruction.pass2_adds Emission.adds_nothing (hg.call d) (hg.other d)
    rw [ite_self, List.nil_append] at h
    simp only [delayedPass2, hd, Option.toList_some, List.flatMap_cons, List.flatMap_nil,
      List.append_nil]
    exact h

theorem pass2_adds (hg : CallsAdd env field g) (e : Entry) :
    (e.pass2 env).Adds field (e.gather env g) := by
  have hi := Instruction.pass2_adds (delayed_adds hg e) (hg.call e.insn) (hg.other e.insn)
  have hb : (if e.insn.isBranch then e.delayed.toList.flatMap g else []) =
      e.delayed.toList.flatMap g := by
    split
    · rfl
    · next h =>
      cases hd : e.delayed with
      | none => rfl
      | some d => exact absurd (e.attached (by rw [hd]; rfl)) h
  rw [hb] at hi
  refine (Emission.adds_lines _).seq (hi.seq ?_)
  have hd := delayed_adds hg e
  rw [againCode.eq_def]
  rw [delayedPass2.eq_def] at hd
  cases h : e.delayed with
  | none => exact Emission.adds_nothing
  | some d =>
    rw [h] at hd
    have hs : e.insn.hasDelaySlot = true := e.attached (by rw [h]; rfl)
    simp only [hs, Bool.true_and, Option.any_some]
    split
    · have ha := (hd.seq (Emission.adds_lines [.item (.label (.out d.address))]))
      rw [List.append_nil] at ha
      exact (Emission.adds_lines _).seq ha
    · exact Emission.adds_nothing

end Entry

namespace JavaMethod

theorem functionsCode_adds {field : MethodState → List β} {g : Instruction → List β}
    (hg : CallsAdd env field g) (m : JavaMethod) :
    field (m.functionsCode env).2 =
      field ⟨[], m.catchHandlers env⟩ ++ (m.slots env).flatMap (Entry.gather env g) := by
  rw [slots, List.flatMap_assoc]
  refine Emission.adds_all (fun fn _ => ?_) ⟨[], m.catchHandlers env⟩
  exact (Emission.adds_lines _).seq (Emission.adds_all fun e _ => e.pass2_adds hg)

/-- Behind the handlers of the catch instructions are those of the calls of `__NOPH_setjmp`. -/
theorem functionsCode_handlers (env : Env) (m : JavaMethod) :
    (m.functionsCode env).2.exceptionHandlers =
      m.catchHandlers env ++ (m.slots env).flatMap (Entry.setjmpHandlers env) :=
  functionsCode_adds (setjmpHandlers_added env) m

/-- A handle counts the calls within the method before it. -/
theorem functionsCode_returnLocations (env : Env) (m : JavaMethod) :
    (m.functionsCode env).2.returnLocations =
      (m.slots env).flatMap (Entry.gather env (Instruction.ownReturns env)) :=
  functionsCode_adds (ownReturns_added env) m

end JavaMethod

end Cibyl
