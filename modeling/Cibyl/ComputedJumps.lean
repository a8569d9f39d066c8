import Cibyl.JumpTargets

namespace Cibyl
set_option autoImplicit true

open Controller (Collected InData Lookups)
open Jvm (Item Label Value World Runtime Runs findLabel)
open Mark (defined)
open Bc (allMarks lowerAll)

/-- The label that the jump table of a body has for an address. -/
def Jvm.jumptabLabel (body : List Item) (v : Word) : Option Label :=
  match findLabel body .localJumptab with
  | some (.lookupswitch targets default :: _) => some ((targets.lookup v).getD default)
  | _ => none

theorem lookup_labels (as : List Word) (v : Word) :
    (as.map (fun a => (a, Label.addr a))).lookup v = if v ∈ as then some (.addr v) else none := by
  induction as with
  | nil => rfl
  | cons a as ih =>
    rw [List.map_cons, List.lookup_cons, ih]
    by_cases h : v = a
    · subst h
      simp
    · have hb : (v == a) = false := beq_eq_false_iff_ne.mpr h
      simp [hb, h]

/-- The constructor of a function sees each `jr` in its slots. -/
theorem Function.registerIndirectJumps_of {ha : Attached array}
    (h : Function.ofSymbol n start array ha a b = some fn) (he : e ∈ fn.entries)
    (hi : e.insn.isRegisterIndirectJump = true) : fn.registerIndirectJumps = true := by
  have hk : ¬ e.IsDelaySlotNop := by
    rintro ⟨hk, -⟩
    rw [Instruction.isRegisterIndirectJump, hk] at hi
    cases hi
  rw [ofSymbol] at h
  split at h
  · cases h
  · next e₀ es hs =>
    cases h
    obtain ⟨bb, hbb, he⟩ := List.mem_flatMap.mp he
    rcases mem_splitBlocks (hs ▸ ha.slice a b) hbb he with h | h | h
    · cases h
    · exact List.any_eq_true.mpr ⟨e, h, hi⟩
    · exact absurd h hk

namespace JavaMethod

variable {m : JavaMethod} {array : List Entry} {text : List Word}

theorem Made.hasIndirectJumps (hm : m.Made array) (he : e ∈ m.slots env)
    (hk : e.insn.opcode = .jr) (hi : e.insn.isRegisterIndirectJump = true) :
    m.hasIndirectJumps = true := by
  obtain ⟨ha, hm⟩ := hm
  obtain ⟨fn, hfn, he⟩ := List.mem_flatMap.mp he
  obtain ⟨n, start, a, b, hs⟩ := hm fn hfn
  obtain ⟨e₀, he₀, hr⟩ := exists_of_forall₂ (fn.pass1_replaced env) he
  cases hr.eq (by rw [hk]; exact nofun) (by rw [hk]; exact nofun)
  exact List.any_eq_true.mpr ⟨fn, hfn, Function.registerIndirectJumps_of hs he₀ hi⟩

/-- The jump table stands behind its label. -/
theorem findLabel_localJumptab (env : Env) (h : m.hasIndirectJumps = true) : ∃ rest,
    findLabel (m.pass2 env) .localJumptab = some (.lookupswitch
      ((env.jumptabLabels m).map (fun a => (a, .addr a))) .functionReturn :: rest) := by
  obtain ⟨front, hl⟩ := pass2Lines_functions env m
  have hc := count_localJumptab env m
  rw [if_pos h] at hc
  rw [jumptabCode, ← hasIndirectJumps, if_pos h, List.cons_append, List.cons_append,
    List.cons_append, List.nil_append, ← List.append_assoc, ← List.singleton_append,
    ← List.append_assoc] at hl
  rw [hl] at hc
  have hf := Bc.find_of_once hc rfl
  rw [pass2, Bc.findLabel_lowerAll, hl, hf]
  exact ⟨_, rfl⟩

theorem jumptabLabel_pass2 (env : Env) (h : m.hasIndirectJumps = true) (v : Word) :
    Jvm.jumptabLabel (m.pass2 env) v =
      some (if v ∈ env.jumptabLabels m then .addr v else .functionReturn) := by
  obtain ⟨rest, hf⟩ := findLabel_localJumptab env h
  rw [Jvm.jumptabLabel, hf]
  dsimp only
  rw [lookup_labels]
  split <;> rfl

/-- A computed jump to `v` runs the delay slot `d` of the `jr` in `e` once, and then the code of
the instruction at `v`, with the next one behind it. -/
def JumpReaches (env : Env) (m : JavaMethod) (e : Entry) (d : Instruction) (v : Word) : Prop :=
  ∃ s i emit st next, s ∈ m.slots env ∧ s.Enters env v i emit ∧
    m.Denotes env (.addr v) ((emit st).1 ++ next) ∧
    Jvm.jumptabLabel (m.pass2 env) v = some (.addr v) ∧
    (i.isBranch = false → m.Behind env s (v + 4) next) ∧
    ∃ es c, m.At env (e :: es) (lowerAll (m.pass1 env).regalloc (e.headCode env) ++ c) ∧
      ∀ {σ : Type} (rt : Runtime σ) (regs : RegFile) l w l' w',
        Holds (m.pass1 env).regalloc regs l →
        regs.get e.insn.rs = v →
        Performs rt (m.pass2 env) (lowerAll (m.pass1 env).regalloc (d.code env)) l w l' w' →
        ∃ k, Runs rt (m.pass2 env) ⟨c, ⟨[], l, w⟩⟩
          ⟨lowerAll (m.pass1 env).regalloc ((emit st).1 ++ next), ⟨[], l' k, w'⟩⟩

/-- Behind the code of a slot a second copy of its delay slot is passed over. -/
def SkipsAgain (env : Env) (m : JavaMethod) : Prop :=
  ∀ e d es c, e.delayed = some d → env.hasJumptabLabel d.address = true → m.At env (e :: es) c →
    ∃ st st' next again, c = lowerAll (m.pass1 env).regalloc (e.headCode env ++
        (e.insn.pass2 env (e.delayedPass2 env) st).1) ++ (again ++ next) ∧
      again = .goto (.out d.address) :: .label (.addr d.address) ::
        (lowerAll (m.pass1 env).regalloc (d.pass2 env .nothing st').1 ++
          [.label (.out d.address)]) ∧
      m.At env es next ∧ ∀ {σ : Type} (rt : Runtime σ) f,
        Runs rt (m.pass2 env) ⟨again ++ next, f⟩ ⟨next, f⟩

/-- The lookup in the method's class finds it at `v`. The instruction there is emitted by the
method, is no catch and no call of `__NOPH_setjmp`, no function of the method begins in a delay
slot at `v`, and the next slot of the method is the one at `v + 4` unless the instruction is a
branch. -/
def JumpMeets (c : Controller) (cl : List JavaMethod) (idx : Nat) (env : Env) (m : JavaMethod)
    (v : Word) : Prop :=
  c.findInClass cl v = some idx ∧ ∃ s ∈ m.slots env, ∃ i,
    (i = s.insn ∧ i.kind ≠ .delaySlotNop ∨ s.delayed = some i ∧ v ∉ m.entryPoints) ∧
    i.address = v ∧ i.isSite env = false ∧
    (i.isBranch = false → ∃ before f after, m.ownSlots env = before ++ s :: f :: after ∧
      f.insn.address = v + 4)

theorem Of.skipsAgain (hm : m.Of array) (hp : Controller.pass0 base text = some array)
    (hl : 4 * text.length ≤ 2 ^ 32) (env : Env) : m.SkipsAgain env := by
  intro e d es c hd hlab hat
  have hb : e.insn.hasDelaySlot = true := e.attached (by rw [hd]; rfl)
  obtain ⟨st, next, hc, hnext, hf⟩ := hat.findLabel_out (hm.ownDelaySlots hp hl env) hd hb hlab
  refine ⟨st, (e.insn.pass2 env (e.delayedPass2 env) st).2, next, _, ?_, rfl, hnext,
    fun rt f => Runs.goto hf _ f⟩
  rw [hc, Entry.pass2_lines, Entry.againCode_lines hd hb hlab]
  simp only [Bc.lowerAll_append, Bc.lowerAll_cons, Bc.lowerAll_nil, Bc.lower, List.append_assoc,
    List.cons_append, List.nil_append]

/-- A `jr` of the method as the text section has it. -/
theorem Made.jr (hm : m.Made array) (hp : Controller.pass0 base text = some array)
    (he : e ∈ m.slots env) (hk : e.insn.opcode = .jr) :
    e.insn.kind = .jr ∧ Reg.Ordinary e.insn.rs ∧ e.insn.LocalBranch := by
  have hi : e.insn ∈ m.insns env := mem_insns_slot.mpr ⟨e, he, List.mem_cons_self ..⟩
  obtain ⟨e₀, he₀, hr⟩ := hm.slot he
  cases hr.eq (by rw [hk]; exact nofun) (by rw [hk]; exact nofun)
  obtain ⟨word, -, hc⟩ := (Controller.mem_pass0 hp he₀).1.resolve_right fun h => by
    rw [h.2] at hk
    cases hk
  obtain ⟨hb, hrs, -, -⟩ := Instruction.localBranch_of_create hc (by rw [hk]; decide)
  obtain ⟨-, hof⟩ := create_ofOpcode hc (by rw [hk]; exact nofun) (by rw [hk]; exact nofun)
    (by rw [hk]; exact nofun)
  rw [hk] at hof
  exact ⟨(congrArg Instruction.kind (Option.some.inj hof)).symm, hrs, hb⟩

/-- A method with a `jr` of a register other than `ra` has a jump table. -/
theorem Made.jumps (hm : m.Made array) (hp : Controller.pass0 base text = some array)
    (he : e ∈ m.slots env) (hk : e.insn.opcode = .jr) (hrs : e.insn.rs ≠ Reg.ra) :
    m.hasIndirectJumps = true := by
  obtain ⟨hkind, -, -⟩ := hm.jr hp he hk
  refine hm.hasIndirectJumps he hk ?_
  rw [Instruction.isRegisterIndirectJump, hkind, Bool.and_eq_true]
  exact ⟨beq_self_eq_true _, bne_iff_ne.mpr hrs⟩

/-- A `jr` reads its register, runs its delay slot and takes the label of the jump table. -/
theorem jr_runs (hmade : m.Made array) (hp : Controller.pass0 base text = some array)
    (he : e ∈ m.slots env) (hk : e.insn.opcode = .jr) (hrs : e.insn.rs ≠ Reg.ra)
    (hd : e.delayed = some d) (hdb : d.isBranch = false) :
    ∃ es c, m.At env (e :: es) (lowerAll (m.pass1 env).regalloc (e.headCode env) ++ c) ∧
      ∀ {σ : Type} (rt : Runtime σ) (regs : RegFile) l w l' w',
        Holds (m.pass1 env).regalloc regs l →
        Performs rt (m.pass2 env) (lowerAll (m.pass1 env).regalloc (d.code env)) l w l' w' →
        ∃ k, ∀ label c', Jvm.jumptabLabel (m.pass2 env) (regs.get e.insn.rs) = some label →
          findLabel (m.pass2 env) label = some c' →
          Runs rt (m.pass2 env) ⟨c, ⟨[], l, w⟩⟩ ⟨c', ⟨[], l' k, w'⟩⟩ := by
  obtain ⟨hkind, hord, hb⟩ := hmade.jr hp he hk
  have hi : e.insn ∈ m.insns env := mem_insns_slot.mpr ⟨e, he, List.mem_cons_self ..⟩
  have hops : e.insn.branchOperands = [e.insn.rs] := by
    rw [Instruction.branchOperands, hkind]
    exact if_neg hrs
  have hitem : e.insn.branchItem = .goto .localJumptab := by
    rw [Instruction.branchItem, hkind]
    exact congrArg Item.goto (if_neg hrs)
  have hstack (regs : RegFile) : e.insn.operandStack regs = [.int (regs.get e.insn.rs)] := by
    rw [Instruction.operandStack, hops]
    rfl
  obtain ⟨fn, hfn, hes⟩ := List.mem_flatMap.mp he
  obtain ⟨fs₁, fs₂, hf⟩ := List.append_of_mem hfn
  obtain ⟨es₁, es, hes⟩ := List.append_of_mem hes
  obtain ⟨c₀, hat⟩ := exists_at hf hes
  obtain ⟨st, next, hc, -⟩ := hat.next
  have hj : e.insn.kind = .jump → env.getBranchTarget (e.insn.extra <<< 2) = true :=
    fun h => by cases hkind.symm.trans h
  obtain ⟨again, hlines, -⟩ := Entry.pass2_branch hb hd hdb hj st
  rw [hlines, Bc.lowerAll_append, List.append_assoc, hitem] at hc
  have hcode : lowerAll (m.pass1 env).regalloc (e.insn.branchOperands.map .pushregister ++
      (d.code env ++ .item (.goto .localJumptab) :: again)) ++ next =
      lowerAll (m.pass1 env).regalloc (e.insn.branchOperands.map .pushregister) ++
        (lowerAll (m.pass1 env).regalloc (d.code env) ++
          .goto .localJumptab :: (lowerAll (m.pass1 env).regalloc again ++ next)) := by
    simp only [Bc.lowerAll_append, Bc.lowerAll_cons, Bc.lower, List.append_assoc,
      List.cons_append, List.nil_append]
  rw [hc, hcode] at hat
  have hread : ∀ r ∈ e.insn.branchOperands, Readable (m.pass1 env).regalloc r := by
    intro r hr
    obtain ⟨-, hsrc⟩ := Instruction.mem_branchOperands hr env
    rw [hops] at hr
    cases List.mem_singleton.mp hr
    exact readable_of_counted hi hsrc hord
  obtain ⟨rest, htab⟩ := findLabel_localJumptab env (hmade.jumps hp he hk hrs)
  refine ⟨es, _, hat, fun {σ} rt regs l w l' w' hl hd =>
    ⟨.goto .localJumptab :: (lowerAll (m.pass1 env).regalloc again ++ next),
      fun label c' hlab hfind => ?_⟩⟩
  refine (runs_delayed hl hread (hd _)).trans ?_
  rw [hstack]
  refine (Runs.goto htab _ _).trans (Runs.of_step ?_)
  rw [Jvm.jumptabLabel, htab] at hlab
  have hstep : Jvm.step rt (m.pass2 env) ⟨.lookupswitch ((env.jumptabLabels m).map
      (fun a => (a, .addr a))) .functionReturn :: rest,
        ⟨[.int (regs.get e.insn.rs)], l' (.goto .localJumptab ::
          (lowerAll (m.pass1 env).regalloc again ++ next)), w'⟩⟩ =
      Jvm.jump (m.pass2 env) label ⟨[], l' (.goto .localJumptab ::
          (lowerAll (m.pass1 env).regalloc again ++ next)), w'⟩ := by
    rw [← Option.some.inj hlab]
    rfl
  refine hstep.trans ?_
  rw [Jvm.jump, hfind]

/-- What is emitted for a catch or a call of `__NOPH_setjmp` has the label of its address. -/
theorem label_of_site {s : Entry} (h : s.Enters env v i emit) (hs : i.isSite env = true)
    (st : MethodState) : .item (.label (.addr v)) ∈ (emit st).1 := by
  have hmem {ms : List Mark} {bs : List Bc} (hm : allMarks bs = ms ++ i.marks env) :
      .item (.label (.addr i.address)) ∈ bs := by
    rw [← Bc.mem_defined_iff, hm, Mark.defined_append, Instruction.defined_marks, if_pos hs]
    exact List.mem_append_right _ (List.mem_singleton_self _)
  cases h with
  | own ha hk =>
    rw [← ha, Entry.bodyCode, Emission.seq_lines, Emission.seq_lines]
    exact List.mem_append_right _ (List.mem_append_left _
      (hmem (Instruction.pass2_marks (s.delayedPass2_marks env) env s.insn _)))
  | again hd ha =>
    rw [← ha, Emission.seq_lines]
    exact List.mem_append_left _ (hmem (Instruction.pass2_marks Emission.marks_nothing env i _))

theorem address_of_enters {s : Entry} (h : s.Enters env v i emit) :
    i.address = v ∧ i ∈ s.insns := by
  cases h with
  | own ha hk => exact ⟨ha, List.mem_cons_self ..⟩
  | again hd ha => exact ⟨ha, List.mem_cons_of_mem _ (Option.mem_toList.mpr hd)⟩

/-- A second copy is entered by its own label only. -/
theorem Denotes.not_entry (hm : m.Of array) (hmade : m.Made array)
    (hp : Controller.pass0 base text = some array) (hl : 4 * text.length ≤ 2 ^ 32)
    (he : e ∈ m.slots env) (hd : e.delayed = some d)
    (hlab : env.hasJumptabLabel d.address = true) (hs : d.isSite env = false)
    (h : m.Denotes env (.addr d.address) code) : d.address ∉ m.entryPoints := by
  intro ha
  have hc := hm.count_again hp hl he hd (hmade.delayed_kind hp he hd) hlab hs
  have hb : e.insn.hasDelaySlot = true := e.attached (by rw [hd]; rfl)
  obtain ⟨ps, qs, hps⟩ := List.append_of_mem (mem_parts.mpr he)
  obtain ⟨front, st, next, hlines, -⟩ := lines_slot hm hmade hp hl hps (Entry.kind_of_delayed hd)
  rw [Entry.pass2_lines, Entry.againCode_lines hd hb hlab] at hlines
  let before := front ++ ((Emission.all (ps.map (Part.emit env)) ⟨[], m.catchHandlers env⟩).1 ++
    (e.headCode env ++ (e.insn.pass2 env (e.delayedPass2 env) st).1))
  let copy := (d.pass2 env .nothing (e.insn.pass2 env (e.delayedPass2 env) st).2).1
  have hlines : m.pass2Lines env = (before ++ [.item (.goto (.out d.address))]) ++
      .item (.label (.addr d.address)) :: (copy ++ .item (.label (.out d.address)) :: next) := by
    rw [hlines]
    simp only [before, copy, List.append_assoc, List.cons_append, List.nil_append]
  have hcopy : .item (.label (.addr d.address)) ∉ copy := by
    rw [← Bc.mem_defined_iff, Entry.delayed_marks env d, Instruction.defined_marks, hs]
    exact List.not_mem_nil
  obtain ⟨n, hn⟩ := h.2 _ _ hlines
  cases n with
  | succ n =>
    -- the copy would begin with its label
    generalize copy = bs at hn hcopy
    cases bs with
    | nil => cases hn
    | cons b bs => exact hcopy ((List.cons.inj hn).1 ▸ List.mem_cons_self ..)
  | zero =>
    -- the other definition stands before the jump over the copy
    have hcode : copy ++ .item (.label (.out d.address)) :: next = code := hn
    rw [hcode] at hlines
    have hz : (defined (allMarks code)).count (.addr d.address) = 0 :=
      List.count_eq_zero.mpr fun hm => h.not_mem (Bc.mem_defined_iff.mp hm)
    have hpos := List.count_pos_iff.mpr ha
    have hbefore : .item (.label (.addr d.address)) ∈ before := by
      rw [← Bc.mem_defined_iff, ← List.count_pos_iff]
      rw [hlines] at hc
      simp only [Bc.allMarks_append, Bc.allMarks_cons, Bc.allMarks_nil, Bc.marks_goto,
        Bc.marks_label, List.append_nil, Mark.defined_append, Mark.defined_names,
        Mark.defined_defines, Mark.defined_nil, List.singleton_append, List.count_append,
        List.count_cons_self, hz] at hc
      omega
    obtain ⟨xs, ys, hxy⟩ := List.append_of_mem hbefore
    rw [hxy, List.append_assoc, List.append_assoc] at hlines
    obtain ⟨n, hy⟩ := h.2 _ _ hlines
    have hy : (ys ++ [.item (.goto (.out d.address)), .item (.label (.addr d.address))]) ++ code =
        List.replicate n (.item (.label (.addr d.address))) ++ code := by
      rw [← hy, List.append_assoc]
      rfl
    have hy := List.append_cancel_right hy
    have hgoto := List.eq_of_mem_replicate (hy ▸ List.mem_append_right ys (List.mem_cons_self ..))
    cases hgoto

end JavaMethod

section

variable {c : Controller} {l : Lookups} {text : List Word} {array : List Entry} {env : Env}
  {cl : List JavaMethod} {m : JavaMethod} {e : Entry} {d : Instruction} {v : Word}

theorem Controller.Collected.length_le (h : c.Collected l text array env cl k idx m) :
    4 * text.length ≤ 2 ^ 32 := by
  have hf := h.fits
  omega

/-- A jump that reaches the instruction meets the condition. -/
theorem JavaMethod.JumpReaches.meets (h : c.Collected l text array env cl k idx m)
    (hn : CodeBlock.Near l.jumptabLabels) (he : e ∈ m.slots env) (hk : e.insn.opcode = .jr)
    (hrs : e.insn.rs ≠ Reg.ra) (hv : InData c.scns v) (hr : m.JumpReaches env e d v) :
    m.JumpMeets c cl idx env v := by
  obtain ⟨s, i, emit, st, next, hs, hent, hden, hlist, hbehind, -⟩ := hr
  have hjump := h.made.jumps h.pass0 he hk hrs
  have hlab : v ∈ env.jumptabLabels m := by
    rw [JavaMethod.jumptabLabel_pass2 env hjump] at hlist
    by_contra hno
    rw [if_neg hno] at hlist
    cases hlist
  have hsite : i.isSite env = false := by
    cases hsite : i.isSite env with
    | false => rfl
    | true =>
      have hmem := JavaMethod.label_of_site hent hsite st
      exact absurd (List.mem_append_left _ hmem) hden.not_mem
  obtain ⟨ha, hi⟩ := JavaMethod.address_of_enters hent
  have hown : i = s.insn ∧ i.kind ≠ .delaySlotNop ∨
      s.delayed = some i ∧ v ∉ m.entryPoints := by
    cases hent with
    | own ha hk => exact .inl ⟨rfl, hk⟩
    | again hd ha =>
      subst ha
      exact .inr ⟨hd, hden.not_entry h.parts h.made h.pass0 h.length_le hs hd
        (h.hasJumptabLabel hn hlab) hsite⟩
  have hki : i.kind ≠ .delaySlotNop := by
    rcases hown with ⟨-, hk⟩ | ⟨hd, -⟩
    · exact hk
    · exact h.made.delayed_kind h.pass0 hs hd
  refine ⟨?_, s, hs, i, hown, ha, hsite, fun hb => ?_⟩
  · subst ha
    exact (h.mem_labels (JavaMethod.mem_insns_slot.mpr ⟨s, hs, hi⟩) hki hv).mp hlab
  · obtain ⟨before, f, after, -, -, -, ho, hf, -⟩ := hbehind hb
    exact ⟨before, f, after, ho, hf⟩

/-- Under the condition the jump reaches the instruction. -/
theorem JavaMethod.JumpMeets.reaches (h : c.Collected l text array env cl k idx m)
    (hn : CodeBlock.Near l.jumptabLabels) (he : e ∈ m.slots env) (hk : e.insn.opcode = .jr)
    (hrs : e.insn.rs ≠ Reg.ra) (hd : e.delayed = some d) (hdb : d.isBranch = false)
    (hv : InData c.scns v) (hm : m.JumpMeets c cl idx env v) : m.JumpReaches env e d v := by
  obtain ⟨hfound, s, hs, i, hown, rfl, hsite, hnext⟩ := hm
  have hjump := h.made.jumps h.pass0 he hk hrs
  have hi : i ∈ s.insns ∧ i.kind ≠ .delaySlotNop := by
    rcases hown with ⟨rfl, hk⟩ | ⟨hd, -⟩
    · exact ⟨List.mem_cons_self .., hk⟩
    · exact ⟨List.mem_cons_of_mem _ (Option.mem_toList.mpr hd), h.made.delayed_kind h.pass0 hs hd⟩
  have hlab := (h.mem_labels (JavaMethod.mem_insns_slot.mpr ⟨s, hs, hi.1⟩) hi.2 hv).mpr hfound
  have hhas := h.hasJumptabLabel hn hlab
  obtain ⟨emit, st, next, hent, hden, hbehind⟩ : ∃ emit st next, s.Enters env i.address i emit ∧
      m.Denotes env (.addr i.address) ((emit st).1 ++ next) ∧
        ∀ before f after, m.ownSlots env = before ++ s :: f :: after →
          m.Behind env s f.insn.address next := by
    rcases hown with ⟨rfl, hk⟩ | ⟨hd, ha⟩
    · have hl : s.hasLabel env = true := by
        rw [Entry.hasLabel, hhas, Bool.or_true, Bool.true_and]
        exact bne_iff_ne.mpr hk
      obtain ⟨st, next, hden, hb⟩ :=
        JavaMethod.enters_own h.parts h.made h.pass0 h.length_le hs hk hl hsite
      exact ⟨_, st, next, .own rfl hk, hden, hb⟩
    · obtain ⟨st, next, hden, hb⟩ :=
        JavaMethod.enters_again h.parts h.made h.pass0 h.length_le hs hd hhas hsite ha
      exact ⟨_, st, next, .again hd rfl, hden, hb⟩
  have hlist := JavaMethod.jumptabLabel_pass2 env hjump i.address
  rw [if_pos hlab] at hlist
  refine ⟨s, i, emit, st, next, hs, hent, hden, hlist, fun hb => ?_, ?_⟩
  · obtain ⟨before, f, after, ho, hf⟩ := hnext hb
    rw [← hf]
    exact hbehind before f after ho
  · obtain ⟨es, c, hat, hrun⟩ := JavaMethod.jr_runs h.made h.pass0 he hk hrs hd hdb
    refine ⟨es, c, hat, fun {σ} rt regs l w l' w' hl hv hp => ?_⟩
    obtain ⟨k, hk⟩ := hrun rt regs l w l' w' hl hp
    obtain ⟨c', hfind, hruns⟩ := hden.runs rt ⟨[], l' k, w'⟩
    rw [← hv] at hlist
    exact ⟨k, (hk _ c' hlist (hv ▸ hfind)).trans hruns⟩

/-- A computed jump to an address in data reaches its instruction exactly under the condition. -/
theorem computed_jumps_iff (h : c.Collected l text array env cl k idx m)
    (hn : CodeBlock.Near l.jumptabLabels) (he : e ∈ m.slots env) (hk : e.insn.opcode = .jr)
    (hrs : e.insn.rs ≠ Reg.ra) (hd : e.delayed = some d) (hdb : d.isBranch = false)
    (hv : InData c.scns v) :
    m.JumpReaches env e d v ∧ m.SkipsAgain env ↔ m.JumpMeets c cl idx env v :=
  ⟨fun hr => hr.1.meets h hn he hk hrs hv, fun hm => ⟨hm.reaches h hn he hk hrs hd hdb hv,
    h.parts.skipsAgain h.pass0 h.length_le env⟩⟩

end

/-- `jr $v0`, an addition behind its delay slot, and a return. -/
def jrText : List Word := [0x00400008, 0, 0x24020001, 0x03e00008, 0]

def jrArray : List Entry := (Controller.pass0 0x1000 jrText).getD []

theorem jrText_pass0 : Controller.pass0 0x1000 jrText = some jrArray := rfl

/-- The function of the words up to `last`. -/
def jrFunction (last : Nat) : Option Function :=
  Function.ofSymbol "f" false jrArray (Controller.pass0_attached jrText_pass0) 0 last

def jrToReturn : JavaMethod := ⟨(jrFunction 4).toList, by decide⟩

def jrToLast : JavaMethod := ⟨(jrFunction 2).toList, by decide⟩

/-- The program, with the address of the addition in its data. -/
def jrEnv (m : JavaMethod) : Env :=
  { Env.single {} m with
    hasJumptabLabel a := CodeBlock.hasJumptabLabel [0x1008] a
    jumptabLabels _ := [0x1008] }

def jrController (m : JavaMethod) : Controller where
  base := 0x1000
  textSize := 20
  classes := [[m]]
  findInClass cl addr := cl.findIdx? (fun mt => (mt.getFunctionByAddress addr).isSome)
  relocs := []
  scns := [⟨[0, 0, 0x10, 8], 4⟩]

def jrLookups : Lookups := ⟨.empty, [0x1008], [(0x1008, 0, 0)]⟩

theorem jr_lookups {m : JavaMethod} (hf : m.getFunctionByAddress 0x1008 = some fn)
    (ha : fn.address ≠ 0x1008) :
    (jrController m).scns.foldlM (jrController m).lookupDataAddresses ⟨.empty, [], []⟩ =
      some jrLookups := by
  have hw : ElfSection.words [0, 0, 0x10, 8] = [0x1008] := by decide
  have ht : ((jrController m).base.toNat ≤ (0x1008 : Word).toNat ∧
      (0x1008 : Word).toNat < (jrController m).textEnd.toNat) ∧ (0x1008 : Word) &&& 3 = 0 :=
    show ((0x1000 : Word).toNat ≤ (0x1008 : Word).toNat ∧
      (0x1008 : Word).toNat < ((0x1000 : Word) + 20).toNat) ∧ (0x1008 : Word) &&& 3 = 0 by decide
  have hi : (jrController m).findInClass [m] 0x1008 = some 0 := by
    change [m].findIdx? (fun mt => (mt.getFunctionByAddress 0x1008).isSome) = some 0
    rw [List.findIdx?_cons, hf]
    rfl
  have hc : (jrController m).lookupInClass 0x1008 ⟨.empty, [], []⟩ ([m], 0) = some jrLookups := by
    simp only [Controller.lookupInClass, hi, Option.bind_some, List.getElem?_cons_zero,
      Option.map_some, hf, if_neg ha]
    rfl
  change ([⟨[0, 0, 0x10, 8], 4⟩] : List ElfSection).foldlM _ _ = _
  rw [List.foldlM_cons, Controller.lookupDataAddresses, hw, List.foldlM_cons,
    Controller.lookupDataAddress, if_pos ht]
  change (((([([m], 0)] : List (List JavaMethod × Nat)).foldlM _ _) >>= _) >>= _) = _
  rw [List.foldlM_cons, hc]
  rfl

theorem jr_collected {m : JavaMethod} (hm : m.functions = (jrFunction n).toList)
    (hf : m.getFunctionByAddress 0x1008 = some fn) (ha : fn.address ≠ 0x1008) :
    (jrController m).Collected jrLookups jrText jrArray (jrEnv m) [m] 0 0 m where
  pass0 := jrText_pass0
  textSize := rfl
  aligned := show (0x1000 : Word) &&& 3 = 0 by decide
  fits := show (0x1000 : Word).toNat + 4 * jrText.length < 2 ^ 32 by decide
  class_ := rfl
  method := rfl
  made := (JavaMethod.made_of_symbol hm).1
  parts := (JavaMethod.made_of_symbol hm).2
  lookups := ⟨.empty, jr_lookups hf ha⟩
  hasLabel := ⟨[0x1008], ⟨.refl _, List.pairwise_singleton _ _⟩, fun _ => rfl⟩
  labels := ⟨.refl _, List.pairwise_singleton _ _⟩

theorem jr_near : CodeBlock.Near jrLookups.jumptabLabels := by
  intro a ha b hb
  cases List.mem_singleton.mp ha
  cases List.mem_singleton.mp hb
  omega

theorem jr_inData (m : JavaMethod) : InData (jrController m).scns 0x1008 :=
  ⟨_, List.mem_singleton_self _, 0, Nat.le_refl 4, by decide⟩

def jrDelay : Instruction := ⟨.shiftInstruction .ishl, 0x1004, .sll, 0, 0, 0, 0⟩

def jrEntry : Entry := ⟨⟨.jr, 0x1000, .jr, Reg.v0, 0, 0, 0⟩, some jrDelay, fun _ => rfl⟩

theorem computed_jumps_return :
    jrToReturn.JumpReaches (jrEnv jrToReturn) jrEntry jrDelay 0x1008 ∧
      jrToReturn.SkipsAgain (jrEnv jrToReturn) := by
  have hc : (jrController jrToReturn).Collected jrLookups jrText jrArray (jrEnv jrToReturn)
      [jrToReturn] 0 0 jrToReturn := jr_collected (n := 4) rfl rfl (by decide)
  refine (computed_jumps_iff hc jr_near (by decide) rfl (by decide) rfl rfl
    (jr_inData _)).mpr ⟨by decide, ?_⟩
  refine ⟨.single ⟨.addi, 0x1008, .addiu, 0, Reg.v0, 0, 1⟩, by decide, _, .inl ⟨rfl, nofun⟩, rfl,
    by decide, fun _ => ⟨[jrEntry], _, [], rfl, rfl⟩⟩

/-- The last word of a function that ends without a branch is looked up, but not emitted. -/
theorem jr_to_last_word :
    (jrController jrToLast).Collected jrLookups jrText jrArray (jrEnv jrToLast) [jrToLast] 0 0
      jrToLast ∧ CodeBlock.Near jrLookups.jumptabLabels ∧
    jrEntry ∈ jrToLast.slots (jrEnv jrToLast) ∧ InData (jrController jrToLast).scns 0x1008 ∧
    (jrToLast.getFunctionByAddress 0x1008).isSome = true ∧
    .item (.lookupswitch [(0x1008, .addr 0x1008)] .functionReturn) ∈
      jrToLast.pass2Lines (jrEnv jrToLast) ∧
    .item (.label (.addr 0x1008)) ∉ jrToLast.pass2Lines (jrEnv jrToLast) ∧
    ¬ jrToLast.JumpReaches (jrEnv jrToLast) jrEntry jrDelay 0x1008 := by
  have hc : (jrController jrToLast).Collected jrLookups jrText jrArray (jrEnv jrToLast)
      [jrToLast] 0 0 jrToLast := jr_collected (n := 2) rfl rfl (by decide)
  have hno : .item (.label (.addr 0x1008)) ∉ jrToLast.pass2Lines (jrEnv jrToLast) := by
    decide +kernel
  refine ⟨hc, jr_near, by decide, jr_inData _, by decide, by decide +kernel, hno, ?_⟩
  rintro ⟨s, i, emit, st, next, -, -, ⟨hm, -⟩, -⟩
  exact hno hm

end Cibyl
