import Cibyl.LeafRun

namespace Cibyl
set_option autoImplicit true

open InstructionFactory (create ofOpcode decodeExtra)
open Jvm (Item Label Value World Runtime Runs step jump findLabel exec)
open Bc (lowerAll)

section

variable {insn : Instruction} {word a : Word}

theorem Instruction.not_branch_of_create (hc : create a word = some insn)
    (ho : insn.opcode ∈ aluOpcodes ++ memoryOpcodes) : insn.isBranch = false := by
  rcases List.mem_append.mp ho with ho | ho
  · obtain ⟨-, hof⟩ := create_alu hc ho
    simp only [aluOpcodes, List.mem_cons, List.not_mem_nil, or_false] at ho
    rcases ho with h | h | h | h | h | h | h | h | h | h | h | h | h | h | h | h | h | h | h | h |
      h | h | h | h | h | h | h | h | h | h
    all_goals
      rw [h] at hof
      cases hof
      rfl
  · obtain ⟨-, -, -, -, hof⟩ := create_access hc (List.mem_append_left _ ho)
    have hk := memoryKind_of_create hof ho
    rw [isBranch]
    generalize insn.opcode = o, insn.kind = k at hk
    cases hk <;> rfl

/-- Where a branch may go to is among its targets. -/
theorem Instruction.destination_targets (hc : create a word = some insn)
    (ho : insn.opcode ∈ branchOpcodes)
    (hj : insn.kind = .jump → env.getBranchTarget (insn.extra <<< 2) = true)
    (h : Arch.destination insn.opcode insn.address word regs = .address b) :
    b ∈ insn.targets env := by
  have hne : ∀ o ∈ branchOpcodes,
      o ≠ .none ∧ o ≠ .cibylSyscall ∧ o ≠ .cibylRegisterArgument := by decide
  obtain ⟨hn, hs, hr⟩ := hne _ ho
  obtain ⟨hop, hof⟩ := create_ofOpcode hc hn hs hr
  have hx (hj : insn.opcode ≠ .j) (hr : insn.opcode ≠ .jr) :
      decodeExtra word = (Arch.imm word).signExtend 32 :=
    decodeExtra_branch (hop ▸ ho) (hop ▸ hr) (hop ▸ hj)
  have hxj (h : insn.opcode = .j) :
      decodeExtra word = (word.extractLsb' 0 26).setWidth 32 := decodeExtra_jump (hop.symm.trans h)
  rw [create_address hc] at h
  have hcond {o : Opcode} (hd : insn.dst = Arch.branchTarget a word)
      (h : (if Arch.taken o word regs then Arch.Destination.address (Arch.branchTarget a word)
        else .next) = .address b) : b = insn.dst := by
    split at h
    · exact hd ▸ (Arch.Destination.address.inj h).symm
    · cases h
  simp only [branchOpcodes, List.mem_cons, List.not_mem_nil, or_false] at ho
  rcases ho with ho | ho | ho | ho | ho | ho | ho | ho <;> rw [ho] at hof hx hxj h
  case inr.inr.inr.inr.inr.inr.inl =>
    rw [hxj rfl] at hof
    cases hof
    cases h
    rw [targets]
    dsimp only
    rw [if_pos (hj rfl)]
    exact .head _
  case inr.inr.inr.inr.inr.inr.inr =>
    rw [Arch.destination] at h
    split at h <;> cases h
  all_goals rw [hx (fun h => by cases h) (fun h => by cases h)] at hof
  case inl | inr.inl =>
    rw [ofOpcode] at hof
    split at hof <;> cases hof <;> exact List.mem_singleton.mpr (hcond rfl h)
  all_goals
    cases hof
    exact List.mem_singleton.mpr (hcond rfl h)

theorem Instruction.branch_registers (hc : create a word = some insn)
    (ho : insn.opcode ∈ branchOpcodes) :
    (insn.rs = 0 ∨ insn.rs = Arch.rs word) ∧ (insn.rt = 0 ∨ insn.rt = Arch.rt word) := by
  have hne : ∀ o ∈ branchOpcodes,
      o ≠ .none ∧ o ≠ .cibylSyscall ∧ o ≠ .cibylRegisterArgument := by decide
  obtain ⟨hn, hs, hr⟩ := hne _ ho
  obtain ⟨-, hof⟩ := create_ofOpcode hc hn hs hr
  simp only [branchOpcodes, List.mem_cons, List.not_mem_nil, or_false] at ho
  rcases ho with ho | ho | ho | ho | ho | ho | ho | ho <;> rw [ho] at hof
  case inl | inr.inl =>
    rw [ofOpcode] at hof
    split at hof <;> cases hof <;> simp
  all_goals
    cases hof
    simp

theorem Arch.destination_register (h : destination o a word regs = .register v) :
    o = .jr ∧ rs word ≠ Reg.ra ∧ v = regs.get (rs word) := by
  rw [destination.eq_def] at h
  split at h
  · cases h
  · split at h
    · cases h
    · next hr => exact ⟨rfl, hr, (Destination.register.inj h).symm⟩
  · split at h <;> cases h

theorem Arch.destination_next (h : destination o a word regs = .next) : o ≠ .j ∧ o ≠ .jr := by
  rw [destination.eq_def] at h
  split at h
  · cases h
  · split at h <;> cases h
  · next hj hr => exact ⟨hj, hr⟩

/-- A branch reads what its operands hold. -/
theorem Arch.destination_congr {regs regs' : RegFile} (hc : create a word = some insn)
    (ho : insn.opcode ∈ branchOpcodes)
    (h : ∀ r ∈ insn.branchOperands, regs.get r = regs'.get r) :
    destination insn.opcode insn.address word regs =
      destination insn.opcode insn.address word regs' := by
  have hne : ∀ o ∈ branchOpcodes,
      o ≠ .none ∧ o ≠ .cibylSyscall ∧ o ≠ .cibylRegisterArgument := by decide
  obtain ⟨hn, hs, hr⟩ := hne _ ho
  obtain ⟨-, hof⟩ := create_ofOpcode hc hn hs hr
  have hz : regs.get 0 = regs'.get 0 := regs.get_zero.trans regs'.get_zero.symm
  have hif (o : Opcode) (ht : taken o word regs = taken o word regs') :
      (if taken o word regs then Destination.address (branchTarget a word) else .next) =
        if taken o word regs' then Destination.address (branchTarget a word) else .next :=
    if_congr (Iff.of_eq ht) rfl rfl
  rw [create_address hc]
  simp only [branchOpcodes, List.mem_cons, List.not_mem_nil, or_false] at ho
  rcases ho with ho | ho | ho | ho | ho | ho | ho | ho <;> rw [ho] at hof ⊢
  case inr.inr.inr.inr.inr.inr.inl => rfl
  case inr.inr.inr.inr.inr.inr.inr =>
    cases hof
    rw [destination, destination]
    split
    · rfl
    · next hra =>
      refine congrArg Destination.register (h _ ?_)
      rw [Instruction.branchOperands]
      exact (if_neg hra : (if rs word = Reg.ra then ([] : List Reg) else _) = _) ▸ .head _
  case inl | inr.inl =>
    rw [ofOpcode] at hof
    split at hof
    · next hrt =>
      cases hof
      have hs : regs.get (rs word) = regs'.get (rs word) := h _ (.head _)
      exact hif _ (by simp only [taken, hs, hrt, hz])
    · cases hof
      have hs : regs.get (rs word) = regs'.get (rs word) := h _ (.head _)
      have ht : regs.get (rt word) = regs'.get (rt word) := h _ (.tail _ (.head _))
      exact hif _ (by simp only [taken, hs, ht])
  all_goals
    cases hof
    have hs : regs.get (rs word) = regs'.get (rs word) := h _ (.head _)
    exact hif _ (by simp only [taken, hs])

end

namespace JavaMethod

/-- The leaf function stands in the text section. -/
structure LeafOf (base : Word) (text : List Word) (env : Env) (m : JavaMethod) : Prop
    extends m.Leaf env where
  fits : 4 * text.length ≤ 2 ^ 32
  array : ∃ array, Controller.pass0 base text = some array ∧ m.Made array ∧ m.Of array

variable {base : Word} {text : List Word} {env : Env} {m : JavaMethod} {e : Entry}
  {es before : List Entry} {ret a : Word} {size : Nat}

theorem Leaf.functions (h : m.Leaf env) : ∃ fn, m.functions = [fn] := by
  have hs := h.single
  have hn := m.nonempty
  rw [hasMultipleFunctions, decide_eq_false_iff_not] at hs
  cases hf : m.functions with
  | nil => exact absurd hf hn
  | cons fn fns =>
    cases fns with
    | nil => exact ⟨fn, rfl⟩
    | cons gn fns =>
      rw [hf, List.length_cons, List.length_cons] at hs
      omega

/-- What the text section holds at the slots of the method. -/
theorem LeafOf.fetched (h : m.LeafOf base text env) (he : e ∈ m.slots env) :
    (e.insn.kind ≠ .delaySlotNop → ∃ word, Arch.fetch base text e.insn.address = some word ∧
      create e.insn.address word = some e.insn) ∧
    ∀ d ∈ e.delayed, ∃ word, Arch.fetch base text d.address = some word ∧
      create d.address word = some d := by
  obtain ⟨array, hp, -, hm⟩ := h.array
  rw [h.kept] at he
  have he := hm.disjoint.subset he
  obtain ⟨insns, hd, rfl⟩ := Option.map_eq_some_iff.mp hp
  obtain ⟨hi, hdel⟩ := mem_attachDelaySlots he
  constructor
  · intro hk
    exact Controller.fetch_decode hd h.fits (hi.resolve_right fun hn => hk hn.1)
  · intro d hdm
    exact Controller.fetch_decode hd h.fits (hdel d hdm)

theorem LeafOf.follows (h : m.LeafOf base text env) : (m.slots env).IsChain Follows := by
  obtain ⟨array, hp, -, hm⟩ := h.array
  obtain ⟨fn, hfn⟩ := h.functions
  obtain ⟨pre, post, hs⟩ := hm.part fn (hfn ▸ List.mem_singleton_self fn)
  have hc := Controller.pass0_follows hp
  rw [← hs] at hc
  rw [h.kept, hfn, List.flatMap_singleton]
  exact hc.left_of_append.right_of_append

theorem LeafOf.next (h : m.LeafOf base text env) (hs : m.slots env = before ++ e :: f :: es) :
    Follows e f := by
  have hc := h.follows
  rw [hs] at hc
  exact (List.isChain_cons_cons.mp hc.right_of_append).1

/-- A method does not end behind an instruction that goes on. -/
theorem Leaf.more (h : m.Leaf env) (hs : m.slots env = before ++ e :: es)
    (hj : e.insn.opcode ≠ .j) (hr : e.insn.opcode ≠ .jr) : ∃ f fs, es = f :: fs := by
  obtain ⟨pre, e', hend, -, ho⟩ := h.ends
  cases es with
  | nil =>
    cases (List.append_inj' (hs.symm.trans hend) rfl).2
    exact absurd ho (fun ho => ho.elim hj hr)
  | cons f fs => exact ⟨f, fs, rfl⟩

theorem LeafOf.delayed_address (h : m.LeafOf base text env) (he : e ∈ m.slots env)
    (hd : e.delayed = some d) : d.address = e.insn.address + 4 := by
  obtain ⟨array, hp, -, hm⟩ := h.array
  exact Controller.pass0_delayed hp e (hm.disjoint.subset (h.kept ▸ he)) d hd

/-- A branch has its delay slot. -/
theorem LeafOf.has_delayed (h : m.LeafOf base text env) (hs : m.slots env = before ++ e :: es)
    (hb : e.insn.isBranch = true) : ∃ d, e.delayed = some d := by
  cases es with
  | nil =>
    obtain ⟨pre, e', hend, hd, -⟩ := h.ends
    cases (List.append_inj' (hs.symm.trans hend) rfl).2
    exact Option.isSome_iff_exists.mp hd
  | cons f fs =>
    obtain ⟨-, d, hd, -⟩ := (h.next hs).delayed hb
    exact ⟨d, hd⟩

theorem Leaf.headCode (h : m.Leaf env) (he : e ∈ m.slots env) : e.headCode env =
    if e.hasLabel env then [.item (.label (.addr e.insn.address))] else [] := by
  rw [Entry.headCode, Entry.traceCode, h.untraced e he]
  exact List.append_nil _

/-- A slot is entered through its label. -/
theorem LeafOf.enters (h : m.LeafOf base text env) (hs : m.slots env = before ++ e :: es)
    (hat : m.At env (e :: es) c) (hk : e.insn.kind ≠ .delaySlotNop) (ret : Word) :
    ∃ d, (∀ {σ : Type} (rt : Runtime σ) f, Runs rt (m.pass2 env) ⟨c, f⟩ ⟨d, f⟩) ∧
      m.Placed env ret e.insn.address d := by
  obtain ⟨st, d, hc, -⟩ := hat.next
  rw [Entry.pass2_lines, Bc.lowerAll_append, List.append_assoc] at hc
  subst hc
  refine ⟨_, fun rt f => ?_, .slot hs hat hk rfl⟩
  rw [h.headCode (hs ▸ List.mem_append_right _ (List.mem_cons_self ..))]
  split
  · exact Runs.label _ _ f
  · exact .refl _

/-- The label of a slot is found before its code. -/
theorem LeafOf.lands (h : m.LeafOf base text env) (hland : m.Lands env a) (ret : Word) :
    ∃ c, findLabel (m.pass2 env) (.addr a) = some c ∧ m.Placed env ret a c := by
  obtain ⟨e, he, hk, rfl, hlab⟩ := hland
  obtain ⟨array, hp, hmade, hm⟩ := h.array
  obtain ⟨fn, hfn⟩ := h.functions
  have hslots : m.slots env = fn.pass1 env := by
    rw [slots, hfn, List.flatMap_singleton]
  obtain ⟨es₁, es, hes⟩ := List.append_of_mem (hslots ▸ he)
  have hone : m.functions = [] ++ fn :: [] := hfn
  obtain ⟨c₀, hat⟩ := exists_at hone hes
  have hat' := hat
  obtain ⟨-, -, pre, st, post, -, hl, -, hc⟩ := hat
  have hcount := hm.count_own hmade hp h.fits he hk hlab
    (h.site _ (mem_insns_slot.mpr ⟨e, he, List.mem_cons_self ..⟩))
  have hentry : m.entryPoints = [] := by
    rw [entryPoints, h.single]
    rfl
  rw [hentry, if_neg List.not_mem_nil] at hcount
  rw [List.map_cons, Emission.all_cons_lines, Entry.pass2_lines, h.headCode he, if_pos hlab,
    List.append_assoc, List.append_assoc, List.singleton_append] at hl hc
  obtain ⟨rest, hl, hc⟩ : ∃ rest, m.pass2Lines env =
      pre ++ .item (.label (.addr e.insn.address)) :: rest ∧
        c₀ = lowerAll (m.pass1 env).regalloc (.item (.label (.addr e.insn.address)) :: rest) :=
    ⟨_, hl, hc⟩
  rw [hl] at hcount
  rw [hc, Bc.lowerAll_cons, Bc.lower] at hat'
  refine ⟨lowerAll (m.pass1 env).regalloc rest, ?_, .slot (hslots.trans hes) ?_ hk rfl⟩
  · rw [pass2, Bc.findLabel_lowerAll, hl, Bc.find_of_once hcount rfl]
    rfl
  · rw [h.headCode he, if_pos hlab]
    exact hat'

/-- The end of the body, where a `jr $ra` goes. -/
theorem Leaf.findLabel_return (h : m.Leaf env) : findLabel (m.pass2 env) .functionReturn =
    some (lowerAll (m.pass1 env).regalloc (returnCode env (m.pass1 env))) := by
  have hcount := count_fixed env m (l := .functionReturn) (by simp)
  have hl := m.pass2Lines_eq env
  rw [backLines, returnLocationCode, h.single, if_neg (by simp), List.append_nil,
    List.append_assoc, ← List.cons_append, ← List.append_assoc, List.singleton_append] at hl
  rw [hl] at hcount
  rw [pass2, Bc.findLabel_lowerAll, hl, Bc.find_of_once hcount rfl]
  rfl

/-- The jump of a branch goes where the processor goes. -/
theorem LeafOf.goes (h : m.LeafOf base text env) (he : e ∈ m.slots env)
    (hc : create e.insn.address word = some e.insn) (ho : e.insn.opcode ∈ branchOpcodes)
    {rt : Runtime σ} {s : Arch.Machine} (hra : s.regs.get Reg.ra = ret)
    (hdest : dest = Arch.destination e.insn.opcode e.insn.address word regs)
    (hf : Arch.follow (env.jumptabLabels m) s dest = some b) (hn : dest ≠ .next)
    (hg : GoesTo rt (m.pass2 env) c rest l w dest) :
    ∃ d, Runs rt (m.pass2 env) c ⟨d, ⟨[], l, w⟩⟩ ∧ m.Placed env ret b d := by
  have hi : e.insn ∈ m.insns env := mem_insns_slot.mpr ⟨e, he, List.mem_cons_self ..⟩
  cases dest with
  | next => exact absurd rfl hn
  | address a =>
    cases hf
    have ht := Instruction.destination_targets hc ho (h.jump _ hi) hdest.symm
    obtain ⟨d, hd, hpl⟩ := h.lands (h.targets _ (List.mem_append_left _
      (List.mem_flatMap.mpr ⟨_, hi, ht⟩))) ret
    refine ⟨d, Runs.of_step (hg.trans ?_), hpl⟩
    rw [jump, hd]
  | register v =>
    rw [Arch.follow] at hf
    split at hf
    case isFalse => cases hf
    case isTrue hv =>
      cases hf
      obtain ⟨array, hp, hmade, -⟩ := h.array
      obtain ⟨hop, hrs, -⟩ := Arch.destination_register hdest.symm
      have hrs' : e.insn.rs = Arch.rs word := by
        obtain ⟨-, hof⟩ := create_ofOpcode hc (by rw [hop]; exact fun h => by cases h)
          (by rw [hop]; exact fun h => by cases h) (by rw [hop]; exact fun h => by cases h)
        rw [hop] at hof
        exact (congrArg Instruction.rs (Option.some.inj hof)).symm
      have hjumps := hmade.jumps hp he hop (hrs' ▸ hrs)
      have ht : b ∈ m.targets env := by
        refine List.mem_append_right _ (List.mem_append_right _ ?_)
        rw [if_pos hjumps]
        exact hv
      obtain ⟨d, hd, hpl⟩ := h.lands (h.targets _ ht) ret
      obtain ⟨more, htab⟩ := findLabel_localJumptab env hjumps
      refine ⟨d, .head (hg.trans (by rw [jump, htab])) (Runs.of_step ?_), hpl⟩
      rw [step, lookup_labels, if_pos hv, Option.getD_some, jump, hd]
  | caller =>
    cases hf
    have hret := h.findLabel_return
    exact ⟨_, Runs.of_step (hg.trans (by rw [jump, hret])), .caller hret hra⟩

/-- An instruction that is no branch, and the slot behind it. -/
theorem LeafOf.step_plain (h : m.LeafOf base text env) (hs : m.slots env = before ++ e :: es)
    (hat : m.At env (e :: es) (lowerAll (m.pass1 env).regalloc (e.headCode env) ++ c))
    (hb : e.insn.isBranch = false)
    (hc : create e.insn.address word = some e.insn)
    {w₀ w : World σ} (hcar : m.Carries env size w₀ regs f l w)
    (hx : Arch.execute size word regs f = some (regs', f')) (rt : Runtime σ) (ret : Word) :
    regs'.get Reg.ra = regs.get Reg.ra ∧ ∃ d l' w',
      Runs rt (m.pass2 env) ⟨c, ⟨[], l, w⟩⟩ ⟨d, ⟨[], l', w'⟩⟩ ∧
        m.Carries env size w₀ regs' f' l' w' ∧ m.Placed env ret (e.insn.address + 4) d := by
  have he : e ∈ m.slots env := hs ▸ List.mem_append_right _ (List.mem_cons_self ..)
  have hi : e.insn ∈ m.insns env := mem_insns_slot.mpr ⟨e, he, List.mem_cons_self ..⟩
  have hnb : e.insn.opcode ∉ branchOpcodes := by
    intro ho
    rw [Instruction.isBranch_of_create hc ho] at hb
    cases hb
  obtain ⟨g, gs, rfl⟩ := h.more hs (fun ho => hnb (ho ▸ by decide)) (fun ho => hnb (ho ▸ by decide))
  have hfol := h.next hs
  have hdn : e.delayed = none := by
    cases hd : e.delayed with
    | none => rfl
    | some d =>
      have hd := e.attached (by rw [hd]; rfl)
      rw [Instruction.hasDelaySlot, hb] at hd
      cases hd
  obtain ⟨st, next, hcode, hnext⟩ := hat.next
  rw [Entry.pass2_lines, Instruction.pass2_of_not_branch hb, Entry.againCode, hdn,
    Bc.lowerAll_append, List.append_assoc] at hcode
  have hcode := List.append_cancel_left hcode
  have hlines : c = lowerAll (m.pass1 env).regalloc (e.insn.code env) ++ next := by
    rw [hcode]
    exact congrArg (lowerAll _ · ++ next) (List.append_nil _)
  have hsg : m.slots env = (before ++ [e]) ++ g :: gs := by
    rw [hs, List.append_assoc]
    rfl
  obtain ⟨d, hrun, hpl⟩ := h.enters hsg hnext (hfol.own hb) ret
  obtain ⟨hra, hperf⟩ := h.performs hi hc hb hcar hx rt
  obtain ⟨l', w', hr, hcar'⟩ := hperf next []
  refine ⟨hra, d, l', w', ?_, hcar', hfol.address ▸ hpl⟩
  rw [hlines]
  exact hr.trans (hrun rt _)

/-- The code of a branch, and the slot behind its delay slot where it may go on. -/
theorem LeafOf.branch_lines (h : m.LeafOf base text env)
    (hs : m.slots env = before ++ e :: es)
    (hat : m.At env (e :: es) (lowerAll (m.pass1 env).regalloc (e.headCode env) ++ c))
    (ho : e.insn.opcode ∈ branchOpcodes) (hc : create e.insn.address word = some e.insn)
    (hd : e.delayed = some d) : ∃ rest,
      c = lowerAll (m.pass1 env).regalloc (e.insn.branchOperands.map .pushregister) ++
        (lowerAll (m.pass1 env).regalloc (d.code env) ++ e.insn.branchItem :: rest) ∧
      (e.insn.opcode ≠ .j → e.insn.opcode ≠ .jr → ∃ g gs next,
        (∃ pre, m.slots env = pre ++ g :: gs) ∧ g.insn.kind ≠ .delaySlotNop ∧
          g.insn.address = e.insn.address + 8 ∧ m.At env (g :: gs) next ∧
          ∀ {σ : Type} (rt : Runtime σ) f, Runs rt (m.pass2 env) ⟨rest, f⟩ ⟨next, f⟩) := by
  have he : e ∈ m.slots env := hs ▸ List.mem_append_right _ (List.mem_cons_self ..)
  have hi : e.insn ∈ m.insns env := mem_insns_slot.mpr ⟨e, he, List.mem_cons_self ..⟩
  have hdb := h.delayed e he d hd
  have hb := Instruction.isBranch_of_create hc ho
  obtain ⟨hloc, -⟩ := Instruction.localBranch_of_create hc ho
  obtain ⟨array, hp, -, hm⟩ := h.array
  cases es with
  | nil =>
    obtain ⟨st, next, hcode, -⟩ := hat.next
    obtain ⟨again, hlines, -⟩ := Entry.pass2_branch hloc hd hdb (h.jump _ hi) st
    rw [hlines, Bc.lowerAll_append, List.append_assoc] at hcode
    have hcode := List.append_cancel_left hcode
    simp only [Bc.lowerAll_append, Bc.lowerAll_cons, Bc.lower, List.append_assoc,
      List.singleton_append] at hcode
    refine ⟨_, hcode, fun hj hr => ?_⟩
    obtain ⟨f, fs, hes⟩ := h.more hs hj hr
    cases hes
  | cons n es =>
    obtain ⟨hnop, -⟩ := (h.next hs).delayed hb
    obtain ⟨rest, next, hcode, hnext, hrest⟩ := hat.branch (hm.ownDelaySlots hp h.fits env) hloc hd
      hdb (h.jump _ hi) hnop
    refine ⟨rest, List.append_cancel_left hcode, fun hj hr => ?_⟩
    have hsn : m.slots env = (before ++ [e]) ++ n :: es := by
      rw [hs, List.append_assoc]
      rfl
    have hnb : n.insn.isBranch = false := by
      rw [Instruction.isBranch, hnop.1]
      rfl
    obtain ⟨g, gs, rfl⟩ := h.more hsn (fun hn => by rw [hnop.2] at hn; cases hn)
      (fun hn => by rw [hnop.2] at hn; cases hn)
    refine ⟨g, gs, next, ⟨before ++ [e, n], ?_⟩, (h.next hsn).own hnb, ?_, hnext, hrest⟩
    · rw [hs, List.append_assoc]
      rfl
    · rw [(h.next hsn).address, (h.next hs).address, BitVec.add_assoc]
      rfl

/-- A branch with the instruction in its delay slot, and where it goes. -/
theorem LeafOf.step_branch (h : m.LeafOf base text env)
    (hs : m.slots env = before ++ e :: es)
    (hat : m.At env (e :: es) (lowerAll (m.pass1 env).regalloc (e.headCode env) ++ c))
    (ho : e.insn.opcode ∈ branchOpcodes)
    (hc : create e.insn.address word = some e.insn) (hd : e.delayed = some d)
    (hcd : create d.address delayed = some d)
    {s : Arch.Machine} (hpc : e.insn.address = s.pc) (hra : s.regs.get Reg.ra = ret)
    {w₀ w : World σ} (hcar : m.Carries env size w₀ s.regs s.memory l w)
    (hx : Arch.execute size delayed s.regs s.memory = some (regs', f'))
    (hf : Arch.follow (env.jumptabLabels m) s
      (Arch.destination e.insn.opcode e.insn.address word s.regs) = some b) (rt : Runtime σ) :
    regs'.get Reg.ra = ret ∧ ∃ k l' w',
      Runs rt (m.pass2 env) ⟨c, ⟨[], l, w⟩⟩ ⟨k, ⟨[], l', w'⟩⟩ ∧
        m.Carries env size w₀ regs' f' l' w' ∧ m.Placed env ret b k := by
  have he : e ∈ m.slots env := hs ▸ List.mem_append_right _ (List.mem_cons_self ..)
  have hi : e.insn ∈ m.insns env := mem_insns_slot.mpr ⟨e, he, List.mem_cons_self ..⟩
  have hid : d ∈ m.insns env := mem_insns_slot.mpr ⟨e, he, by
    rw [Entry.insns, hd]
    exact List.mem_cons_of_mem _ (List.mem_singleton_self d)⟩
  have hdb := h.delayed e he d hd
  obtain ⟨array, hp, hmade, hm⟩ := h.array
  obtain ⟨-, hrs, hrt, -⟩ := Instruction.localBranch_of_create hc ho
  obtain ⟨rest, hcode, hon⟩ := h.branch_lines hs hat ho hc hd
  obtain ⟨regs₁, hl, hag⟩ := hcar.holds
  have hread : ∀ r ∈ e.insn.branchOperands, Readable (m.pass1 env).regalloc r := by
    intro r hr
    obtain ⟨hcase, hsrc⟩ := Instruction.mem_branchOperands hr env
    refine readable_of_counted hi hsrc ?_
    rcases hcase with rfl | rfl
    · exact hrs
    · exact hrt
  have hsame : ∀ r ∈ e.insn.branchOperands, s.regs.get r = regs₁.get r := by
    intro r hr
    obtain ⟨hcase, hsrc⟩ := Instruction.mem_branchOperands hr env
    refine (hag r ⟨fun hrra => ?_, fun hhi => ?_⟩).symm
    · have hop := h.ra _ hi (List.mem_append_right _ (hrra ▸ hsrc))
      have hkind : e.insn.kind = .jr := (hmade.jr hp he hop).1
      rw [Instruction.branchOperands, hkind] at hr
      dsimp only at hr
      split at hr
      · cases hr
      · next hne => exact hne ((List.mem_singleton.mp hr).symm.trans hrra)
    · obtain ⟨hrs, hrt⟩ := Instruction.branch_registers hc ho
      have hfield {x : Reg} (h0 : x = 0 ∨ ∃ sh, x = Arch.reg word sh) : x ≠ Reg.hi := by
        rintro rfl
        rcases h0 with h0 | ⟨sh, h0⟩
        · exact absurd h0 (by decide)
        · exact Arch.reg_ne_hi word sh h0.symm
      rcases hcase with rfl | rfl
      · exact absurd hhi (hfield (hrs.imp_right fun h => ⟨21, h⟩))
      · exact absurd hhi (hfield (hrt.imp_right fun h => ⟨16, h⟩))
  have hdest := Arch.destination_congr hc ho hsame
  obtain ⟨hkeep, hperf⟩ := h.performs hid hcd hdb hcar hx rt
  obtain ⟨l', w', hrun, hcar'⟩ :=
    hperf (e.insn.branchItem :: rest) (e.insn.operandStack regs₁)
  have hpush : exec rt _ _ = .ok _ := exec_pushregisters (w := w) (s := []) hl hread
  rw [List.append_nil] at hpush
  have hto := (Runs.of_exec hpush _).trans hrun
  rw [hcode]
  refine ⟨hkeep.trans hra, ?_⟩
  have hgo : GoesTo rt (m.pass2 env)
      ⟨e.insn.branchItem :: rest, ⟨e.insn.operandStack regs₁, l', w'⟩⟩ rest l' w' _ :=
      branchItem_goesTo hc ho
  rw [← hdest] at hgo
  by_cases hn : Arch.destination e.insn.opcode e.insn.address word s.regs = .next
  · rw [hn] at hgo hf
    cases hf
    obtain ⟨hnj, hnr⟩ := Arch.destination_next hn
    obtain ⟨g, gs, next, ⟨pre, hsg⟩, hkg, haddr, hnext, hrest⟩ := hon hnj hnr
    obtain ⟨k, hk, hpl⟩ := h.enters hsg hnext hkg ret
    refine ⟨k, l', w', ?_, hcar', hpc ▸ haddr ▸ hpl⟩
    exact ((hto.trans (Runs.of_step hgo)).trans (hrest rt _)).trans (hk rt _)
  · obtain ⟨k, hk, hpl⟩ := h.goes he hc ho hra rfl hf hn hgo
    exact ⟨k, l', w', hto.trans hk, hcar', hpl⟩

/-- One step of the processor inside the method is a run of its body. -/
theorem LeafOf.forward (h : m.LeafOf base text env) (rt : Runtime σ) (size : Nat) (ret : Word)
    (w₀ : World σ) :
    Simulation.Forward
      (fun s s' => s.pc ≠ ret ∧
        Arch.step size (Arch.fetch base text) (env.jumptabLabels m) s = some s')
      (fun c d => step rt (m.pass2 env) c = .run d) (m.Simulates env size ret w₀) := by
  intro s s' c hsim hstep
  obtain ⟨hne, hstep⟩ := hstep
  obtain ⟨code, stack, l, w⟩ := c
  obtain ⟨hstack, hcar, hra, hpl⟩ := hsim
  dsimp only at hstack hcar hpl
  subst hstack
  cases hpl with
  | caller _ ha => exact absurd ha hne
  | @slot before e es hs hat hk ha =>
    have he : e ∈ m.slots env := hs ▸ List.mem_append_right _ (List.mem_cons_self ..)
    have hi : e.insn ∈ m.insns env := mem_insns_slot.mpr ⟨e, he, List.mem_cons_self ..⟩
    obtain ⟨⟨word, hfetch, hc⟩, hdel⟩ := (h.fetched he).imp_left (· hk)
    rw [Arch.step, ← ha, hfetch, Option.bind_some] at hstep
    cases hb : e.insn.isBranch with
    | false =>
      rw [h.branchOpcode_none hi hc hb] at hstep
      obtain ⟨⟨regs', f'⟩, hx, rfl⟩ := Option.map_eq_some_iff.mp hstep
      obtain ⟨hkeep, d, l', w', hrun, hcar', hpl⟩ := h.step_plain hs hat hb hc hcar hx rt ret
      exact ⟨_, hrun, ⟨rfl, hcar', hkeep.trans hra, hpl⟩⟩
    | true =>
      have ho : e.insn.opcode ∈ branchOpcodes := by
        rcases h.plain_cases hi hc with ⟨ho, -⟩ | ⟨ho, -⟩ | ho
        · rw [Instruction.not_branch_of_create hc (List.mem_append_left _ ho)] at hb
          cases hb
        · rw [Instruction.not_branch_of_create hc (List.mem_append_right _ ho)] at hb
          cases hb
        · exact ho
      have hop : Arch.branchOpcode word = some e.insn.opcode := by
        have hne : ∀ o ∈ branchOpcodes,
            o ≠ .none ∧ o ≠ .cibylSyscall ∧ o ≠ .cibylRegisterArgument := by decide
        obtain ⟨hn, hs, hr⟩ := hne _ ho
        have hdec := (create_ofOpcode hc hn hs hr).1
        exact (decodeOpcode_branch (hdec ▸ ho)).trans (congrArg some hdec.symm)
      obtain ⟨d, hd⟩ := h.has_delayed hs hb
      obtain ⟨delayed, hfd, hcd⟩ := hdel d hd
      rw [h.delayed_address he hd] at hfd
      rw [hop] at hstep
      dsimp only at hstep
      rw [hfd, Option.bind_some] at hstep
      obtain ⟨⟨regs', f'⟩, hx, hstep⟩ := Option.bind_eq_some_iff.mp hstep
      obtain ⟨b, hf, rfl⟩ := Option.map_eq_some_iff.mp hstep
      obtain ⟨hkeep, k, l', w', hrun, hcar', hpl⟩ :=
        h.step_branch hs hat ho hc hd hcd ha hra hcar hx hf rt
      exact ⟨_, hrun, ⟨rfl, hcar', hkeep, hpl⟩⟩

end JavaMethod

end Cibyl
