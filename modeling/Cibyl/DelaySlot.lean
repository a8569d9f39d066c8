import Cibyl.Layout
import Cibyl.MemoryCorrect
import Cibyl.StackFrame

namespace Cibyl
set_option autoImplicit true

open InstructionFactory (create ofOpcode)
open Jvm (Item Label Value World Runtime Runs step jump findLabel exec Cond1 Cond2)
open Bc (lowerAll)

namespace Instruction

/-- The registers a branch pushes before its delay slot. -/
def branchOperands (insn : Instruction) : List Reg :=
  match insn.kind with
  | .jr => if insn.rs = Reg.ra then [] else [insn.rs]
  | .oneRegisterConditionalJump _ => [insn.rs]
  | .twoRegisterConditionalJump _ => [insn.rs, insn.rt]
  | _ => []

/-- The jump of a branch behind its delay slot. -/
def branchItem (insn : Instruction) : Item :=
  match insn.kind with
  | .jr => .goto (if insn.rs = Reg.ra then .functionReturn else .localJumptab)
  | .oneRegisterConditionalJump bc => .cond1 bc (.addr insn.dst)
  | .twoRegisterConditionalJump bc => .cond2 bc (.addr insn.dst)
  | _ => .goto (.addr (insn.extra <<< 2))

/-- The operands as they lie on the stack. -/
def operandStack (insn : Instruction) (regs : RegFile) : List Value :=
  (insn.branchOperands.map (fun r => .int (regs.get r))).reverse

/-- A branch within its method. -/
def LocalBranch (insn : Instruction) : Prop :=
  insn.kind = .jump ∨ insn.kind = .jr ∨ (∃ bc, insn.kind = .oneRegisterConditionalJump bc) ∨
    ∃ bc, insn.kind = .twoRegisterConditionalJump bc

theorem localBranch_of_create {a : Word} (hc : create a word = some insn)
    (ho : insn.opcode ∈ branchOpcodes) :
    insn.LocalBranch ∧ Reg.Ordinary insn.rs ∧ Reg.Ordinary insn.rt ∧
      (insn.kind = .jump → insn.opcode = .j) := by
  have hne : ∀ o ∈ branchOpcodes,
      o ≠ .none ∧ o ≠ .cibylSyscall ∧ o ≠ .cibylRegisterArgument := by decide
  obtain ⟨hn, hs, hr⟩ := hne _ ho
  obtain ⟨-, hof⟩ := create_ofOpcode hc hn hs hr
  have hrs := Arch.reg_ordinary word 21
  have hrt := Arch.reg_ordinary word 16
  have hz : Reg.Ordinary 0 := by decide
  simp only [branchOpcodes, List.mem_cons, List.not_mem_nil, or_false] at ho
  rcases ho with h | h | h | h | h | h | h | h <;> rw [h, ofOpcode] at hof
  case inl | inr.inl =>
    split at hof
    · cases hof
      exact ⟨.inr (.inr (.inl ⟨_, rfl⟩)), hrs, hz, fun h => by cases h⟩
    · cases hof
      exact ⟨.inr (.inr (.inr ⟨_, rfl⟩)), hrs, hrt, fun h => by cases h⟩
  case inr.inr.inr.inr.inr.inr.inl =>
    cases hof
    exact ⟨.inl rfl, hz, hz, fun _ => rfl⟩
  case inr.inr.inr.inr.inr.inr.inr =>
    cases hof
    exact ⟨.inr (.inl rfl), hrs, hz, fun h => by cases h⟩
  all_goals
    cases hof
    exact ⟨.inr (.inr (.inl ⟨_, rfl⟩)), hrs, hz, fun h => by cases h⟩

theorem mem_branchOperands {insn : Instruction} (h : r ∈ insn.branchOperands) (env : Env) :
    (r = insn.rs ∨ r = insn.rt) ∧ r ∈ insn.fillSources env := by
  rw [branchOperands] at h
  split at h
  · next hk =>
    split at h
    · cases h
    · rw [fillSources, hk]
      exact ⟨.inl (List.mem_singleton.mp h), h⟩
  · next hk =>
    rw [fillSources, hk]
    exact ⟨.inl (List.mem_singleton.mp h), h⟩
  · next hk =>
    rw [fillSources, hk]
    refine ⟨?_, h⟩
    rcases List.mem_cons.mp h with h | h
    · exact .inl h
    · exact .inr (List.mem_singleton.mp h)
  · cases h

/-- Every branch pushes its operands, runs its delay slot and jumps. -/
theorem LocalBranch.pass2 {insn : Instruction} (h : insn.LocalBranch)
    (hj : insn.kind = .jump → env.getBranchTarget (insn.extra <<< 2) = true)
    (delayed : Emission) (st : MethodState) : (insn.pass2 env delayed st).1 =
      insn.branchOperands.map .pushregister ++ ((delayed st).1 ++ [.item insn.branchItem]) := by
  rcases h with h | h | ⟨bc, h⟩ | ⟨bc, h⟩
  · rw [Instruction.pass2, branchOperands, branchItem, h]
    dsimp only
    rw [if_pos (hj h)]
    rfl
  · rw [Instruction.pass2, branchOperands, branchItem, h]
    dsimp only
    split <;> rfl
  · rw [Instruction.pass2, branchOperands, branchItem, h]
    rfl
  · rw [Instruction.pass2, branchOperands, branchItem, h]
    rfl

theorem pass2_of_not_branch {insn : Instruction} (h : insn.isBranch = false) (env : Env)
    (delayed : Emission) : insn.pass2 env delayed = .lines (insn.code env) := by
  rw [isBranch] at h
  rw [Instruction.pass2]
  cases hk : insn.kind <;> rw [hk] at h <;> first
    | rfl
    | cases h

end Instruction

/-- A step of `c` continues at `dest`, with `rest` behind the branch. -/
def GoesTo (rt : Runtime σ) (body : List Item) (c : Jvm.Config σ) (rest : List Item)
    (l : Nat → Value) (w : World σ) : Arch.Destination → Prop
  | .address a => step rt body c = jump body (.addr a) ⟨[], l, w⟩
  | .register v => step rt body c = jump body .localJumptab ⟨[.int v], l, w⟩
  | .caller => step rt body c = jump body .functionReturn ⟨[], l, w⟩
  | .next => step rt body c = .run ⟨rest, ⟨[], l, w⟩⟩

section

variable {rt : Runtime σ} {body rest : List Item} {l : Nat → Value} {w : World σ}
  {regs : RegFile} {insn : Instruction}

theorem goesTo_cond {word : Word} {holds : Bool} (hh : holds = decide (Arch.taken o word regs))
    (hc : step rt body c = if holds
      then jump body (.addr (Arch.branchTarget address word)) ⟨[], l, w⟩
      else .run ⟨rest, ⟨[], l, w⟩⟩) :
    GoesTo rt body c rest l w
      (if Arch.taken o word regs then .address (Arch.branchTarget address word) else .next) := by
  subst hh
  by_cases ht : Arch.taken o word regs
  · rw [if_pos (decide_eq_true ht)] at hc
    rw [if_pos ht]
    exact hc
  · rw [decide_eq_false ht] at hc
    rw [if_neg ht]
    exact hc

/-- A conditional branch that compares one register. -/
theorem cond1_goesTo {bc : Cond1} {word : Word} (hk : insn.kind = .oneRegisterConditionalJump bc)
    (hd : insn.dst = Arch.branchTarget address word)
    (hh : bc.holds (regs.get insn.rs) = decide (Arch.taken o word regs)) :
    GoesTo rt body ⟨insn.branchItem :: rest, ⟨insn.operandStack regs, l, w⟩⟩ rest l w
      (if Arch.taken o word regs then .address (Arch.branchTarget address word) else .next) := by
  refine goesTo_cond hh ?_
  rw [Instruction.operandStack, Instruction.branchOperands, Instruction.branchItem, hk, hd]
  rfl

theorem cond2_goesTo {bc : Cond2} {word : Word} (hk : insn.kind = .twoRegisterConditionalJump bc)
    (hd : insn.dst = Arch.branchTarget address word)
    (hh : bc.holds (regs.get insn.rs) (regs.get insn.rt) = decide (Arch.taken o word regs)) :
    GoesTo rt body ⟨insn.branchItem :: rest, ⟨insn.operandStack regs, l, w⟩⟩ rest l w
      (if Arch.taken o word regs then .address (Arch.branchTarget address word) else .next) := by
  refine goesTo_cond hh ?_
  rw [Instruction.operandStack, Instruction.branchOperands, Instruction.branchItem, hk, hd]
  rfl

/-- The jump of a branch goes where the architecture says, by the operands on the stack. -/
theorem branchItem_goesTo (hc : create address word = some insn)
    (ho : insn.opcode ∈ branchOpcodes) :
    GoesTo rt body ⟨insn.branchItem :: rest, ⟨insn.operandStack regs, l, w⟩⟩ rest l w
      (Arch.destination insn.opcode insn.address word regs) := by
  have hne : ∀ o ∈ branchOpcodes,
      o ≠ .none ∧ o ≠ .cibylSyscall ∧ o ≠ .cibylRegisterArgument := by decide
  obtain ⟨hn, hs, hr⟩ := hne _ ho
  obtain ⟨hop, hof⟩ := create_ofOpcode hc hn hs hr
  have hx (hj : insn.opcode ≠ .j) (hr : insn.opcode ≠ .jr) :
      InstructionFactory.decodeExtra word = (Arch.imm word).signExtend 32 :=
    decodeExtra_branch (hop ▸ ho) (hop ▸ hr) (hop ▸ hj)
  have hxj (h : insn.opcode = .j) :
      InstructionFactory.decodeExtra word = (word.extractLsb' 0 26).setWidth 32 :=
    decodeExtra_jump (hop.symm.trans h)
  rw [create_address hc]
  simp only [branchOpcodes, List.mem_cons, List.not_mem_nil, or_false] at ho
  rcases ho with h | h | h | h | h | h | h | h <;> rw [h] at hof hx hxj ⊢
  case inr.inr.inr.inr.inr.inr.inl =>
    rw [hxj rfl] at hof
    cases hof
    rfl
  case inr.inr.inr.inr.inr.inr.inr =>
    cases hof
    rw [Arch.destination, Instruction.operandStack, Instruction.branchOperands,
      Instruction.branchItem]
    dsimp only
    by_cases hra : Arch.rs word = Reg.ra
    · rw [if_pos hra, if_pos hra, if_pos hra]
      rfl
    · rw [if_neg hra, if_neg hra, if_neg hra]
      rfl
  all_goals rw [hx nofun nofun] at hof
  case inl =>
    rw [ofOpcode] at hof
    split at hof
    · next hz =>
      cases hof
      refine cond1_goesTo rfl rfl ?_
      change (_ == 0) = decide (regs.get (Arch.rs word) = regs.get (Arch.rt word))
      rw [hz, regs.get_zero]
      rfl
    · cases hof
      exact cond2_goesTo rfl rfl rfl
  case inr.inl =>
    rw [ofOpcode] at hof
    split at hof
    · next hz =>
      cases hof
      refine cond1_goesTo rfl rfl ?_
      change (_ != 0) = decide (regs.get (Arch.rs word) ≠ regs.get (Arch.rt word))
      rw [hz, regs.get_zero]
      exact decide_not.symm
    · cases hof
      exact cond2_goesTo rfl rfl decide_not.symm
  all_goals
    cases hof
    exact cond1_goesTo rfl rfl rfl

end

/-- What the code of an instruction does on its own, wherever it stands. The locals may come to
hold the return address of its subroutine. -/
def Performs (rt : Runtime σ) (body code : List Item) (l : Nat → Value) (w : World σ)
    (l' : List Item → Nat → Value) (w' : World σ) : Prop :=
  ∀ k, Runs rt body ⟨code ++ k, ⟨[], l, w⟩⟩ ⟨k, ⟨[], l' k, w'⟩⟩

/-- The code of an instruction raises an exception on its own. -/
def Raises (rt : Runtime σ) (body code : List Item) (l : Nat → Value) (w : World σ)
    (x : JavaException) (w' : World σ) : Prop :=
  ∀ k, ∃ c f, Runs rt body ⟨code ++ k, ⟨[], l, w⟩⟩ c ∧ step rt body c = .throw x f w'

/-- The run from `c` continues at `dest`, or at `next` where no branch is taken. -/
def Continues (rt : Runtime σ) (body : List Item) (c : Jvm.Config σ) (next : List Item)
    (l : Nat → Value) (w : World σ) : Arch.Destination → Prop
  | .next => Runs rt body c ⟨next, ⟨[], l, w⟩⟩
  | dest => ∃ d, Runs rt body c d ∧ GoesTo rt body d next l w dest

theorem exec_pushregisters {ra : RegisterAllocator} {rs : List Reg} {rt : Runtime σ}
    {l : Nat → Value} {w : World σ} {s : List Value}
    (hl : Holds ra regs l) (hr : ∀ r ∈ rs, Readable ra r) :
    exec rt (lowerAll ra (rs.map .pushregister)) ⟨s, l, w⟩ =
      .ok ⟨(rs.map (fun r => Value.int (regs.get r))).reverse ++ s, l, w⟩ := by
  induction rs generalizing s with
  | nil => rfl
  | cons r rs ih =>
    rw [List.map_cons, Bc.exec_pushregister hl (hr r (List.mem_cons_self ..)),
      ih (fun r h => hr r (List.mem_cons_of_mem _ h)), List.map_cons, List.reverse_cons,
      List.append_assoc]
    rfl

namespace Entry

theorem headCode_of_nop {n : Entry} (h : n.IsDelaySlotNop) (env : Env) : n.headCode env = [] := by
  obtain ⟨hk, -⟩ := h
  rw [headCode, hasLabel, traceCode, traced, hk]
  simp [Kind.isNop]

/-- The nop that a delay-slot instruction leaves behind emits nothing. -/
theorem pass2_nop {n : Entry} (h : n.IsDelaySlotNop) (env : Env) (st : MethodState) :
    (n.pass2 env st).1 = [] := by
  have hd : n.insn.hasDelaySlot = false := by
    rw [Instruction.hasDelaySlot, Instruction.isBranch, h.1]
    rfl
  have ha : n.againCode env = .nothing := by
    rw [againCode, hd]
    cases n.delayed <;> rfl
  rw [pass2_lines, headCode_of_nop h, ha, Instruction.pass2, h.1]
  dsimp only
  rw [Instruction.code, h.1]
  rfl

/-- The code of a branch: operands, delay slot, jump. -/
theorem pass2_branch {e : Entry} (hb : e.insn.LocalBranch) (hd : e.delayed = some d)
    (hdb : d.isBranch = false)
    (hj : e.insn.kind = .jump → env.getBranchTarget (e.insn.extra <<< 2) = true)
    (st : MethodState) : ∃ again, (e.pass2 env st).1 =
      e.headCode env ++ (e.insn.branchOperands.map .pushregister ++ (d.code env ++
        (.item e.insn.branchItem :: again))) ∧ (env.hasJumptabLabel d.address = true ∧
          again = .item (.goto (.out d.address)) :: again.tail ∨ again = []) := by
  refine ⟨(e.againCode env (e.insn.pass2 env (e.delayedPass2 env) st).2).1, ?_, ?_⟩
  · rw [pass2_lines, hb.pass2 hj, delayedPass2, hd]
    dsimp only
    rw [Instruction.pass2_of_not_branch hdb, List.append_assoc, List.append_assoc,
      List.singleton_append]
    rfl
  · have hs : e.insn.hasDelaySlot = true := e.attached (by rw [hd]; rfl)
    by_cases ht : env.hasJumptabLabel d.address = true
    · rw [againCode_lines hd hs ht]
      exact .inl ⟨ht, rfl⟩
    · right
      rw [againCode, hd]
      simp only [ht, Bool.and_false, Bool.false_eq_true, if_false]
      rfl

end Entry

namespace JavaMethod

/-- Where the slot of a branch and the nop behind it stand in the code, and what leads on. -/
theorem At.branch {m : JavaMethod} (h : m.At env (e :: n :: es) c) (hn : m.OwnDelaySlots env)
    (hb : e.insn.LocalBranch) (hd : e.delayed = some d) (hdb : d.isBranch = false)
    (hj : e.insn.kind = .jump → env.getBranchTarget (e.insn.extra <<< 2) = true)
    (hnop : n.IsDelaySlotNop) : ∃ rest next,
      c = lowerAll (m.pass1 env).regalloc (e.headCode env) ++
        (lowerAll (m.pass1 env).regalloc (e.insn.branchOperands.map .pushregister) ++
          (lowerAll (m.pass1 env).regalloc (d.code env) ++ e.insn.branchItem :: rest)) ∧
      m.At env es next ∧ ∀ {σ : Type} (rt : Runtime σ) f,
        Runs rt (m.pass2 env) ⟨rest, f⟩ ⟨next, f⟩ := by
  have hs : e.insn.hasDelaySlot = true := e.attached (by rw [hd]; rfl)
  obtain ⟨st, c', hc, hat, hfind⟩ : ∃ st c',
      c = lowerAll (m.pass1 env).regalloc (e.pass2 env st).1 ++ c' ∧ m.At env (n :: es) c' ∧
        (env.hasJumptabLabel d.address = true →
          findLabel (m.pass2 env) (.out d.address) = some c') := by
    by_cases ht : env.hasJumptabLabel d.address = true
    · obtain ⟨st, c', hc, hat, hf⟩ := h.findLabel_out hn hd hs ht
      exact ⟨st, c', hc, hat, fun _ => hf⟩
    · obtain ⟨st, c', hc, hat⟩ := h.next
      exact ⟨st, c', hc, hat, fun h => absurd h ht⟩
  obtain ⟨st', next, hn', hnext⟩ := hat.next
  rw [Entry.pass2_nop hnop, Bc.lowerAll_nil, List.nil_append] at hn'
  subst hn'
  obtain ⟨again, hp, ha⟩ := Entry.pass2_branch hb hd hdb hj st
  rw [hp] at hc
  simp only [Bc.lowerAll_append, Bc.lowerAll_cons, Bc.lower, List.append_assoc,
    List.singleton_append] at hc
  refine ⟨_, c', hc, hnext, ?_⟩
  intro σ rt f
  rcases ha with ⟨ht, ha⟩ | ha
  · rw [ha]
    exact Runs.goto (hfind ht) _ f
  · rw [ha]
    exact .refl _

end JavaMethod

section

variable {rt : Runtime σ} {body : List Item} {insn : Instruction} {regs : RegFile}
  {ra : RegisterAllocator} {l : Nat → Value} {w : World σ}

/-- The operands a branch pushes stay below what its delay slot does. -/
theorem runs_delayed (hl : Holds ra regs l) (hr : ∀ r ∈ insn.branchOperands, Readable ra r)
    (h : Runs rt body ⟨code ++ k, ⟨[], l, w⟩⟩ c) :
    Runs rt body ⟨lowerAll ra (insn.branchOperands.map .pushregister) ++ (code ++ k), ⟨[], l, w⟩⟩
      (c.below (insn.operandStack regs)) := by
  have hp : exec rt _ _ = .ok _ := exec_pushregisters (w := w) (s := []) hl hr
  rw [List.append_nil] at hp
  exact (Runs.of_exec hp _).trans (h.below (insn.operandStack regs))

theorem continues_of_goesTo {next rest : List Item} (h : Runs rt body c d)
    (hg : GoesTo rt body d rest l w dest)
    (hn : Runs rt body ⟨rest, ⟨[], l, w⟩⟩ ⟨next, ⟨[], l, w⟩⟩) :
    Continues rt body c next l w dest := by
  cases dest with
  | next => exact h.trans (.head hg hn)
  | _ => exact ⟨d, h, hg⟩

end

/-- A branch of a method reads its operands before its delay slot, performs the delay slot once
and then continues where the architecture says. -/
theorem delay_slot_order {m : JavaMethod} {array : List Entry}
    (hp : Controller.pass0 base text = some array) (hlen : 4 * text.length ≤ 2 ^ 32)
    (hm : m.Of array) (hf : m.functions = fs₁ ++ fn :: fs₂)
    (he : fn.pass1 env = es₁ ++ e :: n :: es) (ho : e.insn.opcode ∈ branchOpcodes)
    (hd : e.delayed = some d) (hdb : d.isBranch = false)
    (hj : e.insn.opcode = .j → env.getBranchTarget (e.insn.extra <<< 2) = true) :
    ∃ word ∈ text, Arch.branchOpcode word = some e.insn.opcode ∧
      (∃ word' ∈ text, create d.address word' = some d) ∧
      (∀ f ∈ es.head?, f.insn.address = e.insn.address + 8) ∧
      ∃ c next k, m.At env (e :: n :: es)
          (lowerAll (m.pass1 env).regalloc (e.headCode env) ++ c) ∧ m.At env es next ∧
        ∀ (rt : Runtime σ) (regs : RegFile) (l : Nat → Value) (w w' : World σ),
          Holds (m.pass1 env).regalloc regs l →
          (∀ l', Performs rt (m.pass2 env)
            (lowerAll (m.pass1 env).regalloc (d.code env)) l w l' w' →
            Continues rt (m.pass2 env) ⟨c, ⟨[], l, w⟩⟩ next (l' k) w'
              (Arch.destination e.insn.opcode e.insn.address word regs)) ∧
          ∀ x, Raises rt (m.pass2 env) (lowerAll (m.pass1 env).regalloc (d.code env)) l w x w' →
            ∃ g f, Runs rt (m.pass2 env) ⟨c, ⟨[], l, w⟩⟩ g ∧
              step rt (m.pass2 env) g = .throw x f w' := by
  have hne : ∀ o ∈ branchOpcodes, o ≠ .jal ∧ o ≠ .none ∧ o ≠ .cibylSyscall ∧
      o ≠ .cibylRegisterArgument := by decide
  obtain ⟨hjal, hnone, hsys, harg⟩ := hne _ ho
  have hs : e.insn.isBranch = true := e.attached (by rw [hd]; rfl)
  have hfn : fn ∈ m.functions := hf ▸ List.mem_append_right _ (List.mem_cons_self ..)
  obtain ⟨hmem, hnop, hnext⟩ := hm.branch hp hfn he hs hjal hnone
  obtain ⟨hcreate, hdelay⟩ := Controller.mem_pass0 hp hmem
  obtain ⟨word, hw, hc⟩ := hcreate.resolve_right (fun h => hnone h.2)
  obtain ⟨hdec, -⟩ := create_ofOpcode hc hnone hsys harg
  obtain ⟨hb, hrs, hrt, hjump⟩ := Instruction.localBranch_of_create hc ho
  have hop : Arch.branchOpcode word = some e.insn.opcode :=
    hdec ▸ decodeOpcode_branch (hdec ▸ ho)
  have hi : e.insn ∈ m.insns env := by
    rw [JavaMethod.insns, hf, List.flatMap_append, List.flatMap_cons, he]
    simp [Entry.insns]
  have hr : ∀ r ∈ e.insn.branchOperands, Readable (m.pass1 env).regalloc r := by
    intro r hr
    obtain ⟨h, hsrc⟩ := Instruction.mem_branchOperands hr env
    refine readable_of_counted hi hsrc ?_
    rcases h with rfl | rfl
    · exact hrs
    · exact hrt
  obtain ⟨c₀, hat⟩ := JavaMethod.exists_at hf he
  obtain ⟨rest, next, hc₀, hatn, hrest⟩ := hat.branch (hm.ownDelaySlots hp hlen env) hb hd hdb
    (fun hk => hj (hjump hk)) hnop
  refine ⟨word, hw, hop, hdelay d hd, hnext, _, next, e.insn.branchItem :: rest,
    hc₀ ▸ hat, hatn, ?_⟩
  intro rt regs l w w' hl
  constructor
  · intro l' h
    exact continues_of_goesTo (runs_delayed hl hr (h _)) (branchItem_goesTo hc ho) (hrest rt _)
  · intro x h
    obtain ⟨g, f, hg, hx⟩ := h (e.insn.branchItem :: rest)
    exact ⟨_, _, runs_delayed hl hr hg, Jvm.step_below_throw hx _⟩

/-- Straight-line code performs what it computes. -/
theorem Performs.of_exec {rt : Runtime σ} (h : exec rt code ⟨[], l, w⟩ = .ok ⟨[], l', w'⟩)
    (body : List Item) : Performs rt body code l w (fun _ => l') w' :=
  fun k => .of_exec h k

theorem Raises.of_exec {rt : Runtime σ} (h : exec rt code ⟨[], l, w⟩ = .throw x w')
    (body : List Item) : Raises rt body code l w x w' := by
  intro k
  obtain ⟨c, hr, hs⟩ := Runs.of_throw body h k
  exact ⟨c, _, hr, hs⟩

/-- `beq $a0, $a1, 0x100c`, with `delayed` in its delay slot, and then `nop`, `jr $ra`, `nop`. -/
def beqText (delayed : Word) : List Word := [0x10850002, delayed, 0, 0x03e00008, 0]

def beqInsns (delayed : Instruction) : List Instruction :=
  [⟨.twoRegisterConditionalJump .if_icmpeq, 0x1000, .beq, Reg.a0, Reg.a1, 0, 2⟩, delayed,
    ⟨.shiftInstruction .ishl, 0x1008, .sll, 0, 0, 0, 0⟩, ⟨.jr, 0x100c, .jr, Reg.ra, 0, 0, 0⟩,
    ⟨.shiftInstruction .ishl, 0x1010, .sll, 0, 0, 0, 0⟩]

def beqMethod (delayed : Instruction) : JavaMethod where
  functions :=
    match h : attachDelaySlots (beqInsns delayed) with
    | [] => [⟨"f", false, 0, [], [], false, nofun⟩]
    | e :: es => [Function.create "f" false e es (h ▸ attachDelaySlots_attached _)]
  nonempty := by
    split <;> exact List.cons_ne_nil _ _

/-- `addiu $a0, $a0, 1`. -/
def addiuInsn : Instruction := ⟨.addi, 0x1004, .addiu, Reg.a0, Reg.a0, Reg.zero, 1⟩

def beqEnv (delayed : Instruction) : Env where
  __ := Env.single {} (beqMethod delayed)
  isBranchTarget a := a == 0x100c

theorem beqMethod_of (h : (beqMethod delayed).functions.flatMap Function.entries =
    attachDelaySlots (beqInsns delayed)) :
    (beqMethod delayed).Of (attachDelaySlots (beqInsns delayed)) := by
  refine ⟨fun fn hf => ?_, h ▸ List.Subperm.refl _⟩
  obtain ⟨fs₁, fs₂, hs⟩ := List.append_of_mem hf
  rw [← h, hs, List.flatMap_append, List.flatMap_cons]
  exact ⟨_, _, List.append_assoc _ _ _⟩

def equalRegs : RegFile := ⟨fun r => if r = Reg.a0 ∨ r = Reg.a1 then 5 else 0, rfl⟩

/-- The branch is taken though its delay slot makes the operands differ. -/
theorem delay_slot_order_beq : ∃ c next l',
    (beqMethod addiuInsn).At (beqEnv addiuInsn) (attachDelaySlots (beqInsns addiuInsn)) c ∧
    Continues Runtime.absent ((beqMethod addiuInsn).pass2 (beqEnv addiuInsn))
      ⟨c, ⟨[], localsFor ((beqMethod addiuInsn).pass1 (beqEnv addiuInsn)).regalloc equalRegs,
        ⟨⟨[], by decide⟩, 0, ()⟩⟩⟩ next l' ⟨⟨[], by decide⟩, 0, ()⟩ (.address 0x100c) := by
  have hp : Controller.pass0 0x1000 (beqText 0x24840001) =
      some (attachDelaySlots (beqInsns addiuInsn)) := by decide
  have hm : (beqMethod addiuInsn).Of (attachDelaySlots (beqInsns addiuInsn)) :=
    beqMethod_of (by decide)
  have hf : (beqMethod addiuInsn).functions =
      [] ++ (beqMethod addiuInsn).functions.head (beqMethod addiuInsn).nonempty :: [] := rfl
  have he : ((beqMethod addiuInsn).functions.head (beqMethod addiuInsn).nonempty).pass1
      (beqEnv addiuInsn) = [] ++ attachDelaySlots (beqInsns addiuInsn) := rfl
  obtain ⟨word, hw, hop, -, -, c, next, k, hat, -, h⟩ :=
    delay_slot_order hp (by decide) hm hf he (by decide) rfl rfl nofun
  have hword : word = 0x10850002 := by
    simp only [beqText, List.mem_cons, List.not_mem_nil, or_false] at hw
    rcases hw with rfl | rfl | rfl | rfl | rfl <;> first
      | rfl
      | exact absurd hop (by decide)
  subst hword
  have hi : addiuInsn ∈ (beqMethod addiuInsn).insns (beqEnv addiuInsn) := by decide
  obtain ⟨i, hi⟩ := Option.isSome_iff_exists.mp
    (JavaMethod.counted hi (r := Reg.a0) (.inl (by decide)) (by decide))
  have hl := holds_localsFor ((beqMethod addiuInsn).pass1 (beqEnv addiuInsn)).regalloc equalRegs
  have hx : exec Runtime.absent _ _ = exec Runtime.absent _ _ :=
    Bc.exec_iinc (s := []) (w := ⟨⟨[], by decide⟩, 0, ()⟩) hl hi (by decide) 1 []
  exact ⟨c, next, _, hat, (h Runtime.absent equalRegs _ _ _ hl).1 _ (.of_exec hx _)⟩

/-- The word that passes `$a2` to a syscall. -/
def argumentInsn : Instruction :=
  ⟨.syscallRegisterArgument, 0x1004, .cibylRegisterArgument, 0, 0, 0, 6⟩

/-- `$a0` differs from `$a1`, which is `$a2`. -/
def argumentRegs : RegFile :=
  ⟨fun r => if r = Reg.a0 then 1 else if r = Reg.a1 ∨ r = Reg.a2 then 2 else 0, rfl⟩

/-- With an argument of a syscall in its delay slot a branch compares the wrong registers. -/
theorem argument_in_delay_slot :
    Controller.pass0 0x1000 (beqText 0xfefe0006) =
      some (attachDelaySlots (beqInsns argumentInsn)) ∧
    Arch.destination .beq 0x1000 0x10850002 argumentRegs = .next ∧
    ∃ c l, (beqMethod argumentInsn).At (beqEnv argumentInsn)
        (attachDelaySlots (beqInsns argumentInsn)) c ∧
      Holds ((beqMethod argumentInsn).pass1 (beqEnv argumentInsn)).regalloc argumentRegs l ∧
      ∀ w, ∃ d, Runs Runtime.absent ((beqMethod argumentInsn).pass2 (beqEnv argumentInsn))
          ⟨c, ⟨[], l, w⟩⟩ d ∧
        step Runtime.absent ((beqMethod argumentInsn).pass2 (beqEnv argumentInsn)) d =
          jump ((beqMethod argumentInsn).pass2 (beqEnv argumentInsn)) (.addr 0x100c)
            ⟨[.int 1], l, w⟩ := by
  have hp : Controller.pass0 0x1000 (beqText 0xfefe0006) =
      some (attachDelaySlots (beqInsns argumentInsn)) := by decide
  have hm : (beqMethod argumentInsn).Of (attachDelaySlots (beqInsns argumentInsn)) :=
    beqMethod_of (by decide)
  have hf : (beqMethod argumentInsn).functions =
      [] ++ (beqMethod argumentInsn).functions.head (beqMethod argumentInsn).nonempty :: [] := rfl
  have he : ((beqMethod argumentInsn).functions.head (beqMethod argumentInsn).nonempty).pass1
      (beqEnv argumentInsn) = [] ++ attachDelaySlots (beqInsns argumentInsn) := rfl
  refine ⟨hp, by decide, ?_⟩
  obtain ⟨c, hat⟩ := JavaMethod.exists_at hf he
  have hcode := hat.branch (hm.ownDelaySlots hp (by decide) _) (.inr (.inr (.inr ⟨_, rfl⟩))) rfl rfl
    nofun ⟨rfl, rfl⟩
  obtain ⟨rest, next, hc, -, -⟩ := hcode
  have hl := holds_localsFor ((beqMethod argumentInsn).pass1 (beqEnv argumentInsn)).regalloc
    argumentRegs
  have hr : ∀ r ∈ [Reg.a0, Reg.a1, Reg.a2],
      Readable ((beqMethod argumentInsn).pass1 (beqEnv argumentInsn)).regalloc r := by
    intro r hr
    have ho : Reg.Ordinary r ∧ r ≠ Reg.zero := by
      revert r
      decide
    refine ⟨.inr ?_, ho.1⟩
    rcases List.mem_cons.mp hr with rfl | hr
    · exact JavaMethod.counted (i := (beqInsns argumentInsn).head (by decide)) (by decide)
        (.inr (by decide)) ho.2
    · rcases List.mem_cons.mp hr with rfl | hr
      · exact JavaMethod.counted (i := (beqInsns argumentInsn).head (by decide)) (by decide)
          (.inr (by decide)) ho.2
      · cases List.mem_singleton.mp hr
        exact JavaMethod.counted (i := argumentInsn) (by decide) (.inr (by decide)) ho.2
  refine ⟨c, _, hat, hl, fun w => ?_⟩
  have hx : exec Runtime.absent _ _ = .ok _ := exec_pushregisters (w := w) (s := []) hl hr
  have hsplit : c = lowerAll ((beqMethod argumentInsn).pass1 (beqEnv argumentInsn)).regalloc
      ([Reg.a0, Reg.a1, Reg.a2].map .pushregister) ++
        .cond2 .if_icmpeq (.addr 0x100c) :: rest := hc
  rw [hsplit]
  exact ⟨_, .of_exec hx _, rfl⟩

end Cibyl
