import Cibyl.CallTableCode
import Cibyl.DelaySlot
import Cibyl.LongBuiltins

namespace Cibyl
set_option autoImplicit true

open InstructionFactory (create ofOpcode createTailCallJump decodeOpcode decodeExtra opEntry
  bcondOpcode)
open Jvm (Value World Runtime External Item Op exec findLabel popArgs)
open Bc (lowerAll)
open RegisterAllocator (initialRegisters)

/-- Where a call goes; it goes nowhere if it is not taken. -/
def Arch.callTarget (o : Opcode) (address word : Word) (regs : RegFile) : Option Word :=
  match o with
  | .jal | .j => some (jumpTarget word)
  | .jalr => some (regs.get (rs word))
  | .bgezal =>
    if 0 ≤ (regs.get (rs word)).toInt then some (branchTarget address word) else none
  | _ => none

/-- The calls that `pass1` leaves: those decoded as such and the `j`s to other methods. -/
inductive CallOf (env : Env) (address word : Word) : Instruction → Prop where
  | call : create address word = some i →
      i.opcode = .jal ∨ i.opcode = .jalr ∨ i.opcode = .bgezal → CallOf env address word i
  | tailCall : create address word = some j → j.opcode = .j →
      env.getMethodByAddress address ≠ env.getMethodByAddress (j.extra <<< 2) →
      CallOf env address word (createTailCallJump address j.extra)

/-- How each call is compiled. -/
inductive CallShape (env : Env) (word : Word) (i : Instruction) : Prop where
  | jal (kind : i.kind = .jal) (opcode : i.opcode = .jal)
      (extra : i.extra <<< 2 = Arch.jumpTarget word)
  | tailCall (kind : i.kind = .jalReturn) (opcode : i.opcode = .jal)
      (extra : i.extra <<< 2 = Arch.jumpTarget word) (other : i.method env ≠ i.dstMethod env)
  | jalr (kind : i.kind = .jalr) (opcode : i.opcode = .jalr) (rs : i.rs = Arch.rs word)
  | bgezal (kind : i.kind = .jal) (opcode : i.opcode = .bgezal)

theorem op_entries_jal : ∀ i < 64, (mipsOpEntries.getD i (.res, .ifmt)).1 = .jal →
    (mipsOpEntries.getD i (.res, .ifmt)).2 = .jfmt := by
  decide

theorem special_table_not_jal : ∀ i < 64, mipsSpecialTable.getD i .res ≠ .jal := by decide

theorem cop1_table_not_jal : ∀ i < 64, mipsCop1Table.getD i .res ≠ .jal := by decide

theorem decodeExtra_jal (h : decodeOpcode word = .jal) :
    decodeExtra word = (word.extractLsb' 0 26).setWidth 32 := by
  have hl := Lanes.shift_mask 26 word 0
  rw [BitVec.ushiftRight_zero] at hl
  have hf : (opEntry word).2 = .jfmt := by
    have ho := op_entries_jal (Arch.op word) (op_lt word)
    rw [decodeOpcode] at h
    split at h
    · exact absurd h (special_table_not_jal _ (funct_eq word ▸ funct_lt word))
    · rw [bcondOpcode] at h
      repeat' split at h
      all_goals cases h
    · exact absurd h (cop1_table_not_jal _ (funct_eq word ▸ funct_lt word))
    · rw [opEntry_eq] at h ⊢
      exact ho h
  rw [decodeExtra]
  generalize opEntry word = e at hf ⊢
  obtain ⟨o, f⟩ := e
  cases hf
  exact hl

theorem CallOf.shape (h : CallOf env address word i) :
    i.address = address ∧ CallShape env word i := by
  cases h with
  | call hc ho =>
    refine ⟨create_address hc, ?_⟩
    have hne : i.opcode ≠ .none ∧ i.opcode ≠ .cibylSyscall ∧ i.opcode ≠ .cibylRegisterArgument := by
      rcases ho with ho | ho | ho <;> rw [ho] <;> decide
    obtain ⟨hop, hof⟩ := create_ofOpcode hc hne.1 hne.2.1 hne.2.2
    rcases ho with ho | ho | ho <;> rw [ho, ofOpcode] at hof
    · cases hof
      refine .jal rfl rfl ?_
      rw [decodeExtra_jal hop.symm]
      rfl
    · cases hof
      exact .jalr rfl rfl rfl
    · cases hof
      exact .bgezal rfl rfl
  | @tailCall j hc ho hm =>
    obtain ⟨hop, hof⟩ := create_ofOpcode hc (by rw [ho]; decide) (by rw [ho]; decide)
      (by rw [ho]; decide)
    refine ⟨rfl, .tailCall rfl rfl ?_ hm⟩
    rw [ho, ofOpcode] at hof
    cases hof
    change decodeExtra word <<< 2 = _
    rw [decodeExtra_jump hop.symm]
    rfl

theorem CallShape.kind {i : Instruction} (h : CallShape env word i) :
    i.kind = .jal ∨ i.kind = .jalr ∨ i.kind = .jalReturn := by
  cases h with
  | jal hk => exact .inl hk
  | tailCall hk => exact .inr (.inr hk)
  | jalr hk => exact .inr (.inl hk)
  | bgezal hk => exact .inl hk

theorem create_call (hc : create address word = some i) :
    (i.kind = .jal → i.opcode = .jal ∨ i.opcode = .bgezal) ∧
      (i.kind = .jalr → i.opcode = .jalr) ∧ i.kind ≠ .jalReturn := by
  rw [create] at hc
  split at hc
  · cases hc
    exact ⟨fun h => (by cases h), fun h => (by cases h), fun h => by cases h⟩
  · split at hc
    · cases hc
      exact ⟨fun h => (by cases h), fun h => (by cases h), fun h => by cases h⟩
    · split at hc
      · cases hc
        exact ⟨fun h => (by cases h), fun h => (by cases h), fun h => by cases h⟩
      · generalize decodeOpcode word = o at hc
        cases o
        case fadd | fsub | fmul | fdiv | cUle =>
          cases hc
          dsimp only
          split <;> simp
        all_goals first
          | cases hc; done
          | (cases hc; simp [InstructionFactory.createNop])
          | (rw [ofOpcode] at hc; split at hc <;> cases hc <;> simp)

/-- The calls of a method of the program come from its words. -/
theorem JavaMethod.Made.call {m : JavaMethod} (hm : m.Made array)
    (hp : Controller.pass0 base text = some array) (he : e ∈ m.slots env)
    (hk : e.insn.kind = .jal ∨ e.insn.kind = .jalr ∨ e.insn.kind = .jalReturn) :
    ∃ word ∈ text, CallOf env e.insn.address word e.insn := by
  obtain ⟨ha, hm⟩ := hm
  obtain ⟨fn, hfn, he⟩ := List.mem_flatMap.mp he
  obtain ⟨bb, hbb, he⟩ := List.mem_flatMap.mp he
  obtain ⟨n, start, a, b, hs⟩ := hm fn hfn
  have hnop : ¬ ∃ a, e = .single (InstructionFactory.createNop a) := by
    rintro ⟨a, rfl⟩
    rcases hk with hk | hk | hk <;> cases hk
  obtain ⟨f, hf, rfl⟩ :=
    List.mem_map.mp ((BasicBlock.mem_pruneStackStores he).resolve_right hnop)
  have hfa : f ∈ array := by
    have hfe : f ∈ fn.entries := List.mem_flatMap.mpr ⟨bb, hbb, hf⟩
    rw [(Function.ofSymbol_slots hs).1] at hfe
    exact List.mem_of_mem_drop (List.mem_of_mem_take hfe)
  obtain ⟨hw, -⟩ := Controller.mem_pass0 hp hfa
  rw [Entry.replaceTailCall] at hk ⊢
  split
  · next h =>
    rcases hw with ⟨word, hw, hc⟩ | ⟨-, hn⟩
    · exact ⟨word, hw, .tailCall hc h.1 h.2⟩
    · rw [hn] at h
      cases h.1
  · next h =>
    rw [if_neg h] at hk
    rcases hw with ⟨word, hw, hc⟩ | ⟨hn, -⟩
    · obtain ⟨h₁, h₂, h₃⟩ := create_call hc
      refine ⟨word, hw, .call hc ?_⟩
      rcases hk with hk | hk | hk
      · exact (h₁ hk).imp_right .inr
      · exact .inr (.inl (h₂ hk))
      · exact absurd hk h₃
    · rw [hn] at hk
      rcases hk with hk | hk | hk <;> cases hk

namespace Instruction

/-- What a call pushes before its delay slot. -/
def callOperands (i : Instruction) : List Reg := if i.kind = .jalr then [i.rs] else []

def callStack (i : Instruction) (regs : RegFile) : List Value :=
  if i.kind = .jalr then [.int (regs.get i.rs)] else []

/-- What follows a call that takes the place of a jump. -/
def backCode (i : Instruction) : List Bc :=
  if i.kind = .jalReturn then [.item (.goto .functionReturn)] else []

/-- A call emits its operand, its delay slot and then the call itself. -/
theorem pass2_call {i : Instruction} (h : i.kind = .jal ∨ i.kind = .jalr ∨ i.kind = .jalReturn)
    (env : Env) (delayed : Emission) (st : MethodState) : i.pass2 env delayed st =
      (i.callOperands.map .pushregister ++ ((delayed st).1 ++
        ((i.jalCode env (delayed st).2).1 ++ i.backCode)), (i.jalCode env (delayed st).2).2) := by
  rcases h with h | h | h <;> rw [pass2, callOperands, backCode, h] <;>
    simp [Emission.seq, Emission.lines]

end Instruction

/-- The registers of the callee are those of the caller, and the others are as before. -/
structure Leaves (ra callee : RegisterAllocator) (x : Return σ) (l l' : Nat → Value) : Prop where
  v0 : callee.regIsAllocated Reg.v0 = true → Reads ra l' Reg.v0 x.v0
  v1 : callee.regIsAllocated Reg.v1 = true → Reads ra l' Reg.v1 x.v1
  kept : ∀ r n, ra.regToLocal r = some n → r ≠ Reg.v0 → r ≠ Reg.v1 → l' n = l n

/-- What a call finds at run time: a `jalr` finds the call table, the others the methods. -/
def Provides (env : Env) (fns : List Function) (unknown : JavaException) (i : Instruction)
    (methods rt : Runtime σ) : Prop :=
  if i.kind = .jalr then
    rt.call (CallTableMethod.external env) = CallTableMethod.call env fns unknown methods
  else rt = methods

/-- The code calls the function `idx` of `m` with the registers behind the delay slot, and leaves
what the function returns. -/
def Invokes (w : World σ) (env : Env) (fns : List Function) (unknown : JavaException)
    (ra : RegisterAllocator) (i : Instruction) (m : JavaMethod) (idx : Nat) (body : List Bc)
    (regs : RegFile) : Prop :=
  ∀ (methods rt : Runtime σ) (regs' : RegFile) (l : Nat → Value) (x : Return σ), Holds ra regs' l →
    Provides env fns unknown i methods rt →
    methods.call (m.external env) ((m.pass1 env).registersToPass.map (passedValue regs' idx)) w =
      (.ok (x.values env (m.pass1 env)), x.left env (m.pass1 env)) →
    ∃ l', exec rt (lowerAll ra body) ⟨i.callStack regs, l, w⟩ =
        .ok ⟨[], l', x.left env (m.pass1 env)⟩ ∧ Leaves ra (m.pass1 env).regalloc x l l'

/-- The code goes to a function of its own method, with the place to come back to in RA. -/
def GoesToOwn (w : World σ) (env : Env) (caller : JavaMethod) (i : Instruction) (addr : Word)
    (body : List Bc) (st : MethodState) : Prop :=
  (∃ c, findLabel (caller.pass2 env) (.addr addr) = some c) ∧
    ∃ set k, body = set ++ [.item (.goto (.addr addr))] ∧
      st.returnLocations[k]? = some (i.address + 8) ∧
      ∀ (rt : Runtime σ) l, exec rt (lowerAll (caller.pass1 env).regalloc set) ⟨[], l, w⟩ =
        .ok ⟨[], writeLocals (caller.pass1 env).regalloc l [(Reg.ra, BitVec.ofNat 32 k)], w⟩

/-- A call runs its delay slot once and then calls the function at the architecture's target, if
there is one; a call that is not taken only runs the delay slot. -/
def CallReaches (w : World σ) (env : Env) (fns : List Function) (unknown : JavaException)
    (caller : JavaMethod) (i : Instruction) (delayed : Emission) (st : MethodState) (word : Word)
    (regs : RegFile) : Prop :=
  ∃ body st', i.pass2 env delayed st = (i.callOperands.map .pushregister ++
      ((delayed st).1 ++ (body ++ i.backCode)), st') ∧
    match Arch.callTarget i.opcode i.address word regs with
    | none => ∀ (rt : Runtime σ) regs' l, Holds (caller.pass1 env).regalloc regs' l →
        exec rt (lowerAll (caller.pass1 env).regalloc body) ⟨i.callStack regs, l, w⟩ =
          .ok ⟨[], l, w⟩
    | some addr => ∀ m idx, FunctionAt env addr m idx →
        if i.opcode = .jal ∧ i.callsOwnMethod env = true then
          GoesToOwn w env caller i addr body st'
        else Invokes w env fns unknown (caller.pass1 env).regalloc i m idx body regs

/-- The method hands back all it has of V0 and V1. -/
def ReturnsBoth (env : Env) (p : MethodPass1) : Prop :=
  (p.regalloc.regIsAllocated Reg.v0 = true → 1 ≤ p.returnSize) ∧
    (p.regalloc.regIsAllocated Reg.v1 = true →
      p.returnSize = 2 ∧ env.config.threadSafe = false)

/-- The lookups find the function at another address too. -/
def SameFunction (env : Env) (addr : Word) (m : JavaMethod) (idx : Nat) : Prop :=
  env.getMethodByAddress addr = some m ∧ (Reg.fna ∈ (m.pass1 env).registersToPass →
    ∃ j, m.getFunctionIndexByAddress addr = some j ∧ BitVec.ofNat 32 j = BitVec.ofNat 32 idx)

/-- The call is taken; a `jalr` goes to a function of the call table, the others to one that is not
inlined, a `bgezal` to one that it also finds at four times its displacement; and the callee hands
back all it has of V0 and V1, unless the two share their registers. -/
def CallMeets (env : Env) (fns : List Function) (i : Instruction) (word : Word) (regs : RegFile) :
    Prop :=
  ∃ addr, Arch.callTarget i.opcode i.address word regs = some addr ∧
    ∀ m idx, FunctionAt env addr m idx →
      if i.kind = .jalr then (∃ fn ∈ fns, fn.address = addr) ∧ ReturnsBoth env (m.pass1 env)
      else i.builtin env = none ∧
        (i.opcode = .bgezal → SameFunction env (i.extra <<< 2) m idx) ∧
        (i.opcode = .jal ∧ i.callsOwnMethod env = true ∨ ReturnsBoth env (m.pass1 env))

section

variable {ra : RegisterAllocator} {rt : Runtime σ} {l : Nat → Value} {w : World σ}

theorem exec_invoke {bs cs : List Bc} {e : External}
    (hx : exec rt (lowerAll ra bs) ⟨s, l, w⟩ = .ok ⟨s', l, w⟩)
    (hp : popArgs e.args s' = some (args, [])) :
    exec rt (lowerAll ra (bs ++ [Emit.op (.external e)] ++ cs)) ⟨s, l, w⟩ =
      match rt.call e args w with
      | (.ok vs, w') => exec rt (lowerAll ra cs) ⟨vs, l, w'⟩
      | (.error x, w') => .throw x w' := by
  rw [List.append_assoc, Bc.lowerAll_append, Jvm.exec_append, hx, Jvm.Outcome.bind_ok,
    List.singleton_append, Bc.lowerAll_op, Jvm.exec_op, Jvm.exec_external hp]
  rcases rt.call e args w with ⟨x | vs, w'⟩
  · rfl
  · simp only [List.append_nil, Jvm.Outcome.bind_ok]

theorem popArgs_all (vs : List Value) (hn : vs.length = n) (h : ∀ v ∈ vs, v.ty = .int) :
    popArgs (List.replicate n .int) vs.reverse = some (vs, []) := by
  have hp := popArgs_ints vs [] h
  rwa [List.append_nil, hn] at hp

/-- The call of a method that takes no index it does not find. -/
theorem exec_callCode {i : Instruction} {m : JavaMethod} (hk : i.kind ≠ .jalr)
    (hd : i.dstMethod env = some m)
    (hx : Reg.fna ∈ (m.pass1 env).registersToPass →
      m.getFunctionIndexByAddress (i.extra <<< 2) = some idx)
    (hl : Holds ra regs l) (hr : ∀ r ∈ initialRegisters, r ≠ Reg.fna → Readable ra r) :
    exec rt (lowerAll ra (i.callCode env)) ⟨[], l, w⟩ =
      match rt.call (m.external env)
        ((m.pass1 env).registersToPass.map (passedValue regs idx)) w with
      | (.ok vs, w') => exec rt (lowerAll ra (Instruction.popReturnValue env (m.pass1 env)))
          ⟨vs, l, w'⟩
      | (.error x, w') => .throw x w' := by
  have hc : Instruction.passCode m (m.pass1 env) (i.extra <<< 2) =
      (m.pass1 env).registersToPass.map (Instruction.passRegister (some idx)) := by
    refine List.map_congr_left fun r hr => ?_
    by_cases hf : r = Reg.fna
    · rw [hx (hf ▸ hr)]
    · simp only [Instruction.passRegister, if_neg hf]
  have hargs := exec_passRegisters rt w idx hl (m.pass1 env).registersToPass
    (fun r h hf => hr r (CallTableMethod.mem_initialRegisters h) hf) [] []
  rw [List.append_nil, List.append_nil] at hargs
  rw [Instruction.callCode, if_neg hk, hd]
  dsimp only
  rw [hc]
  refine exec_invoke hargs (popArgs_all _ ?_ ?_)
  · rw [List.length_map, MethodPass1.nRegistersToPass_eq]
  · intro v hv
    obtain ⟨r, -, rfl⟩ := List.mem_map.mp hv
    exact passedValue_ty regs idx r

/-- The call of the call table, with the address that lies on the stack. -/
theorem exec_jalrCode {i : Instruction} (hk : i.kind = .jalr) (hl : Holds ra regs l)
    (hr : ∀ r ∈ initialRegisters, r ≠ Reg.fna → Readable ra r) (v : Word) :
    exec rt (lowerAll ra (i.callCode env)) ⟨[.int v], l, w⟩ =
      match rt.call (CallTableMethod.external env)
        (.int v :: CallTableMethod.passed.map (fun r => .int (regs.get r))) w with
      | (.ok vs, w') => exec rt (lowerAll ra
          (Instruction.popReturnValue env CallTableMethod.pass1)) ⟨vs, l, w'⟩
      | (.error x, w') => .throw x w' := by
  have hc : CallTableMethod.passed.map (Instruction.passRegister none) =
      CallTableMethod.passed.map .pushregister := by decide
  have hp : ∀ r ∈ CallTableMethod.passed, Readable ra r := by
    intro r h
    have hm : ∀ r ∈ CallTableMethod.passed, r ∈ initialRegisters ∧ r ≠ Reg.fna := by decide
    exact hr r (hm r h).1 (hm r h).2
  have hargs : exec rt _ _ = .ok _ := exec_pushregisters (w := w) (s := [.int v]) hl hp
  rw [Instruction.callCode, if_pos hk, CallTableMethod.registersToPass_eq, hc]
  refine exec_invoke hargs ?_
  have hv : ∀ u ∈ Value.int v :: CallTableMethod.passed.map (fun r => Value.int (regs.get r)),
      u.ty = .int := by
    refine List.forall_mem_cons.mpr ⟨rfl, fun u hu => ?_⟩
    obtain ⟨r, -, rfl⟩ := List.mem_map.mp hu
    rfl
  have h := popArgs_all _ (n := 6) rfl hv
  rwa [List.reverse_cons] at h

theorem abort_of_no_index {m : JavaMethod} (hf : Reg.fna ∈ (m.pass1 env).registersToPass)
    (hx : m.getFunctionIndexByAddress addr = none) :
    Item.abort ∈ lowerAll ra (Instruction.passCode m (m.pass1 env) addr) := by
  refine List.mem_flatMap.mpr ⟨.item .abort, List.mem_map.mpr ⟨Reg.fna, hf, ?_⟩,
    List.mem_singleton_self _⟩
  rw [hx]
  rfl

/-- A call that runs through is one of the method found at the destination. -/
theorem callCode_ok {i : Instruction} (hk : i.kind ≠ .jalr) (hl : Holds ra regs l)
    (hr : ∀ r ∈ initialRegisters, r ≠ Reg.fna → Readable ra r)
    (h : exec rt (lowerAll ra (i.callCode env)) ⟨[], l, w⟩ = .ok f) :
    ∃ m idx vs w', i.dstMethod env = some m ∧ (Reg.fna ∈ (m.pass1 env).registersToPass →
        m.getFunctionIndexByAddress (i.extra <<< 2) = some idx) ∧
      rt.call (m.external env) ((m.pass1 env).registersToPass.map (passedValue regs idx)) w =
        (.ok vs, w') := by
  cases hd : i.dstMethod env with
  | none =>
    rw [Instruction.callCode, if_neg hk, hd] at h
    cases h
  | some m =>
    obtain ⟨idx, hx⟩ : ∃ idx, Reg.fna ∈ (m.pass1 env).registersToPass →
        m.getFunctionIndexByAddress (i.extra <<< 2) = some idx := by
      cases hx : m.getFunctionIndexByAddress (i.extra <<< 2) with
      | some idx => exact ⟨idx, fun _ => rfl⟩
      | none =>
        refine ⟨0, fun hf => ?_⟩
        have ha : _ ∈ lowerAll ra _ := abort_of_no_index hf hx
        rw [Instruction.callCode, if_neg hk, hd] at h
        dsimp only at h
        rw [List.append_assoc, Bc.lowerAll_append] at h
        obtain ⟨o, ho⟩ := Jvm.ops_of_exec h _ (List.mem_append_left _ ha)
        cases ho
    rw [exec_callCode hk hd hx hl hr] at h
    rcases hc : rt.call (m.external env)
      ((m.pass1 env).registersToPass.map (passedValue regs idx)) w with ⟨x | vs, w'⟩
    · rw [hc] at h
      cases h
    · exact ⟨m, idx, vs, w', rfl, hx, hc⟩

end

section

variable {ra callee : RegisterAllocator} {l : Nat → Value} {env : Env} {p : MethodPass1}

theorem writeLocals_kept {ws : List (Reg × Word)} (hw : ∀ q ∈ ws, q.1 = Reg.v0 ∨ q.1 = Reg.v1)
    (h : ra.regToLocal r = some n) (h₀ : r ≠ Reg.v0) (h₁ : r ≠ Reg.v1) :
    writeLocals ra l ws n = l n := by
  refine writeLocals_of_not_mem fun q hq hn => ?_
  have he : r = q.1 := ra.injective h hn
  rcases hw q hq with hv | hv
  · exact h₀ (he.trans hv)
  · exact h₁ (he.trans hv)

theorem reads_assigned (hr : Writable ra r) (l : Nat → Value) (v : Word) :
    Reads ra (writeLocals ra l [(r, v)]) r v := by
  obtain ⟨n, hn⟩ := Option.isSome_iff_exists.mp hr.1
  rw [Reads, hn]
  simp only [writeLocals, hn]
  exact Jvm.setLocal_same ..

theorem leaves_both (h₀ : Writable ra Reg.v0) (h₁ : Writable ra Reg.v1) {x : Return σ}
    (hx₀ : callee.regIsAllocated Reg.v0 = true → a = x.v0)
    (hx₁ : callee.regIsAllocated Reg.v1 = true → b = x.v1) :
    Leaves ra callee x l (writeLocals ra l [(Reg.v0, a), (Reg.v1, b)]) where
  v0 h := by
    rw [writeLocals_swap ra l (by decide), ← hx₀ h]
    exact reads_writeLocals h₀ ..
  v1 h := by
    rw [← hx₁ h]
    exact reads_writeLocals h₁ ..
  kept r n h hr₀ hr₁ :=
    writeLocals_kept (List.forall_mem_cons.mpr ⟨.inl rfl, by simp⟩) h hr₀ hr₁

/-- Behind the call of a method the caller has the registers of the callee. -/
theorem leaves_iff (h₀ : Writable ra Reg.v0) (h₁ : Writable ra Reg.v1) (hp : p.returnSize ≤ 2)
    (w : World σ) :
    (∀ regs l (x : Return σ), Holds ra regs l →
        Leaves ra p.regalloc x l (writeLocals ra l (x.assigned env p))) ↔ ReturnsBoth env p := by
  constructor
  · intro h
    have hl := holds_localsFor ra ⟨fun _ => 0, rfl⟩
    constructor
    · intro ha
      by_contra hn
      have hr := (h _ _ ⟨1, 0, w⟩ hl).v0 ha
      have hz : p.returnSize = 0 := by omega
      rw [Return.assigned, hz] at hr
      have he : (1 : Word) = 0 := hr.unique (hl.reads h₀)
      exact absurd he (by decide)
    · intro ha
      by_contra hn
      by_cases hs : p.returnSize = 2
      · have ht : env.config.threadSafe = true := by simpa [hs] using hn
        have hr := (h _ _ ⟨-1, 0, w⟩ hl).v1 ha
        rw [Return.assigned, if_pos hs, if_pos ht] at hr
        have he : (0 : Word) = (packLong 0 (-1)).extractLsb' 32 32 :=
          hr.unique (reads_writeLocals h₁ ..)
        exact absurd he (by decide)
      · have hr := (h _ _ ⟨0, 1, w⟩ hl).v1 ha
        rw [Return.assigned, if_neg hs] at hr
        have hv : Reads ra (localsFor ra ⟨fun _ => 0, rfl⟩) Reg.v1 1 := by
          split at hr
          · obtain ⟨n, hl₁⟩ := Option.isSome_iff_exists.mp h₁.1
            rw [Reads, hl₁] at hr ⊢
            dsimp only at hr ⊢
            rw [writeLocals_of_not_mem] at hr
            · exact hr
            · intro q hq hv
              cases List.mem_singleton.mp hq
              exact absurd (ra.injective hl₁ hv) (by decide)
          · exact hr
        have he : (1 : Word) = 0 := hv.unique (hl.reads h₁)
        exact absurd he (by decide)
  · intro h regs l x hl
    by_cases hs : p.returnSize = 2
    · rw [Return.assigned, if_pos hs]
      refine leaves_both h₀ h₁ (fun _ => rfl) fun ha => ?_
      rw [(h.2 ha).2]
      rfl
    · have hv₁ : ¬ p.regalloc.regIsAllocated Reg.v1 = true := fun ha => hs (h.2 ha).1
      rw [Return.assigned, if_neg hs]
      split
      · refine ⟨fun _ => reads_assigned h₀ .., fun ha => absurd ha hv₁, fun r n hr => ?_⟩
        exact writeLocals_kept (by simp) hr
      · next hs₁ =>
        refine ⟨fun ha => ?_, fun ha => absurd ha hv₁, fun r n _ _ _ => rfl⟩
        have := h.1 ha
        omega

/-- Behind a call through the call table too. -/
theorem leaves_table_iff (h₀ : Writable ra Reg.v0) (h₁ : Writable ra Reg.v1) (w : World σ) :
    (∀ regs l (x : Return σ), Holds ra regs l → Leaves ra p.regalloc x l
        (writeLocals ra l [(Reg.v0, CallTableMethod.value0 p x),
          (Reg.v1, CallTableMethod.value1 env p x)])) ↔ ReturnsBoth env p := by
  have hl := holds_localsFor ra ⟨fun _ => 0, rfl⟩
  constructor
  · intro h
    constructor
    · intro ha
      by_contra hn
      have hr := (h _ _ ⟨1, 0, w⟩ hl).v0 ha
      rw [writeLocals_swap ra _ (by decide), CallTableMethod.value0, if_neg hn] at hr
      have he : (1 : Word) = 0 := hr.unique (reads_writeLocals h₀ ..)
      exact absurd he (by decide)
    · intro ha
      by_contra hn
      obtain ⟨x, hx⟩ : ∃ x : Return σ, x.v1 ≠ CallTableMethod.value1 env p x := by
        by_cases ht : env.config.threadSafe = true
        · by_cases hs : p.returnSize = 2
          · refine ⟨⟨-1, 0, w⟩, ?_⟩
            rw [CallTableMethod.value1, if_pos ht, if_pos hs]
            exact show (0 : Word) ≠ (packLong 0 (-1)).extractLsb' 32 32 by decide
          · refine ⟨⟨0, 1, w⟩, ?_⟩
            rw [CallTableMethod.value1, if_pos ht, if_neg hs]
            split
            · exact show (1 : Word) ≠ ((0 : Word).signExtend 64).extractLsb' 32 32 by decide
            · exact show (1 : Word) ≠ 0 by decide
        · refine ⟨⟨0, w.savedV1 + 1, w⟩, ?_⟩
          have hs : ¬ (env.config.threadSafe = false ∧ p.returnSize = 2) := fun hs => hn hs.symm
          rw [CallTableMethod.value1, if_neg ht, Return.left, if_neg hs]
          intro he
          exact absurd (BitVec.add_right_eq_self.mp he) (by decide)
      have hr := (h _ _ x hl).v1 ha
      exact hx (hr.unique (reads_writeLocals h₁ ..))
  · intro h regs l x hl
    refine leaves_both h₀ h₁ (fun ha => if_pos (h.1 ha)) fun ha => ?_
    obtain ⟨hs, ht⟩ := h.2 ha
    have ht' : ¬ env.config.threadSafe = true := by simp [ht]
    rw [CallTableMethod.value1, if_neg ht', Return.left, if_pos ⟨ht, hs⟩]

end

/-- The line calls nothing whose name has a descriptor. -/
def Bc.undescribed : Bc → Bool
  | .item (.op (.external e)) => !e.name.toList.contains '('
  | _ => true

theorem Bc.external_of_lowered {ra : RegisterAllocator} {bs : List Bc}
    (h : Item.op (.external e) ∈ lowerAll ra bs) : Bc.item (.op (.external e)) ∈ bs := by
  obtain ⟨b, hb, hm⟩ := List.mem_flatMap.mp h
  cases b with
  | item i =>
    cases List.mem_singleton.mp hm
    exact hb
  | _ =>
    simp only [Bc.lower, Bc.pushregisterItem] at hm
    repeat' split at hm
    all_goals simp at hm

theorem JavaMethod.external_described (env : Env) (m : JavaMethod) :
    '(' ∈ (m.external env).name.toList := by
  simp [external, getJavaMethodName, String.toList_append]

namespace Builtin

theorem code_not_goto (b : Builtin) (start stop target : Word) (bs : List Bc) (l : Jvm.Label) :
    b.code start stop target ≠ bs ++ [.item (.goto l)] := by
  intro h
  have hl := congrArg List.getLast? h
  rw [List.getLast?_concat] at hl
  cases b <;> simp [code, Instruction.splitLong] at hl

theorem code_undescribed (b : Builtin) (start stop target : Word) :
    (b.code start stop target).all Bc.undescribed = true := by
  cases b with
  | arithmetic1 bc => cases bc <;> rfl
  | arithmetic2 bc => cases bc <;> rfl
  | compare bc => cases bc <;> rfl
  | _ => rfl

/-- An inlined builtin calls no method. -/
theorem code_external {b : Builtin} {ra : RegisterAllocator} (env : Env) (m : JavaMethod)
    (start stop target : Word) :
    Item.op (.external (m.external env)) ∉ lowerAll ra (b.code start stop target) := by
  intro h
  have hu := List.all_eq_true.mp (b.code_undescribed start stop target) _ (Bc.external_of_lowered h)
  have hd := m.external_described env
  rw [Bc.undescribed, List.contains_iff_mem.mpr hd] at hu
  cases hu

/-- Zero in the argument registers, and one in every other. -/
def idleRegs : RegFile :=
  ⟨fun r => if [Reg.zero, Reg.a0, Reg.a1, Reg.a2, Reg.a3].contains r then 0 else 1, rfl⟩

section

variable {ra : RegisterAllocator} {l : Nat → Value} {w : World σ} {start stop target : Word}

theorem not_idle_of_external {b : Builtin}
    (hl : Bc.item (.op (.external e)) ∈ b.code start stop target) :
    exec (Runtime.failing σ) (lowerAll ra (b.code start stop target)) ⟨[], l, w⟩ ≠
      .ok ⟨[], l, w⟩ := fun h =>
  Jvm.exec_failing h e (List.mem_flatMap.mpr ⟨_, hl, List.mem_singleton_self _⟩)

theorem split_not_idle {rt : Runtime σ} (hl : Holds ra idleRegs l) (h₀ : Writable ra Reg.v0)
    (h₁ : Writable ra Reg.v1) : exec rt (lowerAll ra (Instruction.splitLong Reg.v0 Reg.v1))
      ⟨[.long 0], l, w⟩ ≠ .ok ⟨[], l, w⟩ := by
  intro h
  rw [splitLong_exec h₀ h₁ (by decide)] at h
  have hr := reads_writeLocals h₀ l (Reg.v1, (0 : DWord).extractLsb' 0 32)
    ((0 : DWord).extractLsb' 32 32)
  injection h with h
  injection h with _ h
  rw [h] at hr
  exact absurd (hr.unique (hl.reads h₀)) (by decide)

/-- No builtin leaves all registers as they are where nothing outside answers. -/
theorem code_not_idle {b : Builtin} (hl : Holds ra idleRegs l)
    (hs : ∀ r ∈ b.fillSources, Readable ra r) (hd : ∀ r ∈ b.fillDestinations, Writable ra r) :
    exec (Runtime.failing σ) (lowerAll ra (b.code start stop target)) ⟨[], l, w⟩ ≠
      .ok ⟨[], l, w⟩ := by
  have hz : packLong 0 0 = 0 := by decide
  cases b with
  | arithmetic1 | arithmetic2 | compare =>
    exact not_idle_of_external (List.mem_cons_of_mem _ (List.mem_cons_self ..))
  | intToFloat | floatToInt =>
    exact not_idle_of_external (List.mem_cons_of_mem _ (List.mem_cons_self ..))
  | throw_ => exact not_idle_of_external (List.mem_cons_self ..)
  | setjmp => exact fun h => by cases h
  | try_ =>
    intro h
    have hecb : Writable ra Reg.ecb := hd _ (by decide)
    have hear : Writable ra Reg.ear := hd _ (by decide)
    have h₀ : idleRegs.get Reg.a0 = 0 := rfl
    have hl' : Holds ra (idleRegs.setAll [(Reg.ecb, 0)]) (writeLocals ra l [(Reg.ecb, 0)]) := by
      refine hl.writeLocals fun q hq => ?_
      cases List.mem_singleton.mp hq
      exact hecb.1
    rw [code, Bc.exec_pushregister hl (hs Reg.a0 (by decide)), exec_pop hecb, h₀,
      Bc.exec_pushregister hl' (hs Reg.a1 (by decide)), exec_pop hear, writeLocals_append] at h
    injection h with h
    injection h with _ h
    have hr := reads_writeLocals hecb l (Reg.ear, (idleRegs.setAll [(Reg.ecb, 0)]).get Reg.a1) 0
    rw [writeLocals_swap ra l (by decide)] at hr
    change writeLocals ra l [(Reg.ecb, 0), _] = l at h
    rw [h] at hr
    exact absurd (hr.unique (hl.reads hecb)) (by decide)
  | mulDiv bc =>
    have ha {r : Reg} (hr : r ∈ [Reg.a0, Reg.a1, Reg.a2, Reg.a3]) : Readable ra r := hs r hr
    rw [code, List.append_assoc, List.append_assoc,
      push64_exec hl (ha (by decide)) (ha (by decide)),
      push64_exec hl (ha (by decide)) (ha (by decide)), List.singleton_append]
    change exec _ (lowerAll ra (Emit.op (.longOp bc) :: _))
      ⟨[.long (packLong 0 0), .long (packLong 0 0)], l, w⟩ ≠ _
    rw [hz]
    cases bc with
    | ldiv | lrem => exact fun h => by cases h
    | lmul | land | lor =>
      rw [exec_op (Jvm.exec_longOp _ _ _ _ rfl)]
      exact split_not_idle hl (hd _ (by decide)) (hd _ (by decide))
  | shift bc =>
    have ha {r : Reg} (hr : r ∈ [Reg.a0, Reg.a1, Reg.a2, Reg.a3]) : Readable ra r := hs r hr
    rw [code, List.append_assoc, push64_exec hl (ha (by decide)) (ha (by decide)), List.cons_append,
      Bc.exec_pushregister hl (ha (by decide)), List.singleton_append,
      exec_op (Jvm.exec_longShift ..)]
    have hv : bc.eval (packLong (idleRegs.get Reg.a0) (idleRegs.get Reg.a1))
        (idleRegs.get Reg.a2) = 0 := by
      cases bc <;> decide
    rw [hv]
    exact split_not_idle hl (hd _ (List.mem_cons_self ..))
      (hd _ (List.mem_cons_of_mem _ (List.mem_cons_self ..)))

end

end Builtin

end Cibyl
