import Cibyl.Calls

namespace Cibyl
set_option autoImplicit true

open InstructionFactory (create createTailCallJump)
open Jvm (Value World Runtime Item exec findLabel)
open Bc (lowerAll)
open RegisterAllocator (initialRegisters)

/-- No two methods have one name and descriptor. -/
def Env.NamesApart (env : Env) : Prop :=
  ∀ a b m m', env.getMethodByAddress a = some m → env.getMethodByAddress b = some m' →
    m.external env = m'.external env → m = m'

theorem passedValue_congr {rs : List Reg} {idx j : Nat} (regs : RegFile)
    (h : Reg.fna ∈ rs → BitVec.ofNat 32 j = BitVec.ofNat 32 idx) :
    rs.map (passedValue regs j) = rs.map (passedValue regs idx) := by
  refine List.map_congr_left fun r hr => ?_
  rw [passedValue, passedValue]
  by_cases hf : r = Reg.fna
  · rw [if_pos hf, if_pos hf, h (hf ▸ hr)]
  · rw [if_neg hf, if_neg hf]

theorem passedValue_index {rs : List Reg} {idx j : Nat} {regs : RegFile}
    (h : rs.map (passedValue regs j) = rs.map (passedValue regs idx)) (hf : Reg.fna ∈ rs) :
    BitVec.ofNat 32 j = BitVec.ofNat 32 idx := by
  have he := List.map_inj_left.mp h Reg.fna hf
  rw [passedValue, passedValue, if_pos rfl, if_pos rfl] at he
  injection he

/-- The methods of which only one answers, where it returns `x`. -/
def JavaMethod.answers (env : Env) (m : JavaMethod) (args : List Value) (x : Return σ) :
    Runtime σ :=
  Runtime.only (m.external env) args (x.values env (m.pass1 env)) (x.left env (m.pass1 env))
    (x.values_ty env (m.pass1 env))

theorem JavaMethod.answers_call (env : Env) (m : JavaMethod) (args : List Value) (x : Return σ)
    (w : World σ) : (m.answers env args x).call (m.external env) args w =
      (.ok (x.values env (m.pass1 env)), x.left env (m.pass1 env)) :=
  if_pos ⟨rfl, rfl⟩

theorem JavaMethod.answers_ok {m : JavaMethod} {x : Return σ}
    (h : (m.answers env args x).call e args' w = (.ok vs, w')) :
    e = m.external env ∧ args' = args := by
  by_contra hn
  simp only [answers, Runtime.only, if_neg hn] at h
  cases h

section

variable {env : Env} {ra : RegisterAllocator} {i : Instruction} {m : JavaMethod} {idx : Nat}
  {fns : List Function} {unknown : JavaException}

theorem provides_self (hk : i.kind ≠ .jalr) (rt : Runtime σ) :
    Provides env fns unknown i rt rt := by
  rw [Provides, if_neg hk]

theorem provides_table (hk : i.kind = .jalr) (methods : Runtime σ) : Provides env fns unknown i
    methods (CallTableMethod.runtime env fns unknown methods) := by
  rw [Provides, if_pos hk]
  funext args w
  exact if_pos rfl

/-- A call of the method at the destination leaves what the method returns. -/
theorem invokes_callCode (hk : i.kind ≠ .jalr) (hs : SameFunction env (i.extra <<< 2) m idx)
    (hr : ∀ r ∈ initialRegisters, r ≠ Reg.fna → Readable ra r) (h₀ : Writable ra Reg.v0)
    (h₁ : Writable ra Reg.v1) (w : World σ) (regs : RegFile) :
    Invokes w env fns unknown ra i m idx (i.callCode env) regs ↔
      ReturnsBoth env (m.pass1 env) := by
  have hp := m.returnSize_le env
  obtain ⟨hd, hx⟩ := hs
  obtain ⟨j, hj, he⟩ : ∃ j, (Reg.fna ∈ (m.pass1 env).registersToPass →
      m.getFunctionIndexByAddress (i.extra <<< 2) = some j) ∧
        ∀ regs, (m.pass1 env).registersToPass.map (passedValue regs j) =
          (m.pass1 env).registersToPass.map (passedValue regs idx) := by
    by_cases hf : Reg.fna ∈ (m.pass1 env).registersToPass
    · obtain ⟨j, hj, he⟩ := hx hf
      exact ⟨j, fun _ => hj, fun regs => passedValue_congr regs fun _ => he⟩
    · exact ⟨idx, fun h => absurd h hf, fun _ => rfl⟩
  have hstack : i.callStack regs = [] := if_neg hk
  rw [← leaves_iff h₀ h₁ hp w]
  have hexec (rt : Runtime σ) {regs' : RegFile} {l : Nat → Value} (x : Return σ)
    (hl : Holds ra regs' l)
      (hc : rt.call (m.external env)
        ((m.pass1 env).registersToPass.map (passedValue regs' idx)) w =
          (.ok (x.values env (m.pass1 env)), x.left env (m.pass1 env))) :
      exec rt (lowerAll ra (i.callCode env)) ⟨i.callStack regs, l, w⟩ =
        .ok ⟨[], writeLocals ra l (x.assigned env (m.pass1 env)), x.left env (m.pass1 env)⟩ := by
    have h : exec rt _ ⟨_, l, _⟩ = .ok _ := exec_popReturnValue h₀ h₁ hp env x []
    rw [List.append_nil] at h
    rw [hstack, exec_callCode hk hd hj hl hr, he, hc]
    exact h
  constructor
  · intro h regs' l x hl
    have hc := m.answers_call env
      ((m.pass1 env).registersToPass.map (passedValue regs' idx)) x w
    obtain ⟨l', hx, hleaves⟩ := h _ _ regs' l x hl (provides_self hk _) hc
    rw [hexec _ x hl hc] at hx
    cases hx
    exact hleaves
  · intro h methods rt regs' l x hl hprov hc
    rw [Provides, if_neg hk] at hprov
    subst hprov
    exact ⟨_, hexec rt x hl hc, h regs' l x hl⟩

/-- So does a call through the call table, of a function that it has. -/
theorem invokes_jalrCode (hk : i.kind = .jalr) (hf : FunctionAt env addr m idx)
    (ha : regs.get i.rs = addr)
    (hr : ∀ r ∈ initialRegisters, r ≠ Reg.fna → Readable ra r) (h₀ : Writable ra Reg.v0)
    (h₁ : Writable ra Reg.v1) (w : World σ) :
    Invokes w env fns unknown ra i m idx (i.callCode env) regs ↔
      (∃ fn ∈ fns, fn.address = addr) ∧ ReturnsBoth env (m.pass1 env) := by
  have hp := m.returnSize_le env
  have hstack : i.callStack regs = [.int addr] := by
    rw [Instruction.callStack, if_pos hk, ha]
  rw [← leaves_table_iff h₀ h₁ w]
  have hexec (hm : ∃ fn ∈ fns, fn.address = addr) (methods : Runtime σ) {rt : Runtime σ}
      {regs' : RegFile} {l : Nat → Value} (x : Return σ) (hl : Holds ra regs' l)
      (hprov : Provides env fns unknown i methods rt)
      (hc : methods.call (m.external env)
        ((m.pass1 env).registersToPass.map (passedValue regs' idx)) w =
          (.ok (x.values env (m.pass1 env)), x.left env (m.pass1 env))) :
      exec rt (lowerAll ra (i.callCode env)) ⟨i.callStack regs, l, w⟩ =
        .ok ⟨[], writeLocals ra l [(Reg.v0, CallTableMethod.value0 (m.pass1 env) x),
          (Reg.v1, CallTableMethod.value1 env (m.pass1 env) x)], x.left env (m.pass1 env)⟩ := by
    rw [Provides, if_pos hk] at hprov
    rw [hstack, exec_jalrCode hk hl hr, hprov, CallTableMethod.call_eq hf hm, hc]
    exact CallTableMethod.exec_popCall h₀ h₁ hp rt env x l []
  constructor
  · intro h
    have hm : ∃ fn ∈ fns, fn.address = addr := by
      by_contra hn
      have hl := holds_localsFor ra ⟨fun _ => 0, rfl⟩
      let methods := m.answers env ((m.pass1 env).registersToPass.map
        (passedValue ⟨fun _ => 0, rfl⟩ idx)) (⟨0, 0, w⟩ : Return σ)
      have hprov : Provides env fns unknown i methods _ := provides_table hk methods
      obtain ⟨l', hx, -⟩ := h _ _ _ _ _ hl hprov (m.answers_call env _ _ w)
      rw [Provides, if_pos hk] at hprov
      rw [hstack, exec_jalrCode hk hl hr, hprov, CallTableMethod.call_unknown hn] at hx
      cases hx
    refine ⟨hm, fun regs' l x hl => ?_⟩
    let methods := m.answers env ((m.pass1 env).registersToPass.map (passedValue regs' idx)) x
    have hprov : Provides env fns unknown i methods _ := provides_table hk methods
    obtain ⟨l', hx, hleaves⟩ := h methods _ regs' l x hl hprov (m.answers_call env _ x w)
    rw [hexec hm methods x hl hprov (m.answers_call env _ x w)] at hx
    cases hx
    exact hleaves
  · rintro ⟨hm, h⟩ methods rt regs' l x hl hprov hc
    exact ⟨_, hexec hm methods x hl hprov hc, h regs' l x hl⟩

/-- A call that is one of `m` has found `m` and its function at its destination. -/
theorem sameFunction_of_invokes (hk : i.kind ≠ .jalr) (hn : env.NamesApart)
    (hf : FunctionAt env addr m idx)
    (hr : ∀ r ∈ initialRegisters, r ≠ Reg.fna → Readable ra r) (w : World σ)
    (h : Invokes w env fns unknown ra i m idx (i.callCode env) regs) :
    SameFunction env (i.extra <<< 2) m idx := by
  have hl := holds_localsFor ra ⟨fun _ => 0, rfl⟩
  have hc := m.answers_call env
    ((m.pass1 env).registersToPass.map (passedValue ⟨fun _ => 0, rfl⟩ idx)) ⟨0, 0, w⟩ w
  obtain ⟨l', hx, -⟩ := h _ _ _ _ ⟨0, 0, w⟩ hl (provides_self hk _) hc
  have hstack : i.callStack regs = [] := if_neg hk
  rw [hstack] at hx
  obtain ⟨m', j, vs, w', hd, hj, hcall⟩ := callCode_ok hk hl hr hx
  obtain ⟨he, hargs⟩ := JavaMethod.answers_ok hcall
  cases hn _ _ _ _ hd hf.method he
  exact ⟨hd, fun hm => ⟨j, hj hm, passedValue_index hargs hm⟩⟩

/-- An inlined builtin is no call of the method. -/
theorem not_invokes_builtin (hk : i.kind ≠ .jalr) (w : World σ) (b : Builtin)
    (start stop target : Word) :
    ¬ Invokes w env fns unknown ra i m idx (b.code start stop target) regs := by
  intro h
  have hl := holds_localsFor ra ⟨fun _ => 0, rfl⟩
  have hrun (v : Word) := h _ _ _ _ ⟨0, v, { w with savedV1 := v }⟩ hl (provides_self hk _)
    (m.answers_call env _ _ w)
  obtain ⟨l₀, h₀, -⟩ := hrun 0
  obtain ⟨l₁, h₁, -⟩ := hrun 1
  have hv (v : Word) : ((⟨0, v, { w with savedV1 := v }⟩ : Return σ).left env
      (m.pass1 env)).savedV1 = v := by
    rw [Return.left]
    split <;> rfl
  have hagree : ∀ e, Item.op (.external e) ∈ lowerAll ra (b.code start stop target) →
      (m.answers env ((m.pass1 env).registersToPass.map (passedValue ⟨fun _ => 0, rfl⟩ idx))
        (⟨0, 0, { w with savedV1 := 0 }⟩ : Return σ)).call e =
      (m.answers env ((m.pass1 env).registersToPass.map (passedValue ⟨fun _ => 0, rfl⟩ idx))
        (⟨0, 1, { w with savedV1 := 1 }⟩ : Return σ)).call e := by
    intro e he
    have hne : e ≠ m.external env := by
      rintro rfl
      exact Builtin.code_external env m start stop target he
    funext args w
    simp [JavaMethod.answers, Runtime.only, hne]
  rw [Jvm.exec_runtimes_agree hagree, h₁] at h₀
  injection h₀ with h₀
  injection h₀ with _ _ h₀
  have he := congrArg World.savedV1 h₀
  rw [hv, hv] at he
  exact absurd he (by decide)

end

theorem JavaMethod.findLabel_function {caller : JavaMethod}
    (hm : caller.hasMultipleFunctions = true) (hf : fn ∈ caller.functions) (env : Env) :
    ∃ c, findLabel (caller.pass2 env) (.addr fn.address) = some c := by
  obtain ⟨fs₁, fs₂, hs⟩ := List.append_of_mem hf
  have hl : Bc.item (.label (.addr fn.address)) ∈ (caller.functionsCode env).1 := by
    rw [functionsCode, hs, List.map_append, Emission.all_append, Emission.seq_lines, List.map_cons,
      Emission.all_cons_lines]
    refine List.mem_append_right _ (List.mem_append_left _ ?_)
    rw [functionCode, Emission.seq_lines, if_pos hm]
    exact List.mem_append_left _ (List.mem_singleton_self _)
  have hp : Bc.item (.label (.addr fn.address)) ∈ caller.pass2Lines env := by
    rw [pass2Lines]
    simp only [List.mem_append, hl, true_or, or_true]
  exact Labelled.find_isSome
    ⟨_, List.mem_flatMap.mpr ⟨_, hp, List.mem_singleton_self _⟩, rfl⟩

section

variable {env : Env} {caller m : JavaMethod} {i : Instruction} {idx : Nat} {fns : List Function}
  {unknown : JavaException}

/-- The calls of a method can read every register that a callee may take. -/
theorem call_readable (hi : i ∈ caller.insns env)
    (hk : i.kind = .jal ∨ i.kind = .jalr ∨ i.kind = .jalReturn) :
    ∀ r ∈ initialRegisters, r ≠ Reg.fna → Readable (caller.pass1 env).regalloc r := by
  intro r hr hf
  have hs : ∀ r ∈ initialRegisters, r ≠ Reg.fna →
      r ∈ [Reg.a0, Reg.a1, Reg.a2, Reg.a3, Reg.sp] ∧ Reg.Ordinary r := by decide
  obtain ⟨hm, ho⟩ := hs r hr hf
  refine readable_of_counted hi ?_ ho
  rcases hk with hk | hk | hk
  all_goals
    rw [Instruction.fillSources, hk]
    exact List.mem_append_left _ (List.mem_cons_of_mem _ hm)

/-- A call within the method goes to the label of the function. -/
theorem goesToOwn_jalCode (hi : i ∈ caller.insns env) (hcaller : i.method env = some caller)
    (hk : i.kind = .jal ∨ i.kind = .jalReturn) (hb : i.builtin env = none)
    (hown : i.opcode = .jal ∧ i.callsOwnMethod env = true) (hx : i.extra <<< 2 = addr)
    (hf : FunctionAt env addr m idx) (w : World σ) (st : MethodState) :
    GoesToOwn w env caller i addr (i.jalCode env st).1 (i.jalCode env st).2 := by
  have hm : caller = m ∧ caller.hasMultipleFunctions = true := by
    have ho := hown.2
    rw [Instruction.callsOwnMethod, Instruction.dstMethod, hx, hf.method, hcaller] at ho
    simp only [Bool.and_eq_true, beq_iff_eq, Option.some.injEq, Option.any_some] at ho
    exact ⟨ho.1.2, ho.2⟩
  obtain ⟨rfl, hmulti⟩ := hm
  obtain ⟨fn, hfn, rfl⟩ := hf.entry
  have hra : Writable (caller.pass1 env).regalloc Reg.ra := by
    refine writable_of_counted hi ?_ (by decide) (by decide)
    rcases hk with hk | hk
    all_goals
      rw [Instruction.fillDestinations, hk]
      exact List.mem_append_right _ (by rw [if_pos hown.2]; exact List.mem_singleton_self _)
  have hc : i.jalCode env st = ([Emit.pushconst (BitVec.ofNat 32 st.returnLocations.length),
      .popregister Reg.ra] ++ [.item (.goto (.addr fn.address))],
      { st with returnLocations := st.returnLocations ++ [i.address + 8] }) := by
    rw [Instruction.jalCode, hb]
    dsimp only
    rw [if_pos hown, hx]
    rfl
  rw [hc]
  refine ⟨JavaMethod.findLabel_function hmulti (List.mem_of_getElem? hfn) env, _,
    st.returnLocations.length, rfl, ?_, ?_⟩
  · dsimp only
    rw [List.getElem?_concat_length]
  · intro rt l
    rw [Bc.exec_pushconst, exec_pop hra]
    rfl

/-- A taken call, other than a `jalr`, reaches the function at `addr`. -/
theorem jalCode_reaches_iff (hi : i ∈ caller.insns env) (hcaller : i.method env = some caller)
    (hn : env.NamesApart) (hk : i.kind = .jal ∨ i.kind = .jalReturn)
    (hx : i.opcode = .jal ∧ i.extra <<< 2 = addr ∨ i.opcode = .bgezal)
    (hf : FunctionAt env addr m idx) (w : World σ) (st : MethodState) (regs : RegFile) :
    (if i.opcode = .jal ∧ i.callsOwnMethod env = true then
        GoesToOwn w env caller i addr (i.jalCode env st).1 (i.jalCode env st).2
      else Invokes w env fns unknown (caller.pass1 env).regalloc i m idx (i.jalCode env st).1
        regs) ↔
      i.builtin env = none ∧ (i.opcode = .bgezal → SameFunction env (i.extra <<< 2) m idx) ∧
        (i.opcode = .jal ∧ i.callsOwnMethod env = true ∨ ReturnsBoth env (m.pass1 env)) := by
  have hk' : i.kind = .jal ∨ i.kind = .jalr ∨ i.kind = .jalReturn := hk.imp_right .inr
  have hnk : i.kind ≠ .jalr := by
    rcases hk with hk | hk <;> rw [hk] <;> exact Kind.noConfusion
  have hr := call_readable hi hk'
  have h₀ := JavaMethod.call_writable hi hk' (.inl rfl)
  have h₁ := JavaMethod.call_writable hi hk' (.inr rfl)
  cases hb : i.builtin env with
  | some b =>
    have hc : (i.jalCode env st).1 =
      b.code (i.methodRange env).1 (i.methodRange env).2 i.address := by
      rw [Instruction.jalCode, hb]
    refine iff_of_false ?_ (fun h => by cases h.1)
    rw [hc]
    split
    · rintro ⟨-, set, k, he, -⟩
      exact b.code_not_goto _ _ _ _ _ he
    · exact not_invokes_builtin hnk w b _ _ _
  | none =>
    by_cases hown : i.opcode = .jal ∧ i.callsOwnMethod env = true
    · have hx' : i.extra <<< 2 = addr := by
        rcases hx with hx | hx
        · exact hx.2
        · rw [hx] at hown
          cases hown.1
      rw [if_pos hown]
      refine iff_of_true (goesToOwn_jalCode hi hcaller hk hb hown hx' hf w st) ?_
      exact ⟨rfl, fun ho => (Opcode.noConfusion (hown.1.symm.trans ho)), .inl hown⟩
    · have hc : (i.jalCode env st).1 = i.callCode env := by
        rw [Instruction.jalCode, hb]
        dsimp only
        rw [if_neg hown]
      rw [if_neg hown, hc, or_iff_right hown, and_iff_right rfl]
      constructor
      · intro h
        have hs := sameFunction_of_invokes hnk hn hf hr w h
        exact ⟨fun _ => hs, (invokes_callCode hnk hs hr h₀ h₁ w regs).mp h⟩
      · rintro ⟨hs, h⟩
        refine (invokes_callCode hnk ?_ hr h₀ h₁ w regs).mpr h
        rcases hx with ⟨-, hx⟩ | hx
        · rw [hx]
          exact ⟨hf.method, fun _ => ⟨idx, hf.index, rfl⟩⟩
        · exact hs hx

/-- The code of a `bgezal` does not leave everything as it is. -/
theorem jalCode_not_idle (hi : i ∈ caller.insns env) (hk : i.kind = .jal) (ho : i.opcode = .bgezal)
    (w : World σ) (st : MethodState) (regs : RegFile) :
    ¬ ∀ (rt : Runtime σ) regs' l, Holds (caller.pass1 env).regalloc regs' l →
      exec rt (lowerAll (caller.pass1 env).regalloc (i.jalCode env st).1)
        ⟨i.callStack regs, l, w⟩ = .ok ⟨[], l, w⟩ := by
  intro h
  have hnk : i.kind ≠ .jalr := by rw [hk]; exact Kind.noConfusion
  have hl := holds_localsFor (caller.pass1 env).regalloc Builtin.idleRegs
  have hx := h (Runtime.failing σ) _ _ hl
  have hstack : i.callStack regs = [] := if_neg hnk
  rw [hstack] at hx
  cases hb : i.builtin env with
  | some b =>
    have hs : ∀ r ∈ b.fillSources, Reg.Ordinary r := by
      cases b <;> simp [Builtin.fillSources, Reg.Ordinary] <;> decide
    have hd : ∀ r ∈ b.fillDestinations, r ≠ Reg.zero ∧ Reg.Ordinary r := by
      cases b <;> simp [Builtin.fillDestinations, Reg.Ordinary] <;> decide
    rw [Instruction.jalCode, hb] at hx
    refine Builtin.code_not_idle hl (fun r hr => ?_) (fun r hr => ?_) hx
    · refine readable_of_counted hi ?_ (hs r hr)
      rw [Instruction.fillSources, hk, hb]
      exact List.mem_append_right _ hr
    · refine writable_of_counted hi ?_ (hd r hr).1 (hd r hr).2
      rw [Instruction.fillDestinations, hk, hb]
      exact List.mem_append_left _ (List.mem_append_right _ hr)
  | none =>
    have hc : (i.jalCode env st).1 = i.callCode env := by
      rw [Instruction.jalCode, hb]
      dsimp only
      rw [if_neg (fun h => Opcode.noConfusion (ho.symm.trans h.1))]
    rw [hc] at hx
    obtain ⟨m, idx, vs, w', -, -, hcall⟩ := callCode_ok hnk hl (call_readable hi (.inl hk)) hx
    cases hcall

/-- A call is emitted in one way. -/
theorem callReaches_iff (hk : i.kind = .jal ∨ i.kind = .jalr ∨ i.kind = .jalReturn) (w : World σ)
    (delayed : Emission) (st : MethodState) (word : Word) (regs : RegFile) :
    CallReaches w env fns unknown caller i delayed st word regs ↔
      match Arch.callTarget i.opcode i.address word regs with
      | none => ∀ (rt : Runtime σ) regs' l, Holds (caller.pass1 env).regalloc regs' l →
          exec rt (lowerAll (caller.pass1 env).regalloc (i.jalCode env (delayed st).2).1)
            ⟨i.callStack regs, l, w⟩ = .ok ⟨[], l, w⟩
      | some addr => ∀ m idx, FunctionAt env addr m idx →
          if i.opcode = .jal ∧ i.callsOwnMethod env = true then
            GoesToOwn w env caller i addr (i.jalCode env (delayed st).2).1
              (i.jalCode env (delayed st).2).2
          else Invokes w env fns unknown (caller.pass1 env).regalloc i m idx
            (i.jalCode env (delayed st).2).1 regs := by
  have hp := i.pass2_call hk env delayed st
  constructor
  · rintro ⟨body, st', he, h⟩
    rw [hp] at he
    injection he with hb hst
    have hb := List.append_cancel_right (List.append_cancel_left (List.append_cancel_left hb))
    rw [hb, hst]
    exact h
  · intro h
    exact ⟨_, _, hp, h⟩

/-- Which calls reach the function at the architecture's target, and leave what it returns. -/
theorem calls_reach_target_iff (hi : i ∈ caller.insns env) (hcaller : i.method env = some caller)
    (hn : env.NamesApart) (hc : CallOf env address word i) (fns : List Function)
    (unknown : JavaException) (w : World σ) (delayed : Emission) (st : MethodState)
    (regs : RegFile) :
    CallReaches w env fns unknown caller i delayed st word regs ↔
      CallMeets env fns i word regs := by
  obtain ⟨ha, hshape⟩ := hc.shape
  have hk := hshape.kind
  rw [callReaches_iff hk, CallMeets]
  cases ht : Arch.callTarget i.opcode i.address word regs with
  | none =>
    refine iff_of_false ?_ (fun ⟨addr, h, _⟩ => by cases h)
    cases hshape with
    | bgezal hk ho => exact jalCode_not_idle hi hk ho w _ regs
    | jal _ ho | tailCall _ ho | jalr _ ho =>
      rw [ho] at ht
      cases ht
  | some addr =>
    simp only [Option.some.injEq, exists_eq_left']
    refine forall_congr' fun m => forall_congr' fun idx => forall_congr' fun hf => ?_
    cases hshape with
    | jal hk ho hx =>
      rw [if_neg (show ¬ i.kind = .jalr by rw [hk]; exact Kind.noConfusion)]
      rw [ho] at ht
      cases ht
      exact jalCode_reaches_iff hi hcaller hn (.inl hk) (.inl ⟨ho, hx⟩) hf w _ regs
    | tailCall hk ho hx =>
      rw [if_neg (show ¬ i.kind = .jalr by rw [hk]; exact Kind.noConfusion)]
      rw [ho] at ht
      cases ht
      exact jalCode_reaches_iff hi hcaller hn (.inr hk) (.inl ⟨ho, hx⟩) hf w _ regs
    | bgezal hk ho =>
      rw [if_neg (show ¬ i.kind = .jalr by rw [hk]; exact Kind.noConfusion)]
      exact jalCode_reaches_iff hi hcaller hn (.inl hk) (.inr ho) hf w _ regs
    | jalr hk ho hrs =>
      rw [ho] at ht
      cases ht
      have hown : ¬ (i.opcode = .jal ∧ i.callsOwnMethod env = true) := by
        rw [ho]
        exact fun h => Opcode.noConfusion h.1
      have hb : i.builtin env = none := by
        rw [Instruction.builtin, hk]
      have hc (st : MethodState) : (i.jalCode env st).1 = i.callCode env := by
        rw [Instruction.jalCode, hb]
        dsimp only
        rw [if_neg hown]
      rw [if_neg hown, if_pos hk, hc]
      exact invokes_jalrCode hk hf (congrArg regs.get hrs) (call_readable hi (.inr (.inl hk)))
        (JavaMethod.call_writable hi (.inr (.inl hk)) (.inl rfl))
        (JavaMethod.call_writable hi (.inr (.inl hk)) (.inr rfl)) w

end

/-- The operand of a call is read before its delay slot, and what the call does comes behind it. -/
theorem call_performs {rt : Runtime σ} {body code call : List Item} {caller : JavaMethod}
    {i : Instruction} {l'' : List Item → Nat → Value} (hi : i ∈ caller.insns env)
    (hl : Holds (caller.pass1 env).regalloc regs l) (ho : Reg.Ordinary i.rs)
    (hp : Performs rt body code l w l' w')
    (hx : ∀ k, exec rt call ⟨i.callStack regs, l' k, w'⟩ = .ok ⟨[], l'' k, w''⟩) :
    Performs rt body (lowerAll (caller.pass1 env).regalloc
      (i.callOperands.map .pushregister) ++ (code ++ call)) l w (fun k => l'' (call ++ k)) w'' := by
  intro k
  have hops : exec rt (lowerAll (caller.pass1 env).regalloc (i.callOperands.map .pushregister))
      ⟨[], l, w⟩ = .ok ⟨i.callStack regs, l, w⟩ := by
    have hr : ∀ r ∈ i.callOperands, Readable (caller.pass1 env).regalloc r := by
      intro r hr
      rw [Instruction.callOperands] at hr
      split at hr
      · next hk =>
        cases List.mem_singleton.mp hr
        refine readable_of_counted hi ?_ ho
        rw [Instruction.fillSources, hk]
        exact List.mem_append_left _ (List.mem_cons_self ..)
      · cases hr
    have h : exec rt _ _ = .ok _ := exec_pushregisters (w := w) (s := []) hl hr
    rw [h, Instruction.callStack, Instruction.callOperands, List.append_nil]
    split <;> rfl
  rw [List.append_assoc, List.append_assoc]
  refine (Jvm.Runs.of_exec hops _).trans ?_
  have hd := (hp (call ++ k)).below (i.callStack regs)
  exact hd.trans (Jvm.Runs.of_exec (hx (call ++ k)) k)

theorem callNext_namesApart : (callNextEnv "g").NamesApart := by
  have hne : callNextCaller.external (callNextEnv "g") ≠
      (callNextCallee "g").external (callNextEnv "g") := by decide +kernel
  intro a b m m' ha hb he
  have hm {a : Word} {m : JavaMethod} (h : (callNextEnv "g").getMethodByAddress a = some m) :
      m = callNextCaller ∨ m = callNextCallee "g" := by
    have h := Option.some.inj h
    split at h
    · exact .inl h.symm
    · exact .inr h.symm
  rcases hm ha with rfl | rfl <;> rcases hm hb with rfl | rfl
  · rfl
  · exact absurd he hne
  · exact absurd he.symm hne
  · rfl

theorem callNext_meets : CallMeets (callNextEnv "g") [] callNextInsn 0x0c000404
    ⟨fun _ => 0, rfl⟩ := by
  refine ⟨0x1010, rfl, fun m idx hf => ?_⟩
  cases hf.method
  rw [if_neg (by decide)]
  refine ⟨by decide +kernel, nofun, .inr ?_⟩
  rw [ReturnsBoth]
  decide +kernel

theorem calls_reach_target_callNext :
    CallReaches ⟨⟨[], by decide⟩, 0, ()⟩ (callNextEnv "g") [] .arithmetic callNextCaller
      callNextInsn .nothing ⟨[], []⟩ 0x0c000404 ⟨fun _ => 0, rfl⟩ :=
  have hc : CallOf (callNextEnv "g") 0x1000 0x0c000404 callNextInsn := .call (by decide) (.inl rfl)
  (calls_reach_target_iff (by decide) rfl callNext_namesApart hc _ _ _ _ _ _).mpr callNext_meets

/-- `bal` to the function at 0x1010 and a return, then a return. -/
def linkNext : List Word := [0x04110003, 0, 0x03e00008, 0, 0x03e00008, 0]

def linkNextArray : List Entry := (Controller.pass0 0x1000 linkNext).getD []

theorem linkNext_pass0 : Controller.pass0 0x1000 linkNext = some linkNextArray := rfl

def linkNextFunction (name : String) (a b : Nat) : Option Function :=
  Function.ofSymbol name false linkNextArray (Controller.pass0_attached linkNext_pass0) a b

def linkNextCaller : JavaMethod := ⟨(linkNextFunction "f" 0 3).toList, by decide⟩

def linkNextCallee : JavaMethod := ⟨(linkNextFunction "g" 4 5).toList, by decide⟩

def linkNextEnv : Env :=
  { Env.single {} linkNextCaller with
    getMethodByAddress a :=
      [linkNextCaller, linkNextCallee].find? (fun m => (m.getFunctionByAddress a).isSome) }

def linkNextInsn : Instruction := ⟨.jal, 0x1000, .bgezal, 0, 0, 0, 3⟩

/-- The displacement is taken for an address, at which there is no function. -/
theorem bgezal_misses : Controller.pass0 0x1000 linkNext = some linkNextArray ∧
    create 0x1000 0x04110003 = some linkNextInsn ∧
    linkNextInsn ∈ linkNextCaller.insns linkNextEnv ∧
    linkNextInsn.method linkNextEnv = some linkNextCaller ∧
    Arch.callTarget .bgezal 0x1000 0x04110003 ⟨fun _ => 0, rfl⟩ = some 0x1010 ∧
    FunctionAt linkNextEnv 0x1010 linkNextCallee 0 ∧
    ¬ CallReaches ⟨⟨[], by decide⟩, 0, ()⟩ linkNextEnv [] .arithmetic linkNextCaller linkNextInsn
      .nothing ⟨[], []⟩ 0x04110003 ⟨fun _ => 0, rfl⟩ := by
  have hi : linkNextInsn ∈ linkNextCaller.insns linkNextEnv := by decide
  have hf : FunctionAt linkNextEnv 0x1010 linkNextCallee 0 :=
    ⟨by decide, by decide, _, rfl, by decide⟩
  refine ⟨linkNext_pass0, by decide, hi, by decide, by decide, hf, fun h => ?_⟩
  rw [callReaches_iff (.inl rfl)] at h
  have hinv := h linkNextCallee 0 hf
  have hcode : (linkNextInsn.jalCode linkNextEnv ⟨[], []⟩).1 = [.item .abort] := by decide
  rw [if_neg (by decide)] at hinv
  obtain ⟨l', hx, -⟩ := hinv _ _ _ _ ⟨0, 0, ⟨⟨[], by decide⟩, 0, ()⟩⟩
    (holds_localsFor _ ⟨fun _ => 0, rfl⟩) (provides_self (by decide) _)
    (linkNextCallee.answers_call linkNextEnv _ _ _)
  have hc : (linkNextInsn.jalCode linkNextEnv (Emission.nothing ⟨[], []⟩).2).1 =
    [.item .abort] := hcode
  rw [hc] at hx
  cases hx

end Cibyl
