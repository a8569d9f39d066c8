import Cibyl.EmitExec
import Cibyl.Pass2

namespace Cibyl
set_option autoImplicit true

open Jvm (Value World Runtime Outcome exec setLocal setLocal_same setLocal_ne popArgs)
open Bc (lowerAll)
open RegisterAllocator (initialRegisters initial sorted ofSorted setAllocation)

namespace MethodPass1

theorem registersFrom_eq (p : MethodPass1) (it : List Reg) :
    p.registersFrom it = (it.takeWhile (· ≠ Reg.zero)).filter p.clobbersReg := by
  induction it with
  | nil =>
    rw [registersFrom]
    rfl
  | cons reg regs ih =>
    by_cases hz : reg = Reg.zero
    · subst hz
      rw [registersFrom, List.takeWhile_cons_of_neg (by decide)]
      exact if_neg (fun h => h rfl)
    · rw [List.takeWhile_cons_of_pos (by simpa using hz), registersFrom]
      by_cases hc : p.clobbersReg reg = true
      · have hn : p.getNextRegisterToPass (reg :: regs) = (reg, regs) :=
          if_neg (fun h => by rw [hc] at h; cases h.2)
        rw [hn, if_pos hz, List.filter_cons_of_pos hc, ih]
      · have hn : p.getNextRegisterToPass (reg :: regs) = p.getNextRegisterToPass regs :=
          if_pos ⟨hz, Bool.not_eq_true _ ▸ hc⟩
        rw [hn, List.filter_cons_of_neg hc, ← ih, registersFrom.eq_def p regs]

theorem countRegisters_eq (p : MethodPass1) (it : List Reg) (n : Nat) :
    p.countRegisters it n = n + (p.registersFrom it).length := by
  fun_induction countRegisters p it n with
  | case1 it n h ih =>
    rw [ih, registersFrom.eq_def p it, if_pos h, List.length_cons]
    omega
  | case2 it n h =>
    rw [registersFrom, if_neg h]
    rfl

theorem nRegistersToPass_eq (p : MethodPass1) : p.nRegistersToPass = p.registersToPass.length :=
  (p.countRegisters_eq _ 0).trans (Nat.zero_add _)

theorem mem_registersToPass (p : MethodPass1) (r : Reg) :
    r ∈ p.registersToPass ↔ p.registerIsArgument r ∧ 0 < p.registerUsage.count r := by
  rw [registersToPass, registersFrom_eq, List.mem_filter, registerIsArgument,
    List.contains_iff_mem, clobbersReg, decide_eq_true_eq]

end MethodPass1

namespace JavaMethod

theorem truncateArguments_prefix (n : Nat) :
    (truncateArguments n).takeWhile (· ≠ Reg.zero) <+: initialRegisters := by
  match n with
  | 0 | 1 | 2 | 3 => decide
  | n + 4 => exact List.prefix_refl _

theorem possibleArguments_eq (env : Env) (m : JavaMethod) (u : RegisterUsage) :
    (m.pass1From env u).possibleArguments =
      ((m.symbol env).bind ElfSymbol.nArgs).elim allArguments truncateArguments := by
  rw [pass1From]
  dsimp only
  cases (m.symbol env).bind ElfSymbol.nArgs <;> rfl

theorem possibleArguments_prefix (env : Env) (m : JavaMethod) (u : RegisterUsage) :
    (m.pass1From env u).possibleArguments.takeWhile (· ≠ Reg.zero) <+: initialRegisters := by
  rw [possibleArguments_eq]
  cases (m.symbol env).bind ElfSymbol.nArgs with
  | none => exact List.prefix_refl _
  | some n => exact truncateArguments_prefix n

/-- What is passed comes first in the order of the allocation. -/
theorem registersToPass_prefix (env : Env) (m : JavaMethod) (u : RegisterUsage) :
    (m.pass1From env u).registersToPass <+: sorted (m.pass1From env u).registerUsage.count := by
  rw [MethodPass1.registersToPass, MethodPass1.registersFrom_eq, sorted]
  exact ((m.possibleArguments_prefix env u).filter _).trans (List.prefix_append _ _)

end JavaMethod

namespace RegisterAllocator

theorem regToLocal_sorted (hn : l.Nodup) (hz : Reg.zero ∉ l) (hi : i < l.length) :
    (ofSorted l hz).regToLocal l[i] = some i := by
  refine List.idxOf?_eq_some_iff.mpr ⟨hi, rfl, ?_⟩
  intro j hj he
  exact Nat.ne_of_lt hj (hn.getElem_inj_iff.mp he)

theorem regToLocal_prefix (u : RegisterUsage) (hp : l <+: sorted u.count) (hi : i < l.length) :
    (setAllocation u).regToLocal l[i] = some i := by
  rw [hp.getElem hi]
  exact regToLocal_sorted (nodup_sorted _) _ _

theorem regToLocal_lt (u : RegisterUsage) (h : (setAllocation u).regToLocal r = some n) :
    n < (setAllocation u).numberOfLocals := by
  obtain ⟨hn, _⟩ := List.idxOf?_eq_some_iff.mp h
  exact hn

theorem regToLocal_surjective (u : RegisterUsage) (h : n < (setAllocation u).numberOfLocals) :
    ∃ r, (setAllocation u).regToLocal r = some n :=
  ⟨_, regToLocal_sorted (nodup_sorted _) _ h⟩

theorem regToLocal_isSome (u : RegisterUsage) (r : Reg) :
    (∃ n, (setAllocation u).regToLocal r = some n) ↔ 0 < u.count r :=
  Option.isSome_iff_exists.symm.trans (setAllocation_isAllocated u r)

end RegisterAllocator

section InitRegisters

variable {ra : RegisterAllocator} {rt : Runtime σ} {w : World σ} {m : JavaMethod}
  {p : MethodPass1}

/-- The value a used register gets when it is not an argument. -/
def JavaMethod.initialValue (m : JavaMethod) (r : Reg) : Value :=
  if m.hasMultipleFunctions ∧ r = Reg.ra then .int (-1)
  else if r = Reg.mem then .ref .memory else .int 0

theorem exec_initRegister (hr : ra.regToLocal r = some n) (bs : List Bc) :
    exec rt (lowerAll ra (m.initRegister r ++ bs)) ⟨s, l, w⟩ =
      exec rt (lowerAll ra bs) ⟨s, setLocal l n (m.initialValue r), w⟩ := by
  rw [JavaMethod.initRegister, JavaMethod.initialValue]
  by_cases hra : m.hasMultipleFunctions ∧ r = Reg.ra
  · obtain ⟨hm, rfl⟩ := hra
    rw [if_pos ⟨hm, rfl⟩, if_pos ⟨hm, rfl⟩, List.cons_append, Bc.exec_pushconst]
    exact Bc.exec_popregister hr (by decide) _ bs
  · rw [if_neg hra, if_neg hra]
    by_cases hmem : r = Reg.mem
    · subst hmem
      rw [if_pos rfl, if_pos rfl, List.cons_append, Bc.lowerAll_op, List.singleton_append,
        Bc.lowerAll_cons, Bc.lower, hr]
      rfl
    · rw [if_neg hmem, if_neg hmem, List.cons_append, Bc.exec_pushconst]
      exact Bc.exec_popregister hr hmem _ bs

/-- The locals after the registers of `rs` had their turn in the loop. -/
structure LocalsInitialized (ra : RegisterAllocator) (m : JavaMethod) (p : MethodPass1)
    (rs : List Reg) (l l' : Nat → Value) : Prop where
  initialized : ∀ r n, ra.regToLocal r = some n → r ∈ rs → p.registerIsArgument r = false →
    l' n = m.initialValue r
  preserved : ∀ r n, ra.regToLocal r = some n → r ∉ rs ∨ p.registerIsArgument r = true →
    l' n = l n

theorem LocalsInitialized.skip {reg : Reg} (h : LocalsInitialized ra m p rs l l')
    (hreg : p.registerIsArgument reg = true ∨ ra.regToLocal reg = none) :
    LocalsInitialized ra m p (reg :: rs) l l' where
  initialized := by
    intro r n hr hm ha
    rcases List.mem_cons.mp hm with rfl | hm
    · rcases hreg with hreg | hreg
      · rw [hreg] at ha
        cases ha
      · rw [hreg] at hr
        cases hr
    · exact h.initialized r n hr hm ha
  preserved := by
    intro r n hr hm
    exact h.preserved r n hr (hm.imp_left (fun hm hc => hm (List.mem_cons_of_mem _ hc)))

theorem LocalsInitialized.cons {reg : Reg} (hreg : ra.regToLocal reg = some k) (hm : reg ∉ rs)
    (ha : p.registerIsArgument reg = false)
    (h : LocalsInitialized ra m p rs (setLocal l k (m.initialValue reg)) l') :
    LocalsInitialized ra m p (reg :: rs) l l' where
  initialized := by
    intro r n hr hmem hna
    rcases List.mem_cons.mp hmem with rfl | hmem
    · cases hreg.symm.trans hr
      rw [h.preserved r k hr (.inl hm), setLocal_same]
    · exact h.initialized r n hr hmem hna
  preserved := by
    intro r n hr hmem
    have hne : n ≠ k := by
      rintro rfl
      cases ra.injective hr hreg
      rcases hmem with hmem | hmem
      · exact hmem (List.mem_cons_self ..)
      · rw [ha] at hmem
        cases hmem
    rw [h.preserved r n hr (hmem.imp_left (fun hm hc => hm (List.mem_cons_of_mem _ hc))),
      setLocal_ne _ _ hne]

theorem exec_initSteps (rt : Runtime σ) (w : World σ)
    (hf : 0 < p.registerUsage.count Reg.fna → m.hasMultipleFunctions = true)
    (hu : ∀ r, ra.regIsAllocated r = true ↔ 0 < p.registerUsage.count r) (rs : List Reg)
    (hn : rs.Nodup) (s : List Value) (l : Nat → Value) :
    ∃ l', exec rt (lowerAll ra (rs.flatMap (m.initStep p))) ⟨s, l, w⟩ = .ok ⟨s, l', w⟩ ∧
      LocalsInitialized ra m p rs l l' := by
  induction rs generalizing l with
  | nil => exact ⟨l, rfl, ⟨fun r n hr hm => (nomatch hm), fun r n hr hm => rfl⟩⟩
  | cons reg rs ih =>
    obtain ⟨hm, hn⟩ := List.nodup_cons.mp hn
    have hfna : ¬ (reg = Reg.fna ∧ p.registerUsage.count reg > 0 ∧
        m.hasMultipleFunctions = false) := by
      rintro ⟨rfl, hp, hmf⟩
      rw [hf hp] at hmf
      cases hmf
    rw [List.flatMap_cons, JavaMethod.initStep, if_neg hfna]
    cases ha : p.registerIsArgument reg with
    | true =>
      obtain ⟨l', he, hl⟩ := ih hn l
      exact ⟨l', he, hl.skip (.inl ha)⟩
    | false =>
      cases hk : ra.regToLocal reg with
      | none =>
        have hp : ¬ p.registerUsage.count reg > 0 := by
          intro hc
          have hs := (hu reg).mpr hc
          rw [RegisterAllocator.regIsAllocated, hk] at hs
          cases hs
        obtain ⟨l', he, hl⟩ := ih hn l
        rw [if_neg hp]
        exact ⟨l', he, hl.skip (.inr hk)⟩
      | some k =>
        have hp : p.registerUsage.count reg > 0 :=
          (hu reg).mp (Option.isSome_iff_exists.mpr ⟨k, hk⟩)
        obtain ⟨l', he, hl⟩ := ih hn (setLocal l k (m.initialValue reg))
        rw [if_pos hp]
        exact ⟨l', (exec_initRegister hk _).trans he, hl.cons hk hm ha⟩

end InitRegisters

section PassRegisters

variable {ra : RegisterAllocator} {rt : Runtime σ} {w : World σ} {regs : RegFile}

/-- What the caller pushes for a register of the callee. -/
def passedValue (regs : RegFile) (idx : Nat) (r : Reg) : Value :=
  if r = Reg.fna then .int (BitVec.ofNat 32 idx) else .int (regs.get r)

theorem exec_passRegisters (rt : Runtime σ) (w : World σ) (idx : Nat) (hl : Holds ra regs l)
    (rs : List Reg) (hr : ∀ r ∈ rs, r ≠ Reg.fna → Readable ra r) (s : List Value) (bs : List Bc) :
    exec rt (lowerAll ra (rs.map (Instruction.passRegister (some idx)) ++ bs)) ⟨s, l, w⟩ =
      exec rt (lowerAll ra bs) ⟨(rs.map (passedValue regs idx)).reverse ++ s, l, w⟩ := by
  induction rs generalizing s with
  | nil => rfl
  | cons r rs ih =>
    have ht := ih (fun r hm => hr r (List.mem_cons_of_mem _ hm))
    rw [List.map_cons, List.cons_append, Instruction.passRegister, List.map_cons,
      List.reverse_cons, List.append_assoc, passedValue]
    by_cases hf : r = Reg.fna
    · simp only [if_pos hf]
      rw [Bc.exec_pushconst, ht]
      rfl
    · simp only [if_neg hf]
      rw [Bc.exec_pushregister hl (hr r (List.mem_cons_self ..) hf), ht]
      rfl

theorem passedValue_ty (regs : RegFile) (idx : Nat) (r : Reg) :
    (passedValue regs idx r).ty = .int := by
  rw [passedValue]
  split <;> rfl

theorem popArgs_ints (vs s : List Value) (h : ∀ v ∈ vs, v.ty = .int) :
    popArgs (List.replicate vs.length .int) (vs.reverse ++ s) = some (vs, s) := by
  have ht : (vs.reverse ++ s).take (List.replicate vs.length Jvm.Ty.int).length = vs.reverse := by
    rw [List.length_replicate, List.take_left' (List.length_reverse ..)]
  have hd : (vs.reverse ++ s).drop (List.replicate vs.length Jvm.Ty.int).length = s := by
    rw [List.length_replicate, List.drop_left' (List.length_reverse ..)]
  have hm : vs.map Value.ty = List.replicate vs.length .int :=
    List.map_eq_replicate_iff.mpr h
  rw [popArgs, ht, hd, List.reverse_reverse]
  exact if_pos hm

end PassRegisters

/-- Caller and callee agree on the registers that are passed and on the locals they arrive in. -/
structure ArgumentsAgree (env : Env) (m : JavaMethod) (p : MethodPass1) : Prop where
  passed : ∀ i (h : i < p.registersToPass.length),
    p.regalloc.regToLocal p.registersToPass[i] = some i
  signature : m.getJavaMethodName env p = m.name ++ "(" ++
    String.ofList (List.replicate p.registersToPass.length 'I' ++
      [')', JavaMethod.returnType env p])
  allocated : ∀ r, (∃ n, p.regalloc.regToLocal r = some n) ↔ 0 < p.registerUsage.count r
  distinct : ∀ r r' n, p.regalloc.regToLocal r = some n → p.regalloc.regToLocal r' = some n →
    r = r'
  limit : ∀ n, (∃ r, p.regalloc.regToLocal r = some n) ↔ n < p.limitLocals
  arrive : ∀ {σ : Type} (rt : Runtime σ) (w : World σ) (caller : RegisterAllocator)
    (regs : RegFile) (l : Nat → Value) (s : List Value) (insn : Instruction) (addr : Word)
    (idx : Nat), insn.kind = .jal ∨ insn.kind = .jalReturn →
    (∀ r ∈ insn.fillSources env, r ≠ Reg.zero → caller.regIsAllocated r) →
    Holds caller regs l → m.getFunctionIndexByAddress addr = some idx →
    ∃ args, exec rt (lowerAll caller (Instruction.passCode m p addr)) ⟨s, l, w⟩ =
        .ok ⟨args.reverse ++ s, l, w⟩ ∧
      popArgs (List.replicate p.nRegistersToPass .int) (args.reverse ++ s) = some (args, s) ∧
      ∀ cl : Nat → Value, (∀ i (h : i < args.length), cl i = args[i]) →
        ∃ cl', exec rt (lowerAll p.regalloc (m.initRegisters p)) ⟨[], cl, w⟩ =
            .ok ⟨[], cl', w⟩ ∧
          ∀ r n, p.regalloc.regToLocal r = some n → cl' n =
            if r ∈ p.registersToPass then passedValue regs idx r else m.initialValue r

/-- A `jal` counts all the registers it may have to pass. -/
theorem jal_readable {insn : Instruction} {caller : RegisterAllocator}
    (hk : insn.kind = .jal ∨ insn.kind = .jalReturn)
    (ha : ∀ r ∈ insn.fillSources env, r ≠ Reg.zero → caller.regIsAllocated r)
    (hr : r ∈ initialRegisters) (hf : r ≠ Reg.fna) : Readable caller r := by
  have hs : ∀ r ∈ initialRegisters, r ≠ Reg.fna →
      r ∈ [insn.rs, Reg.a0, Reg.a1, Reg.a2, Reg.a3, Reg.sp] ∧ r ≠ Reg.zero ∧ Reg.Ordinary r := by
    intro r hr hf
    simp only [initialRegisters, List.mem_cons, List.not_mem_nil, or_false] at hr
    rcases hr with rfl | rfl | rfl | rfl | rfl | rfl
    case inr.inl => exact absurd rfl hf
    all_goals exact ⟨List.mem_cons_of_mem _ (by decide), by decide, by decide⟩
  obtain ⟨hm, hz, hmem⟩ := hs r hr hf
  refine ⟨.inr (ha r ?_ hz), hmem⟩
  rcases hk with hk | hk
  all_goals
    rw [Instruction.fillSources, hk]
    exact List.mem_append_left _ hm

theorem argument_passing (env : Env) (m : JavaMethod) (u : RegisterUsage)
    (hf : 0 < u.count Reg.fna → m.hasMultipleFunctions = true) :
    ArgumentsAgree env m (m.pass1From env u) := by
  have hp := m.registersToPass_prefix env u
  have hi := m.possibleArguments_prefix env u
  have huf : 0 < (m.pass1From env u).registerUsage.count Reg.fna →
      m.hasMultipleFunctions = true := by
    intro h
    cases hm : m.hasMultipleFunctions with
    | true => rfl
    | false =>
      simp only [JavaMethod.pass1From, hm, Bool.false_eq_true, if_false] at h
      rw [hf h] at hm
      cases hm
  generalize m.pass1From env u = p at hp hi huf
  have hpass : ∀ i (h : i < p.registersToPass.length),
      p.regalloc.regToLocal p.registersToPass[i] = some i :=
    fun i h => RegisterAllocator.regToLocal_prefix _ hp h
  refine ⟨hpass, ?_, RegisterAllocator.regToLocal_isSome _, fun r r' n => p.regalloc.injective,
    fun n => ⟨fun ⟨r, h⟩ => RegisterAllocator.regToLocal_lt _ h,
      RegisterAllocator.regToLocal_surjective _⟩, ?_⟩
  · rw [JavaMethod.getJavaMethodName, p.nRegistersToPass_eq]
  · intro σ rt w caller regs l s insn addr idx hk ha hl hidx
    have hmem : ∀ r ∈ p.registersToPass, r ∈ initialRegisters := by
      intro r hr
      have hia := ((p.mem_registersToPass r).mp hr).1
      rw [MethodPass1.registerIsArgument, List.contains_iff_mem] at hia
      exact hi.subset hia
    refine ⟨p.registersToPass.map (passedValue regs idx), ?_, ?_, ?_⟩
    · rw [Instruction.passCode, hidx]
      have he := exec_passRegisters rt w idx hl p.registersToPass
        (fun r hr hf => jal_readable hk ha (hmem r hr) hf) s []
      rwa [List.append_nil] at he
    · have hv : ∀ v ∈ p.registersToPass.map (passedValue regs idx), v.ty = .int := by
        intro v hv
        obtain ⟨r, _, rfl⟩ := List.mem_map.mp hv
        exact passedValue_ty regs idx r
      have hpop := popArgs_ints _ s hv
      rwa [List.length_map, ← p.nRegistersToPass_eq] at hpop
    · intro cl hcl
      obtain ⟨cl', he, hin⟩ := exec_initSteps rt w huf
        (RegisterAllocator.setAllocation_isAllocated p.registerUsage) (List.finRange 86)
        (List.nodup_finRange 86) [] cl
      refine ⟨cl', he, ?_⟩
      intro r n hr
      have hu := (RegisterAllocator.regToLocal_isSome _ r).mp ⟨n, hr⟩
      cases hia : p.registerIsArgument r with
      | true =>
        have hrp := (p.mem_registersToPass r).mpr ⟨hia, hu⟩
        obtain ⟨i, hil, rfl⟩ := List.mem_iff_getElem.mp hrp
        have hin' : i = n := Option.some.inj ((hpass i hil).symm.trans hr)
        subst hin'
        rw [if_pos hrp, hin.preserved _ _ hr (.inr hia), hcl i (by rwa [List.length_map]),
          List.getElem_map]
      | false =>
        have hrp : r ∉ p.registersToPass := by
          intro hc
          rw [((p.mem_registersToPass r).mp hc).1] at hia
          cases hia
        rw [if_neg hrp]
        exact hin.initialized r n hr (List.mem_finRange r) hia

theorem argument_passing_leaf :
    ArgumentsAgree (.single {} (.ofInsn (InstructionFactory.createNop 0x1000)))
      (.ofInsn (InstructionFactory.createNop 0x1000))
      (JavaMethod.pass1From (.single {} (.ofInsn (InstructionFactory.createNop 0x1000)))
        (.ofInsn (InstructionFactory.createNop 0x1000))
        (RegisterUsage.empty.addAll [Reg.v0, Reg.a1, Reg.sp])) :=
  argument_passing _ _ _ (by decide)

end Cibyl
