import Cibyl.CallReturn
import Cibyl.LeafSimulation

namespace Cibyl
set_option autoImplicit true

open Jvm (Item Label Value World Runtime Runs findLabel exec)
open Bc (lowerAll)

namespace JavaMethod

variable {base : Word} {text : List Word} {env : Env} {m : JavaMethod} {ret : Word} {size : Nat}

/-- No instruction counts the register of the function index. -/
theorem LeafOf.fna_unused (h : m.LeafOf base text env) :
    (m.pass1 env).registerUsage.count Reg.fna = 0 := by
  obtain ⟨array, hp, hmade, -⟩ := h.array
  by_contra hne
  have hpos : 0 < (m.pass1 env).registerUsage.count Reg.fna := Nat.pos_of_ne_zero hne
  simp only [pass1, pass1From, h.single, Bool.false_eq_true, if_false] at hpos
  have hfill := ((RegisterUsage.pos_addAll _ _ _).mp hpos).resolve_left (Nat.lt_irrefl 0)
  rcases mem_fills_iff.mp hfill.1 with ⟨i, hi, hc⟩ | ⟨fn, -, hs⟩
  · rcases hmade.counts_special hp hi hc (by decide) with hr | ⟨hr, -⟩ | ⟨hr | hr, -⟩ <;>
      exact absurd hr (by decide)
  · rw [Function.startRegisters] at hs
    split at hs
    · exact absurd hs (by decide)
    · cases hs

/-- The lines of a leaf method up to its slots, and behind them. -/
theorem Leaf.lines (h : m.Leaf env) : ∃ post, m.pass2Lines env =
    m.initRegisters (m.pass1 env) ++ ((if env.config.optimizePartialMemoryOps then
      .item (.goto .javamethodBegin) :: m.emitSubroutines else []) ++
    .item (.label .javamethodBegin) :: ((Emission.all ((m.slots env).map (Entry.pass2 env))
      ⟨[], m.catchHandlers env⟩).1 ++ post)) := by
  obtain ⟨fn, hfn⟩ := h.functions
  have hslots : m.slots env = fn.pass1 env := by rw [slots, hfn, List.flatMap_singleton]
  have htable : m.functionTable = [] := by
    rw [functionTable, h.single]
    rfl
  have hcode : (m.functionsCode env).1 =
      (Emission.all ((m.slots env).map (Entry.pass2 env)) ⟨[], m.catchHandlers env⟩).1 := by
    rw [functionsCode, hfn, hslots, List.map_singleton, Emission.all_cons_lines, functionCode,
      Emission.seq_lines, h.single]
    exact List.append_nil _
  rw [pass2Lines, htable, hcode]
  refine ⟨m.jumptabCode env ++ [.item (.label .exceptionHandlers)] ++
    (m.functionsCode env).2.exceptionHandlers.flatMap (ExceptionHandler.pass2 env) ++
    [.item (.label .functionReturn)] ++ m.returnLocationCode (m.functionsCode env).2 ++
    returnCode env (m.pass1 env), ?_⟩
  simp only [List.append_assoc, List.cons_append, List.nil_append]

/-- The body runs from its first line to its first slot, and initializes the locals before. -/
theorem LeafOf.starts (h : m.LeafOf base text env) (rt : Runtime σ) (cl : Nat → Value)
    (w : World σ) : ∃ l' c, m.At env (m.slots env) c ∧
      Runs rt (m.pass2 env) ⟨m.pass2 env, ⟨[], cl, w⟩⟩ ⟨c, ⟨[], l', w⟩⟩ ∧
      LocalsInitialized (m.pass1 env).regalloc m (m.pass1 env) (List.finRange 86) cl l' := by
  obtain ⟨post, hl⟩ := h.lines
  obtain ⟨l', hx, hinit⟩ := exec_initSteps (m := m) rt w
    (fun hpos => absurd hpos (by rw [h.fna_unused]; decide))
    (RegisterAllocator.setAllocation_isAllocated (m.pass1 env).registerUsage) (List.finRange 86)
    (List.nodup_finRange 86) [] cl
  have hcount := count_fixed env m (l := .javamethodBegin) (by simp)
  rw [hl, ← List.append_assoc] at hcount
  have hfind : findLabel (m.pass2 env) .javamethodBegin =
      some (lowerAll (m.pass1 env).regalloc ((Emission.all ((m.slots env).map (Entry.pass2 env))
        ⟨[], m.catchHandlers env⟩).1 ++ post)) := by
    rw [pass2, Bc.findLabel_lowerAll, hl, ← List.append_assoc, Bc.find_of_once hcount rfl]
    rfl
  refine ⟨l', _, ⟨[], [], _, _, post, by simp, by rw [hl, ← List.append_cons, ← List.append_assoc],
    fun b hb a => ?_, rfl⟩, ?_, hinit⟩
  · have hno := prologue_noOut env m (m.pass1 env)
    have htable : m.functionTable = [] := by
      rw [functionTable, h.single]
      rfl
    rw [htable, List.append_nil] at hno
    exact fun ha => absurd ha (hno b hb a)
  · let rest := (if env.config.optimizePartialMemoryOps then
        Bc.item (.goto .javamethodBegin) :: m.emitSubroutines else []) ++
      .item (.label .javamethodBegin) :: ((Emission.all ((m.slots env).map (Entry.pass2 env))
        ⟨[], m.catchHandlers env⟩).1 ++ post)
    have hbody : m.pass2 env = lowerAll (m.pass1 env).regalloc (m.initRegisters (m.pass1 env)) ++
        lowerAll (m.pass1 env).regalloc rest := by
      rw [pass2, hl, Bc.lowerAll_append]
    have hinits : Runs rt (m.pass2 env) ⟨m.pass2 env, ⟨[], cl, w⟩⟩
        ⟨lowerAll (m.pass1 env).regalloc rest, ⟨[], l', w⟩⟩ := by
      have hrun : Runs rt (m.pass2 env) ⟨_, ⟨[], cl, w⟩⟩ _ :=
        Runs.of_exec hx (lowerAll (m.pass1 env).regalloc rest)
      exact (congrArg (fun c => Runs rt (m.pass2 env) ⟨c, ⟨[], cl, w⟩⟩ _) hbody).mpr hrun
    refine hinits.trans ?_
    simp only [rest]
    split
    · exact Runs.goto hfind _ _
    · exact Runs.label _ _ _

/-- The locals of a call hold the registers that are passed; the other registers of the method
are those that its locals start with. -/
structure Called (env : Env) (m : JavaMethod) (regs : RegFile) (ret : Word) (cl : Nat → Value) :
    Prop where
  passed : ∀ i (h : i < (m.pass1 env).registersToPass.length),
    cl i = .int (regs.get (m.pass1 env).registersToPass[i])
  others : ∀ r, r ∈ [Reg.v0, Reg.v1] ∨ 0 < (m.pass1 env).registerUsage.count r →
    r ∉ (m.pass1 env).registersToPass → r ≠ Reg.ra → regs.get r = 0
  ra : regs.get Reg.ra = ret

theorem argument_initial (hr : r ∉ RegisterAllocator.initialRegisters) (env : Env)
    (m : JavaMethod) : (m.pass1 env).registerIsArgument r = false := by
  rw [Bool.eq_false_iff]
  intro h
  rw [MethodPass1.registerIsArgument, List.contains_iff_mem] at h
  exact hr ((m.possibleArguments_prefix env _).subset h)

theorem Called.carries (hcall : m.Called env regs ret cl) (h : m.Leaf env) (w : World σ)
    (hinit : LocalsInitialized (m.pass1 env).regalloc m (m.pass1 env) (List.finRange 86) cl l') :
    m.Carries env w.memory.size w regs w.memory.flat l' w where
  holds := by
    refine ⟨regs.set Reg.ra 0, fun r n hr ho => ?_, fun r hk => RegFile.get_set_ne regs hk.1 0⟩
    have hu := (RegisterAllocator.regToLocal_isSome _ r).mp ⟨n, hr⟩
    cases ha : (m.pass1 env).registerIsArgument r with
    | true =>
      have hp := ((m.pass1 env).mem_registersToPass r).mpr ⟨ha, hu⟩
      obtain ⟨i, hi, rfl⟩ := List.mem_iff_getElem.mp hp
      have hloc : (m.pass1 env).regalloc.regToLocal _ = some i :=
        RegisterAllocator.regToLocal_prefix _ (m.registersToPass_prefix env _) hi
      rw [hinit.preserved _ _ hr (.inr ha), ← Option.some.inj (hloc.symm.trans hr),
        hcall.passed i hi, RegFile.get_set_ne]
      intro hra
      rw [hra, argument_initial (by decide)] at ha
      cases ha
    | false =>
      have hp : r ∉ (m.pass1 env).registersToPass := by
        intro hp
        rw [(((m.pass1 env).mem_registersToPass r).mp hp).1] at ha
        cases ha
      rw [hinit.initialized r n hr (List.mem_finRange r) ha, initialValue, h.single,
        if_neg (fun hc => by cases hc.1), if_neg ho.1]
      by_cases hra : r = Reg.ra
      · rw [hra, RegFile.get_set_same _ (by decide)]
      · rw [RegFile.get_set_ne _ hra, hcall.others r (.inr hu) hp hra]
  memory := by
    intro n hn
    rw [hinit.initialized _ n hn (List.mem_finRange _) (argument_initial (by decide) env m),
      initialValue, if_neg (fun hc => absurd hc.2 (by decide)), if_pos rfl]
  unused := by
    intro r hr hn
    refine hcall.others r (.inl hr) (fun hp => ?_) ?_
    · obtain ⟨n, hn'⟩ := (RegisterAllocator.regToLocal_isSome _ r).mpr
        (((m.pass1 env).mem_registersToPass r).mp hp).2
      cases hn.symm.trans hn'
    · rintro rfl
      exact absurd hr (by decide)
  world := rfl
  flat := rfl
  size := rfl

theorem LeafOf.address (h : m.LeafOf base text env) :
    ∃ e es, m.slots env = e :: es ∧ e.insn.address = m.address := by
  obtain ⟨array, -, hmade, -⟩ := h.array
  obtain ⟨fn, hfn⟩ := h.functions
  obtain ⟨ha, hsym⟩ := hmade
  obtain ⟨name, start, a, b, hs⟩ := hsym fn (hfn ▸ List.mem_singleton_self fn)
  obtain ⟨e, es, hslice, haddr, -⟩ := Function.ofSymbol_eq hs
  refine ⟨e, es, ?_, ?_⟩
  · rw [h.kept, hfn, List.flatMap_singleton, (Function.ofSymbol_slots hs).1, hslice]
  · rw [JavaMethod.address, hfn, List.foldl_cons, List.foldl_nil, haddr]
    split
    · rfl
    · next hz => exact BitVec.eq_of_toNat_eq (Nat.eq_zero_of_not_pos hz)

/-- The steps of the processor in the function, up to its return. -/
def Moves (base : Word) (text : List Word) (env : Env) (m : JavaMethod) (size : Nat) (ret : Word)
    (s s' : Arch.Machine) : Prop :=
  s.pc ≠ ret ∧ Arch.step size (Arch.fetch base text) (env.jumptabLabels m) s = some s'

theorem LeafOf.reaches (h : m.LeafOf base text env) (hcall : m.Called env regs ret cl)
    (rt : Runtime σ) (w : World σ)
    (hrun : Relation.ReflTransGen (m.Moves base text env w.memory.size ret)
      ⟨m.address, regs, w.memory.flat⟩ s) :
    ∃ d, Runs rt (m.pass2 env) ⟨m.pass2 env, ⟨[], cl, w⟩⟩ d ∧
      m.Simulates env w.memory.size ret w s d := by
  obtain ⟨l', c, hat, hstart, hinit⟩ := h.starts rt cl w
  obtain ⟨e, es, hes, haddr⟩ := h.address
  have hslots : m.slots env = [] ++ e :: es := hes
  obtain ⟨c', henter, hpl⟩ := h.enters hslots (hes ▸ hat)
    (h.begins e (by rw [hes]; rfl)) ret
  have hsim : m.Simulates env w.memory.size ret w ⟨m.address, regs, w.memory.flat⟩
      ⟨c', ⟨[], l', w⟩⟩ := ⟨rfl, hcall.carries h.toLeaf w hinit, hcall.ra, haddr ▸ hpl⟩
  obtain ⟨d, hd, hs⟩ := (h.forward rt w.memory.size ret w).run hsim hrun
  exact ⟨d, (hstart.trans (henter rt _)).trans hd, hs⟩

/-- Back at the return address, the method returns its V0 and V1. -/
theorem LeafOf.hands_back (h : m.LeafOf base text env)
    (hret : ∀ e ∈ m.slots env, e.insn.address ≠ ret) {w : World σ} {d : Jvm.Config σ}
    (hsim : m.Simulates env size ret w s d) (hpc : s.pc = ret) (rt : Runtime σ) :
    ∃ x : Return σ, x.v0 = s.regs.get Reg.v0 ∧ x.v1 = s.regs.get Reg.v1 ∧
      x.world = { w with memory := x.world.memory } ∧ x.world.memory.flat = s.memory ∧
      x.world.memory.size = size ∧
      Jvm.Returns rt (m.pass2 env) d (x.values env (m.pass1 env)).head?
        (x.left env (m.pass1 env)) := by
  obtain ⟨code, stack, l, w'⟩ := d
  obtain ⟨hstack, hcar, -, hpl⟩ := hsim
  dsimp only at hstack hcar hpl
  subst hstack
  refine ⟨⟨s.regs.get Reg.v0, s.regs.get Reg.v1, w'⟩, rfl, rfl, hcar.world, hcar.flat, hcar.size,
    ?_⟩
  have hcode : code = lowerAll (m.pass1 env).regalloc (returnCode env (m.pass1 env)) := by
    cases hpl with
    | @slot before e es hs _ _ ha =>
      exact absurd (ha.trans hpc) (hret e (hs ▸ List.mem_append_right _ (List.mem_cons_self ..)))
    | caller hf => exact Option.some.inj (hf.symm.trans h.findLabel_return)
  have hreads : ∀ r ∈ [Reg.v0, Reg.v1], Reads (m.pass1 env).regalloc l r (s.regs.get r) := by
    intro r hr
    obtain ⟨regs', hl, hag⟩ := hcar.holds
    rw [Reads]
    cases hn : (m.pass1 env).regalloc.regToLocal r with
    | none => exact hcar.unused r hr hn
    | some n =>
      have hk : m.Keeps r ∧ Reg.Ordinary r := by
        simp only [List.mem_cons, List.not_mem_nil, or_false] at hr
        rcases hr with rfl | rfl <;>
          exact ⟨⟨by decide, fun h => absurd h (by decide)⟩, by decide⟩
      rw [← hag r hk.1]
      exact hl r n hn hk.2
  subst hcode
  let x : Return σ := ⟨s.regs.get Reg.v0, s.regs.get Reg.v1, w'⟩
  have h₀ : Reads (m.pass1 env).regalloc l Reg.v0 x.v0 := hreads _ (.head _)
  have h₁ : Reads (m.pass1 env).regalloc l Reg.v1 x.v1 := hreads _ (.tail _ (.head _))
  exact returns_handed h₀ h₁ env (m.pass1 env) (m.pass2 env) []

/-- A loop over the bytes of a string: `lbu $v0, 0($a0)`, `bne $v0, $zero`, `addiu $a0, $a0, 1`. -/
def scanText : List Word := [0x90820000, 0x1440fffe, 0x24840001, 0x03e00008, 0]

def scanArray : List Entry := (Controller.pass0 0x1000 scanText).getD []

theorem scanText_pass0 : Controller.pass0 0x1000 scanText = some scanArray := rfl

def scan : JavaMethod :=
  ⟨(Function.ofSymbol "f" false scanArray (Controller.pass0_attached scanText_pass0) 0 4).toList,
    by decide⟩

/-- The program, where `pass1` has marked the start of the loop. -/
def scanEnv : Env := { Env.single {} scan with isBranchTarget a := a == 0x1000 }

theorem scan_leafOf : scan.LeafOf 0x1000 scanText scanEnv where
  single := by decide
  method := by
    intro i hi
    rfl
  kept := by decide
  begins := by decide
  plain := by decide
  delayed := by decide
  zero := by decide
  ra := by decide
  site := by decide
  jump := by decide
  targets := by
    intro a ha
    have ht : scan.targets scanEnv = [0x1000] := by decide
    rw [ht] at ha
    cases List.mem_singleton.mp ha
    have hhead : ∃ e ∈ (scan.slots scanEnv).head?, e.insn.kind ≠ .delaySlotNop ∧
        e.insn.address = 0x1000 ∧ e.hasLabel scanEnv = true := by decide
    obtain ⟨e, he, h⟩ := hhead
    exact ⟨e, List.mem_of_mem_head? he, h⟩
  ends := ⟨(scan.slots scanEnv).take 3, _, rfl, rfl, .inr rfl⟩
  traceStores := rfl
  untraced := by decide
  fits := by decide
  array := by
    have hm : scan.functions = (Function.ofSymbol "f" false scanArray
      (Controller.pass0_attached scanText_pass0) 0 4).toList := rfl
    exact ⟨scanArray, scanText_pass0, JavaMethod.made_of_symbol hm⟩

/-- The registers of a call with a string at address 0. -/
def scanRegs : RegFile := (RegFile.mk (fun _ => 0#32) rfl).set Reg.ra 0x2000#32

def scanWorld : World Unit := ⟨⟨[0x41000000], by decide⟩, 0, ()⟩

theorem scanRegs_get (h : r ≠ Reg.ra) : scanRegs.get r = 0 := RegFile.get_set_ne _ h _

theorem scan_called : scan.Called scanEnv scanRegs 0x2000 (fun _ => .int 0) where
  passed := by
    intro i hi
    refine congrArg Value.int (scanRegs_get fun hra => ?_).symm
    have ha := ((scan.pass1 scanEnv).mem_registersToPass _).mp (List.getElem_mem hi)
    rw [hra, argument_initial (by decide)] at ha
    cases ha.1
  others := by
    intro r _ _ hr
    exact scanRegs_get hr
  ra := rfl

def scanStep (s : Arch.Machine) : Arch.Machine :=
  (Arch.step 4 (Arch.fetch 0x1000 scanText) [] s).getD s

/-- Two rounds of the loop, and the return. -/
def scanEnd : Arch.Machine :=
  scanStep (scanStep (scanStep (scanStep (scanStep ⟨0x1000, scanRegs, scanWorld.memory.flat⟩))))

theorem scan_moves : Relation.ReflTransGen (scan.Moves 0x1000 scanText scanEnv 4 0x2000)
    ⟨0x1000, scanRegs, scanWorld.memory.flat⟩ scanEnd := by
  refine .head ⟨?_, rfl⟩ (.head ⟨?_, rfl⟩ (.head ⟨?_, rfl⟩ (.head ⟨?_, rfl⟩
    (.head ⟨?_, rfl⟩ .refl))))
  all_goals decide

end JavaMethod
end Cibyl
