import Cibyl.MemoryCorrect
import Cibyl.WildAccess

namespace Cibyl
set_option autoImplicit true

open Jvm (Item Op Value World Runtime Runs exec ofMemM setLocal setLocal_ne WriteWhat ReadWhat)
open Emit (op pushaddress)
open Bc (lowerAll)
open InstructionFactory

/-- The code raises an array-index exception and leaves the memory as it was. -/
def Faults (rt : Runtime σ) (body : List Item) (ra : RegisterAllocator) (l : Nat → Value)
    (w : World σ) (code : List Bc) : Prop :=
  ∀ rest s, ∃ d w', Runs rt body ⟨lowerAll ra code ++ rest, ⟨s, l, w⟩⟩ d ∧
    Jvm.step rt body d = .throw .arrayIndexOutOfBounds d.frame w' ∧ w'.memory = w.memory

/-- The code does with the memory what `x` does and nothing else. -/
def Acts (rt : Runtime σ) (ra : RegisterAllocator) (l : Nat → Value) (w : World σ)
    (code : List Bc) (x : MemM Unit) : Prop :=
  ∀ s, exec rt (lowerAll ra code) ⟨s, l, w⟩ = ofMemM s l w (fun _ => []) x

section

variable {ra : RegisterAllocator} {rt : Runtime σ} {w : World σ} {body : List Item}
  {l : Nat → Value} {regs : RegFile} {insn : Instruction} {env : Env}

theorem Acts.append (h : Acts rt ra l w c x)
    (h' : ∀ m, Acts rt ra l { w with memory := m } d y) :
    Acts rt ra l w (c ++ d) (x >>= fun _ => y) := by
  intro s
  rw [Bc.lowerAll_append, Jvm.exec_append, h s, ofMemM, ofMemM]
  cases he : x w.memory with
  | mk r m =>
    cases r with
    | ok a =>
      rw [MemM.bind_of_ok he]
      exact h' m s
    | error e =>
      rw [MemM.bind_of_error he]
      rfl

theorem faults_of_throw
    (h : ∀ s, exec rt (lowerAll ra code) ⟨s, l, w⟩ = .throw .arrayIndexOutOfBounds w) :
    Faults rt body ra l w code := by
  intro rest s
  obtain ⟨d, hr, hd⟩ := Runs.of_throw body (h s) rest
  exact ⟨d, w, hr, hd, rfl⟩

theorem Acts.faults_iff (h : Acts rt ra l w code x) :
    Faults rt body ra l w code ↔ Rejected x w.memory := by
  have hs := h []
  constructor
  · intro hf
    obtain ⟨d, w', hr, hd, hm⟩ := hf [] []
    have hdh : ∀ g, Jvm.step rt body d ≠ .run g := by
      intro g hg
      cases hd.symm.trans hg
    rw [ofMemM] at hs
    cases he : x w.memory with
    | mk r m =>
      rw [he] at hs
      cases r with
      | ok a =>
        have hc := Runs.halted_unique hr (Runs.of_exec hs []) hdh (fun _ h => by cases h)
        subst hc
        cases hd
      | error e =>
        obtain ⟨g, hg, hge⟩ := Runs.of_throw body hs []
        have hgh : ∀ g', Jvm.step rt body g ≠ .run g' := by
          intro g' hg'
          cases hge.symm.trans hg'
        have hc := Runs.halted_unique hr hg hdh hgh
        subst hc
        rw [hge] at hd
        injection hd with h₁ h₂ h₃
        rw [← h₃] at hm
        rw [Rejected, he, h₁]
        exact congrArg _ hm
  · intro hx
    apply faults_of_throw
    intro s
    rw [h s, ofMemM, hx]

theorem exec_nil_bind (o : Jvm.Outcome σ) : o.bind (exec rt []) = o := by
  cases o <;> rfl

theorem exec_op_throw (h : Op.exec rt o f = .throw e w') (bs : List Bc) :
    exec rt (lowerAll ra (op o :: bs)) f = .throw e w' := by
  rw [Bc.lowerAll_op, Jvm.exec_op, h, Jvm.Outcome.bind_throw]

theorem exec_iaload_outside (h : ¬ w.memory.InBounds i) (s : List Value) :
    Op.exec rt .iaload ⟨.int i :: .ref .memory :: s, l, w⟩ = .throw .arrayIndexOutOfBounds w := by
  rw [Op.exec, ofMemM, Memory.load_error h]

theorem exec_memoryRead_outside {what : ReadWhat} (h : Outside w.memory a) (s : List Value) :
    Op.exec rt (.memoryRead what) ⟨.int a :: s, l, w⟩ = .throw .arrayIndexOutOfBounds w := by
  rw [Op.exec, ofMemM, read_rejected what h]

theorem exec_loadSubroutine_outside (z : WordSize) (isSigned : Bool)
    (hk : ra.regToLocal Reg.madr = some k) (hm : HoldsMemory ra l)
    (hi : ¬ w.memory.InBounds (iushr a 2)) (c : List Item)
    (s : List Value) :
    exec rt (lowerAll ra (JavaMethod.loadSubroutineOps z isSigned)) ⟨.ret c :: .int a :: s, l, w⟩ =
      .throw .arrayIndexOutOfBounds w := by
  rw [exec_subroutineIndex isSigned hk hm, List.cons_append,
    exec_op_throw (exec_iaload_outside hi _)]

theorem lwCode_faults (hl : Holds ra regs l) (hm : HoldsMemory ra l) (hs : Readable ra insn.rs)
    (hra : insn.skipsRa env = false) (h : Outside w.memory (regs.get insn.rs + insn.extra)) :
    Faults rt body ra l w (insn.lwCode env) := by
  apply faults_of_throw
  intro s
  obtain ⟨n, hn, hv⟩ := hm
  rw [Instruction.lwCode, hra, if_neg Bool.false_ne_true, List.append_assoc, List.singleton_append,
    Bc.exec_pushmem hn hv, exec_pushindex hl hs,
    exec_op_throw (exec_iaload_outside (wordIndex_outside h) s)]

theorem partialLoad_faults (hl : Holds ra regs l) (hm : HoldsMemory ra l)
    (hs : Readable ra insn.rs) (hin : insn.inlinesPartial env = true)
    (hra : insn.skipsRa env = false) (h : Outside w.memory (regs.get insn.rs + insn.extra)) :
    Faults rt body ra l w (insn.partialLoadCode env z isSigned) := by
  apply faults_of_throw
  intro s
  obtain ⟨n, hn, hv⟩ := hm
  rw [Instruction.partialLoadCode, hin, hra]
  simp only [Bool.not_true, Bool.false_eq_true, if_false, List.append_assoc, List.cons_append,
    List.nil_append]
  rw [Bc.exec_pushmem hn hv, exec_pushindex hl hs,
    exec_op_throw (exec_iaload_outside (wordIndex_outside h) s)]

theorem inlineStore_faults (hl : Holds ra regs l) (hm : HoldsMemory ra l)
    (hs : Readable ra insn.rs) (hin : insn.inlinesPartial env = true)
    (hra : insn.skipsRa env = false) (h : Outside w.memory (regs.get insn.rs + insn.extra)) :
    Faults rt body ra l w (insn.partialStoreCode env z) := by
  apply faults_of_throw
  intro s
  obtain ⟨n, hn, hv⟩ := hm
  rw [Instruction.partialStoreCode, hin, hra]
  simp only [Bool.not_true, Bool.false_eq_true, if_false, List.append_assoc, List.cons_append,
    List.nil_append]
  rw [Bc.exec_pushmem hn hv, exec_pushindex hl hs, exec_op (Jvm.exec_dup2_int _ _ _ _ _ rfl),
    exec_op_throw (exec_iaload_outside (wordIndex_outside h) _)]

/-- A load through a routine of the runtime. -/
theorem loadCall_faults (hl : Holds ra regs l) (hs : Readable ra insn.rs)
    (hj : ¬ (env.config.optimizePartialMemoryOps ∧ insn.opcode ≠ .lwl ∧ insn.opcode ≠ .lwr))
    (h : Outside w.memory (regs.get insn.rs + insn.extra)) :
    Faults rt body ra l w (insn.loadXXCode env what) := by
  apply faults_of_throw
  intro s
  rw [Instruction.loadXXCode, if_neg hj, exec_pushaddress hl hs,
    exec_op_throw (exec_memoryRead_outside h s)]

/-- A load through a subroutine of the method. -/
theorem loadJsr_faults (hl : Holds ra regs l) (hm : HoldsMemory ra l) (hs : Readable ra insn.rs)
    (hk : ra.regToLocal Reg.madr = some k)
    (hj : env.config.optimizePartialMemoryOps ∧ insn.opcode ≠ .lwl ∧ insn.opcode ≠ .lwr)
    (h : Outside w.memory (regs.get insn.rs + insn.extra))
    (hf : Jvm.findLabel body (.memoryRead (z.readWhat isSigned)) =
      some (lowerAll ra (JavaMethod.loadSubroutineBody z isSigned) ++ c)) :
    Faults rt body ra l w (insn.loadXXCode env (z.readWhat isSigned)) := by
  intro rest s
  have hp : exec rt (lowerAll ra (pushaddress insn.rs insn.extra)) ⟨s, l, w⟩ =
      .ok ⟨.int (regs.get insn.rs + insn.extra) :: s, l, w⟩ := by
    have he : exec rt _ ⟨s, l, w⟩ = _ := exec_pushaddress hl hs insn.extra s []
    rwa [List.append_nil] at he
  have hi : ¬ w.memory.InBounds (iushr (regs.get insn.rs + insn.extra) 2) := by
    rw [Memory.inBounds_iff, iushr_two_toNat]
    rw [Outside, Memory.size] at h
    omega
  rw [Instruction.loadXXCode, if_pos hj, Bc.lowerAll_append, List.append_assoc, Bc.lowerAll_cons,
    List.append_assoc]
  obtain ⟨d, hr, hd⟩ := Runs.of_throw body (exec_loadSubroutine_outside z isSigned hk hm hi
    (lowerAll ra [.popregister insn.rt] ++ rest) s) (lowerAll ra [.ret Reg.madr] ++ c)
  refine ⟨d, w, (Runs.of_exec hp _).trans (Runs.head ?_ hr), hd, rfl⟩
  rw [JavaMethod.loadSubroutineBody, Bc.lowerAll_append, List.append_assoc] at hf
  simp only [Bc.lower, List.singleton_append, Jvm.step, Jvm.jump, hf]

theorem storeCall_acts (hl : Holds ra regs l) (hs : Readable ra insn.rs)
    (ht : Readable ra insn.rt) (what : WriteWhat) :
    Acts rt ra l w (pushaddress insn.rs insn.extra ++
      [.pushregister insn.rt, op (.memoryWrite what)])
      (what.call (regs.get insn.rs + insn.extra) (regs.get insn.rt)) := by
  intro s
  rw [exec_pushaddress hl hs, Bc.exec_pushregister hl ht, Bc.lowerAll_op, Jvm.exec_op,
    Bc.lowerAll_nil]
  exact exec_nil_bind _

theorem traceStore_acts (hl : Holds ra regs l) (hs : Readable ra insn.rs)
    (ht : Readable ra insn.rt) (what : WriteWhat) :
    Acts rt ra l w (insn.traceStore what)
      (what.callPc insn.address (regs.get insn.rs + insn.extra) (regs.get insn.rt)) := by
  intro s
  rw [Instruction.traceStore, List.append_assoc, List.singleton_append, Bc.exec_pushconst,
    exec_pushaddress hl hs, Bc.exec_pushregister hl ht, Bc.lowerAll_op, Jvm.exec_op,
    Bc.lowerAll_nil]
  exact exec_nil_bind _

theorem wordStore_acts (hl : Holds ra regs l) (hm : HoldsMemory ra l) (hs : Readable ra insn.rs)
    (ht : Readable ra insn.rt) :
    Acts rt ra l w ([.pushregister Reg.mem] ++ Emit.pushindex insn.rs insn.extra ++
        [.pushregister insn.rt, op .iastore])
      (Memory.store (wordIndex (regs.get insn.rs) insn.extra) (regs.get insn.rt)) := by
  intro s
  obtain ⟨n, hn, hv⟩ := hm
  rw [List.append_assoc, List.singleton_append, Bc.exec_pushmem hn hv, exec_pushindex hl hs,
    Bc.exec_pushregister hl ht, Bc.lowerAll_op, Jvm.exec_op, Bc.lowerAll_nil]
  exact exec_nil_bind _

theorem storeXX_faults_iff (hl : Holds ra regs l) (hs : Readable ra insn.rs)
    (ht : Readable ra insn.rt) (what : WriteWhat)
    (h : Outside w.memory (regs.get insn.rs + insn.extra)) :
    Faults rt body ra l w (insn.storeXXCode env what) ↔
      ((env.config.traceStores = true →
          HeaderReadable w.memory (regs.get insn.rs + insn.extra)) →
        what.Rejects w.memory (regs.get insn.rs + insn.extra) (regs.get insn.rt)) := by
  have hc (m : Memory) := @storeCall_acts σ ra rt { w with memory := m } l regs insn hl hs ht what
  rw [Instruction.storeXXCode, List.append_assoc]
  cases htr : env.config.traceStores with
  | false =>
    rw [if_neg Bool.false_ne_true, List.nil_append, (hc w.memory).faults_iff, what.rejects_iff h]
    exact ⟨fun hr _ => hr, fun hr => hr (fun h => by cases h)⟩
  | true =>
    rw [if_pos rfl, ((traceStore_acts hl hs ht what).append hc).faults_iff,
      what.traced_rejects_iff h, forall_prop_of_true rfl]

theorem sw_faults_iff (hl : Holds ra regs l) (hm : HoldsMemory ra l) (hs : Readable ra insn.rs)
    (ht : Readable ra insn.rt) (hra : insn.skipsRa env = false)
    (h : Outside w.memory (regs.get insn.rs + insn.extra)) :
    Faults rt body ra l w (insn.swCode env) ↔
      (env.config.traceStores = true → HeaderReadable w.memory (regs.get insn.rs + insn.extra) →
        Truncates (regs.get insn.rs + insn.extra) →
        Lanes.write 4 w.memory.flat 0 (regs.get insn.rt) = w.memory.flat) := by
  have hc (m : Memory) := @wordStore_acts σ ra rt { w with memory := m } l regs insn hl hm hs ht
  have hi (m : Memory) (hsz : m.size = w.memory.size) :
      ¬ m.InBounds (wordIndex (regs.get insn.rs) insn.extra) :=
    wordIndex_outside (by rw [Outside, hsz]; exact h)
  rw [Instruction.swCode, hra, if_neg Bool.false_ne_true, List.append_assoc, List.append_assoc,
    ← List.append_assoc [_]]
  cases htr : env.config.traceStores with
  | false =>
    rw [if_neg Bool.false_ne_true, List.nil_append, (hc w.memory).faults_iff]
    exact ⟨fun _ => (fun h => by cases h), fun _ => Memory.store_error (hi _ rfl)⟩
  | true =>
    rw [if_pos rfl, ((traceStore_acts hl hs ht .word).append hc).faults_iff,
      traced_sw_rejects_iff h hi, forall_prop_of_true rfl]

/-- A load in any form raises the exception. -/
theorem partialLoad_any_faults {m : JavaMethod} (hi : insn ∈ m.insns env)
    (hk : insn.kind = .partialLoad z isSigned) (ho : insn.opcode = z.loadOpcode isSigned)
    (hs : Readable (m.pass1 env).regalloc insn.rs)
    (hl : Holds (m.pass1 env).regalloc regs l) (hm : HoldsMemory (m.pass1 env).regalloc l)
    (hra : insn.inlinesPartial env = true → insn.skipsRa env = false)
    (h : Outside w.memory (regs.get insn.rs + insn.extra)) :
    Faults rt (m.pass2 env) (m.pass1 env).regalloc l w
      (insn.partialLoadCode env z isSigned) := by
  cases hin : insn.inlinesPartial env with
  | true => exact partialLoad_faults hl hm hs hin (hra hin) h
  | false =>
    have hcode : insn.partialLoadCode env z isSigned =
        insn.loadXXCode env (z.readWhat isSigned) := by
      rw [Instruction.partialLoadCode, hin]
      rfl
    rw [hcode]
    by_cases hj : env.config.optimizePartialMemoryOps ∧ insn.opcode ≠ .lwl ∧ insn.opcode ≠ .lwr
    · have hmadr : Reg.madr ∈ insn.fillDestinations env := by
        rw [Instruction.fillDestinations, hk, if_pos hj.1]
        exact .tail _ (.head _)
      obtain ⟨k, hkl⟩ := Option.isSome_iff_exists.mp
        (JavaMethod.counted hi (.inl hmadr) (by decide))
      obtain ⟨c, hc⟩ := JavaMethod.findLabel_subroutine hj.1 hi hk ho
      exact loadJsr_faults hl hm hs hkl hj h hc
    · exact loadCall_faults hl hs hj h

end

/-- An access at `a` outside the array, with `v` to store, raises its exception before it has
changed anything. -/
def Instruction.Withstands (env : Env) (insn : Instruction) (m : Memory) (a v : Word) : Prop :=
  match insn.kind with
  | .sw =>
    env.config.traceStores = true → HeaderReadable m a → Truncates a →
      Lanes.write 4 m.flat 0 v = m.flat
  | .storeXX what => (env.config.traceStores = true → HeaderReadable m a) → what.Rejects m a v
  | .partialStore z =>
    insn.inlinesPartial env = false → (env.config.traceStores = true → HeaderReadable m a) →
      z.writeWhat.Rejects m a v
  | _ => True

theorem access_cases (ho : o ∈ accessOpcodes) : o ∈ memoryOpcodes ∨ o = .lwl ∨ o = .swl := by
  rcases List.mem_append.mp ho with h | h
  · exact .inl h
  · rcases List.mem_cons.mp h with h | h
    · exact .inr (.inl h)
    · exact .inr (.inr (List.mem_singleton.mp h))

theorem MemoryKind.rs_counted {insn : Instruction} (h : MemoryKind o insn.kind) (env : Env) :
    insn.rs ∈ insn.fillSources env := by
  rw [Instruction.fillSources]
  generalize insn.kind = k at h
  cases h <;> exact .head _

/-- An access outside the array raises an array-index exception without damage, apart from
stores through the routines that divide a negative address by four. -/
theorem wild_access_faults_iff {m : JavaMethod} {regs : RegFile} {l : Nat → Value} {w : World σ}
    (hc : create address word = some insn) (ho : insn.opcode ∈ accessOpcodes)
    (hi : insn ∈ m.insns env) (hra : insn.indexed env = true → insn.skipsRa env = false)
    (hl : Holds (m.pass1 env).regalloc regs l) (hm : HoldsMemory (m.pass1 env).regalloc l)
    (h : Outside w.memory (Arch.effective word regs)) (rt : Runtime σ) :
    Faults rt (m.pass2 env) (m.pass1 env).regalloc l w (insn.code env) ↔
      insn.Withstands env w.memory (Arch.effective word regs) (regs.get (Arch.rt word)) := by
  obtain ⟨-, hrs, hrt, hxt, hof⟩ := create_access hc ho
  have heff : Arch.effective word regs = regs.get insn.rs + insn.extra := by
    rw [Arch.effective, hrs, hxt]
  have hors : Reg.Ordinary insn.rs := hrs ▸ Arch.reg_ordinary word 21
  have hort : Reg.Ordinary insn.rt := hrt ▸ Arch.reg_ordinary word 16
  rw [heff] at h
  rw [heff, ← hrt, Instruction.code, Instruction.Withstands]
  rcases access_cases ho with ho | ho | ho
  · have hmk := memoryKind_of_create hof ho
    have hs := readable_of_counted hi (hmk.rs_counted env) hors
    generalize hk : insn.kind = k at hmk
    generalize ho : insn.opcode = o at hmk
    cases hmk with
    | lw =>
      have hin : insn.indexed env = true := by
        rw [Instruction.indexed, hk]
      exact iff_of_true (lwCode_faults hl hm hs (hra hin) h) trivial
    | sw =>
      have hin : insn.indexed env = true := by
        rw [Instruction.indexed, hk]
      have hts : insn.rt ∈ insn.fillSources env := by
        rw [Instruction.fillSources, hk]
        exact .tail _ (.head _)
      exact sw_faults_iff hl hm hs (readable_of_counted hi hts hort) (hra hin) h
    | load z isSigned =>
      have hin : insn.indexed env = insn.inlinesPartial env := by
        rw [Instruction.indexed, hk]
      rw [hin] at hra
      exact iff_of_true (partialLoad_any_faults hi hk ho hs hl hm hra h) trivial
    | store z =>
      have hin : insn.indexed env = insn.inlinesPartial env := by
        rw [Instruction.indexed, hk]
      have hts : insn.rt ∈ insn.fillSources env := by
        rw [Instruction.fillSources, hk]
        exact .tail _ (.head _)
      rw [hin] at hra
      dsimp only
      cases hp : insn.inlinesPartial env with
      | true => exact iff_of_true (inlineStore_faults hl hm hs hp (hra hp) h) fun h => by cases h
      | false =>
        have hcode : insn.partialStoreCode env z = insn.storeXXCode env z.writeWhat := by
          rw [Instruction.partialStoreCode, hp]
          rfl
        rw [hcode, forall_prop_of_true rfl]
        exact storeXX_faults_iff hl hs (readable_of_counted hi hts hort) z.writeWhat h
  · rw [ho] at hof
    have hk : insn.kind = .loadXX .wordLeft := by
      cases hof
      rfl
    have hs : insn.rs ∈ insn.fillSources env := by
      rw [Instruction.fillSources, hk]
      exact .head _
    rw [hk]
    refine iff_of_true (loadCall_faults hl (readable_of_counted hi hs hors) ?_ h) trivial
    exact fun hj => hj.2.1 ho
  · rw [ho] at hof
    have hk : insn.kind = .storeXX .wordLeft := by
      cases hof
      rfl
    have hs : insn.rs ∈ insn.fillSources env ∧ insn.rt ∈ insn.fillSources env := by
      rw [Instruction.fillSources, hk]
      exact ⟨.head _, .tail _ (.head _)⟩
    rw [hk]
    exact storeXX_faults_iff hl (readable_of_counted hi hs.1 hors)
      (readable_of_counted hi hs.2 hort) .wordLeft h

/-- `sb $a1, -1($zero)`, with the routines of the runtime. -/
def sbInsn : Instruction := ⟨.partialStore .byte, 0x1000, .sb, 0, Reg.a1, 0, -1⟩

def sbEnv : Env := .single { optimizeInlines := false } (.ofInsn sbInsn)

def sbRegs : RegFile := ⟨fun r => if r = Reg.a1 then 0x7f else 0, rfl⟩

def sbWorld : World Unit := ⟨⟨[0], by decide⟩, 0, ()⟩

def wildRegs : RegFile := ⟨fun r => if r = Reg.a0 then -4 else 0, rfl⟩

theorem wild_access_faults_iff_lb :
    Faults Runtime.absent ((JavaMethod.ofInsn lbInsn).pass2 lbEnv)
      ((JavaMethod.ofInsn lbInsn).pass1 lbEnv).regalloc
      (localsFor ((JavaMethod.ofInsn lbInsn).pass1 lbEnv).regalloc wildRegs) lbWorld
      (lbInsn.code lbEnv) := by
  have hc : create 0x1000 0x80820003 = some lbInsn := rfl
  have hi : lbInsn ∈ (JavaMethod.ofInsn lbInsn).insns lbEnv := by decide
  have hmem : (JavaMethod.pass1 lbEnv _).regalloc.regIsAllocated Reg.mem = true :=
    JavaMethod.counted hi (by decide) (by decide)
  have h : Outside lbWorld.memory (Arch.effective 0x80820003 wildRegs) := by decide
  exact (wild_access_faults_iff hc (by decide) hi (by decide) (holds_localsFor _ wildRegs)
    (holdsMemory_localsFor hmem wildRegs) h Runtime.absent).mpr trivial

/-- The byte for address -1 goes to word 0, and no exception is raised. -/
theorem sb_minus_one_stores : create 0x1000 0xa005ffff = some sbInsn ∧
    sbInsn ∈ (JavaMethod.ofInsn sbInsn).insns sbEnv ∧
    Outside sbWorld.memory (Arch.effective 0xa005ffff sbRegs) ∧
    (∀ s, exec Runtime.absent (lowerAll ((JavaMethod.ofInsn sbInsn).pass1 sbEnv).regalloc
        (sbInsn.code sbEnv)) ⟨s, localsFor ((JavaMethod.ofInsn sbInsn).pass1 sbEnv).regalloc sbRegs,
        sbWorld⟩ = .ok ⟨s, localsFor ((JavaMethod.ofInsn sbInsn).pass1 sbEnv).regalloc sbRegs,
        ⟨⟨[0x7f], by decide⟩, 0, ()⟩⟩) ∧
    ¬ Faults Runtime.absent ((JavaMethod.ofInsn sbInsn).pass2 sbEnv)
      ((JavaMethod.ofInsn sbInsn).pass1 sbEnv).regalloc
      (localsFor ((JavaMethod.ofInsn sbInsn).pass1 sbEnv).regalloc sbRegs) sbWorld
      (sbInsn.code sbEnv) := by
  have hi : sbInsn ∈ (JavaMethod.ofInsn sbInsn).insns sbEnv := by decide
  have hs : Readable ((JavaMethod.ofInsn sbInsn).pass1 sbEnv).regalloc sbInsn.rs :=
    readable_of_counted hi (by decide) (by decide)
  have ht : Readable ((JavaMethod.ofInsn sbInsn).pass1 sbEnv).regalloc sbInsn.rt :=
    readable_of_counted hi (by decide) (by decide)
  have hcall : WriteWhat.call .byte (-1) 0x7f sbWorld.memory = (.ok (), ⟨[0x7f], by decide⟩) := rfl
  have ha : Acts Runtime.absent _ _ sbWorld (sbInsn.code sbEnv) (WriteWhat.call .byte (-1) 0x7f) :=
    storeCall_acts (holds_localsFor _ sbRegs) hs ht .byte
  refine ⟨rfl, hi, by decide, ?_, ?_⟩
  · intro s
    rw [ha s, ofMemM, hcall]
    rfl
  · rw [ha.faults_iff, Rejected, hcall]
    exact fun h => by cases h

end Cibyl
