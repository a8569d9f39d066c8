import Cibyl.AluCorrect
import Cibyl.Subroutine

namespace Cibyl
set_option autoImplicit true

open Jvm (Item Value World Runtime Runs Config exec setLocal setLocal_ne)
open Emit (op pushaddress)
open Bc (lowerAll)
open InstructionFactory

def loadOpcodes : List Opcode := [.lb, .lbu, .lh, .lhu, .lw]

def storeOpcodes : List Opcode := [.sb, .sh, .sw]

namespace Instruction

/-- The access is inlined, with an index from `bc_pushindex`. -/
def indexed (env : Env) (insn : Instruction) : Bool :=
  match insn.kind with
  | .lw | .sw => true
  | .partialLoad .. | .partialStore _ => insn.inlinesPartial env
  | _ => false

end Instruction

/-- The locals after a load of `v` to `r`: nothing else changed but the return address of a
subroutine. -/
structure Loaded (ra : RegisterAllocator) (regs : RegFile) (l : Nat → Value) (r : Reg) (v : Word)
    (l' : Nat → Value) : Prop where
  holds : Holds ra (regs.set r v) l'
  memory : HoldsMemory ra l'
  frame : ∀ n, ra.regToLocal r ≠ some n → ra.regToLocal Reg.madr ≠ some n → l' n = l n

section

variable {ra : RegisterAllocator} {rt : Runtime σ} {w : World σ} {body : List Item}
  {l : Nat → Value} {regs : RegFile} {insn : Instruction}

theorem Loaded.ofWrite (hl : Holds ra regs l) (hm : HoldsMemory ra l) (hr : Writable ra r)
    (v : Word) : Loaded ra regs l r v (writeLocals ra l [(r, v)]) where
  holds := by
    refine hl.writeLocals ?_
    intro p hp
    cases List.mem_singleton.mp hp
    exact hr.1
  memory := by
    obtain ⟨n, hn, hv⟩ := hm
    refine ⟨n, hn, ?_⟩
    rw [writeLocals_of_not_mem, hv]
    intro p hp hpn
    cases List.mem_singleton.mp hp
    exact hr.2.1 (ra.injective hpn hn)
  frame := by
    intro n hn _
    apply writeLocals_of_not_mem
    intro p hp
    cases List.mem_singleton.mp hp
    exact hn

theorem Holds.setReturn (hl : Holds ra regs l) (hk : ra.regToLocal Reg.madr = some k)
    (c : List Item) : Holds ra regs (Jvm.setLocal l k (.ret c)) := by
  intro r n hr ho
  have hne : n ≠ k := by
    rintro rfl
    exact ho.2 (ra.injective hr hk)
  rw [setLocal_ne _ _ hne]
  exact hl r n hr ho

theorem HoldsMemory.setReturn (hm : HoldsMemory ra l) (hk : ra.regToLocal Reg.madr = some k)
    (c : List Item) : HoldsMemory ra (setLocal l k (.ret c)) := by
  obtain ⟨n, hn, hv⟩ := hm
  have hne : n ≠ k := by
    rintro rfl
    exact absurd (ra.injective hn hk) (by decide)
  exact ⟨n, hn, (setLocal_ne _ _ hne).trans hv⟩

theorem Loaded.ofReturn (hk : ra.regToLocal Reg.madr = some k)
    (h : Loaded ra regs (setLocal l k (.ret c)) r v l') : Loaded ra regs l r v l' where
  holds := h.holds
  memory := h.memory
  frame := by
    intro n hr hn
    have hne : n ≠ k := by
      rintro rfl
      exact hn hk
    rw [h.frame n hr hn, setLocal_ne _ _ hne]

theorem runs_assigns (h : Assigns rt ra l w code [(r, v)]) (hl : Holds ra regs l)
    (hm : HoldsMemory ra l) (hr : Writable ra r) (rest : List Item) (s : List Value) :
    ∃ l', Runs rt body ⟨lowerAll ra code ++ rest, ⟨s, l, w⟩⟩ ⟨rest, ⟨s, l', w⟩⟩ ∧
      Loaded ra regs l r v l' :=
  ⟨_, Runs.of_exec (h s) rest, .ofWrite hl hm hr v⟩

theorem runs_stores (h : ∃ m', Stores rt ra l w code m' ∧ Stored regs insn o w.memory m')
    (rest : List Item) (s : List Value) :
    ∃ m', Runs rt body ⟨lowerAll ra code ++ rest, ⟨s, l, w⟩⟩
        ⟨rest, ⟨s, l, { w with memory := m' }⟩⟩ ∧ Stored regs insn o w.memory m' := by
  obtain ⟨m', hs, hd⟩ := h
  exact ⟨m', Runs.of_exec (hs s) rest, hd⟩

/-- The load with a subroutine call. -/
theorem runs_loadJsr {insn : Instruction} (hl : Holds ra regs l) (hm : HoldsMemory ra l)
    (hs : Readable ra insn.rs) (hd : Writable ra insn.rt)
    (hk : ra.regToLocal Reg.madr = some k)
    (h : (regs.get insn.rs + insn.extra).toNat < w.memory.size)
    (ha : (regs.get insn.rs + insn.extra).toNat % WordSize.bytes z = 0)
    (hf : Jvm.findLabel body (.memoryRead (z.readWhat isSigned)) =
      some (lowerAll ra (JavaMethod.loadSubroutineBody z isSigned) ++ c))
    (rest : List Item) (s : List Value) :
    ∃ l', Runs rt body ⟨lowerAll ra (pushaddress insn.rs insn.extra ++
        [.item (.jsr (.memoryRead (z.readWhat isSigned))), .popregister insn.rt]) ++ rest,
        ⟨s, l, w⟩⟩ ⟨rest, ⟨s, l', w⟩⟩ ∧
      Loaded ra regs l insn.rt (Arch.load (z.loadOpcode isSigned) w.memory.flat
        (regs.get insn.rs + insn.extra).toNat) l' := by
  have hp : exec rt (lowerAll ra (pushaddress insn.rs insn.extra)) ⟨s, l, w⟩ =
      .ok ⟨.int (regs.get insn.rs + insn.extra) :: s, l, w⟩ := by
    have he : exec rt _ ⟨s, l, w⟩ = _ := exec_pushaddress hl hs insn.extra s []
    rwa [List.append_nil] at he
  have hpop (l : Nat → Value) (v : Word) : exec rt (lowerAll ra [.popregister insn.rt])
      ⟨.int v :: s, l, w⟩ = .ok ⟨s, writeLocals ra l [(insn.rt, v)], w⟩ := by
    rw [exec_pop hd]
    rfl
  rw [Bc.lowerAll_append, List.append_assoc, Bc.lowerAll_cons, List.append_assoc]
  refine ⟨_, (Runs.of_exec hp _).trans ((runs_loadSubroutine hk hm ha h hf _ s).trans
    (Runs.of_exec (hpop _ _) rest)), ?_⟩
  exact .ofReturn hk (.ofWrite (hl.setReturn hk _) (hm.setReturn hk _) hd _)

end

/-- The class of a memory access, for its opcode. -/
inductive MemoryKind : Opcode → Kind → Prop where
  | lw : MemoryKind .lw .lw
  | sw : MemoryKind .sw .sw
  | load (z : WordSize) (isSigned : Bool) :
    MemoryKind (z.loadOpcode isSigned) (.partialLoad z isSigned)
  | store (z : WordSize) : MemoryKind z.storeOpcode (.partialStore z)

/-- What `create` makes of an access. -/
theorem create_access (hc : create address word = some insn) (ho : insn.opcode ∈ accessOpcodes) :
    insn.opcode = decodeOpcode word ∧ insn.rs = Arch.rs word ∧ insn.rt = Arch.rt word ∧
      insn.extra = (Arch.imm word).signExtend 32 ∧
      ofOpcode address word insn.opcode (Arch.rs word) (Arch.rt word) (Arch.rd word)
        (decodeExtra word) = some insn := by
  have hne (o : Opcode) (h : o ∉ accessOpcodes) : insn.opcode ≠ o := by
    rintro rfl
    exact h ho
  obtain ⟨hdec, hof⟩ := create_ofOpcode hc (hne _ (by decide)) (hne _ (by decide))
    (hne _ (by decide))
  have he := decodeOpcode_access (hdec ▸ ho)
  have hz : mipsZeroExtendOpcode insn.opcode = false :=
    (show ∀ o ∈ accessOpcodes, mipsZeroExtendOpcode o = false by decide) _ ho
  have hx := decodeExtra_imm (congrArg Prod.snd he)
  rw [he, ← hdec, hz, if_neg Bool.false_ne_true] at hx
  have hr : insn.rs = Arch.rs word ∧ insn.rt = Arch.rt word ∧ insn.extra = decodeExtra word := by
    simp only [accessOpcodes, memoryOpcodes, List.cons_append, List.nil_append, List.mem_cons,
      List.not_mem_nil, or_false] at ho
    rcases ho with h | h | h | h | h | h | h | h | h | h <;> rw [h] at hof <;> cases hof <;>
      exact ⟨rfl, rfl, rfl⟩
  exact ⟨hdec, hr.1, hr.2.1, hr.2.2.trans hx, hof⟩

theorem memoryKind_of_create (hof : ofOpcode address word insn.opcode rs rt rd extra = some insn)
    (ho : insn.opcode ∈ memoryOpcodes) : MemoryKind insn.opcode insn.kind := by
  simp only [memoryOpcodes, List.mem_cons, List.not_mem_nil, or_false] at ho
  rcases ho with h | h | h | h | h | h | h | h <;> rw [h] at hof ⊢ <;> cases hof
  · exact .load .byte true
  · exact .load .byte false
  · exact .load .half true
  · exact .load .half false
  · exact .lw
  · exact .store .byte
  · exact .store .half
  · exact .sw

theorem MemoryKind.cases_load (h : MemoryKind o k) (ho : o ∈ loadOpcodes) :
    o = .lw ∧ k = .lw ∨ ∃ z isSigned, o = WordSize.loadOpcode z isSigned ∧
      k = .partialLoad z isSigned := by
  cases h with
  | lw => exact .inl ⟨rfl, rfl⟩
  | sw => exact absurd ho (by decide)
  | load z isSigned => exact .inr ⟨z, isSigned, rfl, rfl⟩
  | store z => cases z <;> exact absurd ho (by decide)

theorem MemoryKind.cases_store (h : MemoryKind o k) (ho : o ∈ storeOpcodes) :
    o = .sw ∧ k = .sw ∨ ∃ z, o = WordSize.storeOpcode z ∧ k = .partialStore z := by
  cases h with
  | lw => exact absurd ho (by decide)
  | sw => exact .inl ⟨rfl, rfl⟩
  | load z isSigned => cases z <;> cases isSigned <;> exact absurd ho (by decide)
  | store z => exact .inr ⟨z, rfl, rfl⟩

theorem WordSize.accessSize_load (z : WordSize) (isSigned : Bool) :
    Arch.accessSize (z.loadOpcode isSigned) = z.bytes := by
  cases z <;> cases isSigned <;> rfl

theorem WordSize.accessSize_store (z : WordSize) : Arch.accessSize z.storeOpcode = z.bytes := by
  cases z <;> rfl

theorem WordSize.opcode_writeWhat (z : WordSize) : z.writeWhat.opcode = z.storeOpcode := by
  cases z <;> rfl

theorem WordSize.writeWhat_ne (z : WordSize) : z.writeWhat ≠ .wordLeft := by
  cases z <;> decide

section

variable {m : JavaMethod} {env : Env} {insn : Instruction} {rt : Runtime σ} {w : World σ}
  {l : Nat → Value} {regs : RegFile}

theorem readable_of_counted (hi : insn ∈ m.insns env) (h : r ∈ insn.fillSources env)
    (ho : Reg.Ordinary r) : Readable (m.pass1 env).regalloc r := by
  refine ⟨?_, ho⟩
  by_cases hz : r = Reg.zero
  · exact .inl hz
  · exact .inr (JavaMethod.counted hi (.inr h) hz)

theorem writable_of_counted (hi : insn ∈ m.insns env) (h : r ∈ insn.fillDestinations env)
    (hz : r ≠ Reg.zero) (ho : Reg.Ordinary r) : Writable (m.pass1 env).regalloc r :=
  ⟨JavaMethod.counted hi (.inl h) hz, ho⟩

/-- Every form of a partial load. -/
theorem runs_partialLoad (hi : insn ∈ m.insns env) (hk : insn.kind = .partialLoad z isSigned)
    (ho : insn.opcode = z.loadOpcode isSigned)
    (hs : Readable (m.pass1 env).regalloc insn.rs) (hd : Writable (m.pass1 env).regalloc insn.rt)
    (hl : Holds (m.pass1 env).regalloc regs l) (hm : HoldsMemory (m.pass1 env).regalloc l)
    (hra : insn.inlinesPartial env = true → insn.skipsRa env = false)
    (hx : insn.inlinesPartial env = true → Indexes regs insn w.memory)
    (h : (regs.get insn.rs + insn.extra).toNat < w.memory.size)
    (ha : (regs.get insn.rs + insn.extra).toNat % z.bytes = 0) (rest : List Item)
    (s : List Value) :
    ∃ l', Runs rt (m.pass2 env)
        ⟨lowerAll (m.pass1 env).regalloc (insn.partialLoadCode env z isSigned) ++ rest, ⟨s, l, w⟩⟩
        ⟨rest, ⟨s, l', w⟩⟩ ∧
      Loaded (m.pass1 env).regalloc regs l insn.rt (Arch.load (z.loadOpcode isSigned)
        w.memory.flat (regs.get insn.rs + insn.extra).toNat) l' := by
  cases hin : insn.inlinesPartial env with
  | true =>
    exact runs_assigns (partialLoad_assigns hl hm hs hd hin (hra hin) (hx hin) ha) hl hm hd rest s
  | false =>
    have hcode : insn.partialLoadCode env z isSigned =
        insn.loadXXCode env (z.readWhat isSigned) := by
      rw [Instruction.partialLoadCode, hin]
      rfl
    rw [hcode]
    cases hj : env.config.optimizePartialMemoryOps with
    | false => exact runs_assigns (loadCall_assigns hl hs hd hj h ha) hl hm hd rest s
    | true =>
      have hmadr : Reg.madr ∈ insn.fillDestinations env := by
        rw [Instruction.fillDestinations, hk, if_pos hj]
        exact .tail _ (.head _)
      obtain ⟨k, hkl⟩ := Option.isSome_iff_exists.mp
        (JavaMethod.counted hi (.inl hmadr) (by decide))
      obtain ⟨c, hc⟩ := JavaMethod.findLabel_subroutine hj hi hk ho
      have hop : env.config.optimizePartialMemoryOps = true ∧ insn.opcode ≠ .lwl ∧
          insn.opcode ≠ .lwr := by
        rw [ho]
        cases z <;> cases isSigned <;> exact ⟨hj, Opcode.noConfusion, Opcode.noConfusion⟩
      rw [Instruction.loadXXCode, if_pos hop]
      exact runs_loadJsr hl hm hs hd hkl h ha hc rest s

theorem runs_load (hi : insn ∈ m.insns env) (hk : MemoryKind insn.opcode insn.kind)
    (ho : insn.opcode ∈ loadOpcodes) (hrs : Reg.Ordinary insn.rs) (hrt : Reg.Ordinary insn.rt)
    (hz : insn.rt ≠ Reg.zero)
    (hl : Holds (m.pass1 env).regalloc regs l) (hm : HoldsMemory (m.pass1 env).regalloc l)
    (hra : insn.indexed env = true → insn.skipsRa env = false)
    (hx : insn.indexed env = true → Indexes regs insn w.memory)
    (h : (regs.get insn.rs + insn.extra).toNat < w.memory.size)
    (ha : (regs.get insn.rs + insn.extra).toNat % Arch.accessSize insn.opcode = 0)
    (rest : List Item) (s : List Value) :
    ∃ l', Runs rt (m.pass2 env)
        ⟨lowerAll (m.pass1 env).regalloc (insn.code env) ++ rest, ⟨s, l, w⟩⟩
        ⟨rest, ⟨s, l', w⟩⟩ ∧
      Loaded (m.pass1 env).regalloc regs l insn.rt (Arch.load insn.opcode w.memory.flat
        (regs.get insn.rs + insn.extra).toNat) l' := by
  have hcount : insn.rs ∈ insn.fillSources env ∧ insn.rt ∈ insn.fillDestinations env := by
    rw [Instruction.fillSources, Instruction.fillDestinations]
    rcases hk.cases_load ho with ⟨-, hk⟩ | ⟨z, isSigned, -, hk⟩ <;> rw [hk] <;>
      refine ⟨.head _, ?_⟩ <;> dsimp only <;> split <;> exact .head _
  have hs := readable_of_counted hi hcount.1 hrs
  have hd := writable_of_counted hi hcount.2 hz hrt
  rcases hk.cases_load ho with ⟨ho, hk⟩ | ⟨z, isSigned, ho, hk⟩
  · have hin : insn.indexed env = true := by
      rw [Instruction.indexed, hk]
    rw [ho] at ha ⊢
    rw [Instruction.code, hk]
    exact runs_assigns (lwCode_assigns hl hm hs hd (hra hin) (hx hin) ha) hl hm hd rest s
  · have hin : insn.indexed env = insn.inlinesPartial env := by
      rw [Instruction.indexed, hk]
    rw [hin] at hra hx
    rw [ho, z.accessSize_load] at ha
    rw [Instruction.code, hk, ho]
    exact runs_partialLoad hi hk ho hs hd hl hm hra hx h ha rest s

theorem runs_store (hi : insn ∈ m.insns env) (hk : MemoryKind insn.opcode insn.kind)
    (ho : insn.opcode ∈ storeOpcodes) (hrs : Reg.Ordinary insn.rs) (hrt : Reg.Ordinary insn.rt)
    (hl : Holds (m.pass1 env).regalloc regs l) (hm : HoldsMemory (m.pass1 env).regalloc l)
    (hra : insn.indexed env = true → insn.skipsRa env = false)
    (hx : insn.indexed env = true → Indexes regs insn w.memory)
    (htr : env.config.traceStores = true →
      HeaderReadable w.memory (regs.get insn.rs + insn.extra))
    (h : (regs.get insn.rs + insn.extra).toNat < w.memory.size)
    (ha : (regs.get insn.rs + insn.extra).toNat % Arch.accessSize insn.opcode = 0)
    (rest : List Item) (s : List Value) :
    ∃ m', Runs rt (m.pass2 env)
        ⟨lowerAll (m.pass1 env).regalloc (insn.code env) ++ rest, ⟨s, l, w⟩⟩
        ⟨rest, ⟨s, l, { w with memory := m' }⟩⟩ ∧ Stored regs insn insn.opcode w.memory m' := by
  have hcount : insn.rs ∈ insn.fillSources env ∧ insn.rt ∈ insn.fillSources env := by
    rw [Instruction.fillSources]
    rcases hk.cases_store ho with ⟨-, hk⟩ | ⟨z, -, hk⟩ <;> rw [hk] <;>
      exact ⟨.head _, .tail _ (.head _)⟩
  have hs := readable_of_counted hi hcount.1 hrs
  have ht := readable_of_counted hi hcount.2 hrt
  rcases hk.cases_store ho with ⟨ho, hk⟩ | ⟨z, ho, hk⟩
  · have hin : insn.indexed env = true := by
      rw [Instruction.indexed, hk]
    rw [ho] at ha ⊢
    rw [Instruction.code, hk]
    exact runs_stores (sw_stores hl hm hs ht (hra hin) htr (hx hin) ha) rest s
  · have hin : insn.indexed env = insn.inlinesPartial env := by
      rw [Instruction.indexed, hk]
    rw [hin] at hra hx
    rw [Instruction.code, hk, ho]
    cases hp : insn.inlinesPartial env with
    | true =>
      have hb := ho ▸ ha
      rw [z.accessSize_store] at hb
      refine runs_stores ⟨_, inlineStore_stores hl hm hs ht hp (hra hp) (hx hp) hb,
        z.flat_insert hb h _, Memory.size_setWord ..⟩ rest s
    | false =>
      have hcode : insn.partialStoreCode env z = insn.storeXXCode env z.writeWhat := by
        rw [Instruction.partialStoreCode, hp]
        rfl
      dsimp only
      rw [hcode, ← z.opcode_writeWhat]
      refine runs_stores (storeXX_stores hl hs ht z.writeWhat_ne htr h ?_) rest s
      rw [z.opcode_writeWhat, ← ho]
      exact ha

end

/-- Without a wrap-around, the index of an inlined access is the right one. -/
theorem indexes_of_range {insn : Instruction} {imm : BitVec 16}
    (hx : insn.extra = imm.signExtend 32)
    (h : (regs.get insn.rs + insn.extra).toNat < mem.size)
    (hw : imm.toInt.tmod 4 = 0 → (regs.get insn.rs).toNat + imm.toInt < 2 ^ 32) :
    Indexes regs insn mem := by
  have hi : insn.extra.toInt = imm.toInt := by
    rw [hx, BitVec.toInt_signExtend_of_le (by decide)]
  refine ⟨wordIndex_toNat _ _ ?_, h⟩
  intro ht
  rw [hi] at ht ⊢
  refine ⟨?_, hw ht⟩
  have hlt := Memory.lt_of_lt_size h
  have hg := BitVec.le_toInt (x := imm)
  by_contra hneg
  have hwrap : (regs.get insn.rs + insn.extra).toNat =
      (regs.get insn.rs).toNat + imm.toInt + 2 ^ 32 := by
    have hb := (regs.get insn.rs).isLt
    have he := BitVec.toInt_eq_toNat_cond insn.extra
    rw [hi] at he
    rw [BitVec.toNat_add]
    split at he <;> omega
  omega

/-- Every translation of a load leaves the architecture's value in its register, and every
translation of a store leaves the architecture's memory. -/
theorem memory_access_correct {m : JavaMethod} {regs : RegFile} {l : Nat → Value} {w : World σ}
    (hc : create address word = some insn) (ho : insn.opcode ∈ memoryOpcodes)
    (hi : insn ∈ m.insns env)
    (hd : insn.opcode ∈ loadOpcodes → Arch.rt word ≠ Reg.zero)
    (hra : insn.indexed env = true → insn.skipsRa env = false)
    (hx : insn.indexed env = true → (Arch.imm word).toInt.tmod 4 = 0 →
      (regs.get (Arch.rs word)).toNat + (Arch.imm word).toInt < 2 ^ 32)
    (htr : env.config.traceStores = true → HeaderReadable w.memory (Arch.effective word regs))
    (hl : Holds (m.pass1 env).regalloc regs l) (hm : HoldsMemory (m.pass1 env).regalloc l)
    (h : (Arch.effective word regs).toNat < w.memory.size)
    (ha : (Arch.effective word regs).toNat % Arch.accessSize insn.opcode = 0)
    (rt : Runtime σ) (rest : List Item) (s : List Value) :
    Arch.memoryOpcode (Arch.op word) = some insn.opcode ∧
    (insn.opcode ∈ loadOpcodes → ∃ l', Runs rt (m.pass2 env)
        ⟨lowerAll (m.pass1 env).regalloc (insn.code env) ++ rest, ⟨s, l, w⟩⟩
        ⟨rest, ⟨s, l', w⟩⟩ ∧
      Loaded (m.pass1 env).regalloc regs l (Arch.rt word)
        (Arch.load insn.opcode w.memory.flat (Arch.effective word regs).toNat) l') ∧
    (insn.opcode ∈ storeOpcodes → ∃ m', Runs rt (m.pass2 env)
        ⟨lowerAll (m.pass1 env).regalloc (insn.code env) ++ rest, ⟨s, l, w⟩⟩
        ⟨rest, ⟨s, l, { w with memory := m' }⟩⟩ ∧
      m'.flat = Arch.store insn.opcode w.memory.flat (Arch.effective word regs).toNat
        (regs.get (Arch.rt word)) ∧ m'.size = w.memory.size) := by
  obtain ⟨hdec, hrs, hrt, hxt, hof⟩ := create_access hc (List.mem_append_left _ ho)
  have hk := memoryKind_of_create hof ho
  have heff : Arch.effective word regs = regs.get insn.rs + insn.extra := by
    rw [Arch.effective, hrs, hxt]
  have hors : Reg.Ordinary insn.rs := hrs ▸ Arch.reg_ordinary word 21
  have hort : Reg.Ordinary insn.rt := hrt ▸ Arch.reg_ordinary word 16
  rw [heff] at htr h ha ⊢
  rw [← hrt] at hd ⊢
  rw [← hrs] at hx
  have hidx : insn.indexed env = true → Indexes regs insn w.memory :=
    fun hin => indexes_of_range hxt h (hx hin)
  refine ⟨hdec ▸ decodeOpcode_memory (hdec ▸ ho), ?_, ?_⟩
  · intro hld
    exact runs_load hi hk hld hors hort (hd hld) hl hm hra hidx h ha rest s
  · intro hst
    obtain ⟨m', hr, hs⟩ := runs_store hi hk hst hors hort hl hm hra hidx htr h ha rest s
    exact ⟨m', hr, hs.flat, hs.size⟩

/-- `lb $v0, 3($a0)`. -/
def lbInsn : Instruction := ⟨.partialLoad .byte true, 0x1000, .lb, Reg.a0, Reg.v0, 0, 3⟩

def lbEnv : Env := .single {} (.ofInsn lbInsn)

def lbRegs : RegFile := ⟨fun _ => 0, rfl⟩

def lbWorld : World Unit := ⟨⟨[0x80], by decide⟩, 0, ()⟩

theorem memory_access_correct_lb :
    ∃ l', Runs Runtime.absent ((JavaMethod.ofInsn lbInsn).pass2 lbEnv)
      ⟨lowerAll ((JavaMethod.ofInsn lbInsn).pass1 lbEnv).regalloc (lbInsn.code lbEnv) ++ [],
        ⟨[], localsFor ((JavaMethod.ofInsn lbInsn).pass1 lbEnv).regalloc lbRegs, lbWorld⟩⟩
      ⟨[], ⟨[], l', lbWorld⟩⟩ ∧
    Loaded ((JavaMethod.ofInsn lbInsn).pass1 lbEnv).regalloc lbRegs
      (localsFor ((JavaMethod.ofInsn lbInsn).pass1 lbEnv).regalloc lbRegs) Reg.v0
        0xffffff80 l' := by
  have hc : create 0x1000 0x80820003 = some lbInsn := rfl
  have hi : lbInsn ∈ (JavaMethod.ofInsn lbInsn).insns lbEnv := by decide
  have hmem : (JavaMethod.pass1 lbEnv _).regalloc.regIsAllocated Reg.mem = true :=
    JavaMethod.counted hi (by decide) (by decide)
  have h : (Arch.effective 0x80820003 lbRegs).toNat < lbWorld.memory.size := by decide
  obtain ⟨-, hload, -⟩ := memory_access_correct hc (by decide) hi (by decide) (by decide)
    (by decide) (by decide) (holds_localsFor _ lbRegs) (holdsMemory_localsFor hmem lbRegs) h
    (by decide) Runtime.absent [] []
  exact hload (by decide)

/-- `sw $ra, 0($sp)`. -/
def swRaInsn : Instruction := ⟨.sw, 0x1000, .sw, Reg.sp, Reg.ra, 0, 0⟩

def swRaEnv : Env := .single {} (.ofInsn swRaInsn)

/-- Nothing is emitted for the store of `ra` in a method of one function. -/
theorem sw_ra_left_out : create 0x1000 0xafbf0000 = some swRaInsn ∧
    swRaInsn ∈ (JavaMethod.ofInsn swRaInsn).insns swRaEnv ∧
    ∃ (regs : RegFile) (mem : Memory), (Arch.effective 0xafbf0000 regs).toNat < mem.size ∧
      (Arch.effective 0xafbf0000 regs).toNat % Arch.accessSize .sw = 0 ∧
      (∀ (ra : RegisterAllocator) (l : Nat → Value) (s : List Value),
        exec Runtime.absent (lowerAll ra (swRaInsn.code swRaEnv)) ⟨s, l, ⟨mem, 0, ()⟩⟩ =
          .ok ⟨s, l, ⟨mem, 0, ()⟩⟩) ∧
      mem.flat ≠ Arch.store .sw mem.flat (Arch.effective 0xafbf0000 regs).toNat
        (regs.get (Arch.rt 0xafbf0000)) := by
  refine ⟨rfl, by decide, ⟨fun r => if r = Reg.ra then 1 else 0, rfl⟩, ⟨[0], by decide⟩, by decide,
    by decide, fun _ _ _ => rfl, ?_⟩
  intro h
  exact absurd (congrFun h 3) (by decide)

end Cibyl
