import Cibyl.Faults

namespace Cibyl
set_option autoImplicit true

open Jvm (Item Value World Runtime Runs ReadWhat WriteWhat)
open Emit (op pushaddress)
open Bc (lowerAll)
open InstructionFactory
open CRunTime

theorem byteOffset_toNat {m : Memory} {a : Word} (h : a.toNat + 3 < m.size) (k : Nat) (hk : k ≤ 3) :
    (a + BitVec.ofNat 32 k).toNat = a.toNat + k := by
  have hs := Memory.lt_of_lt_size h
  rw [BitVec.toNat_add, BitVec.toNat_ofNat]
  omega

namespace CRunTime

/-- The four bytes are read from the last one on, whatever the alignment is. -/
theorem memoryReadWordLeft_ok {m : Memory} {a : Word} (h : a.toNat + 3 < m.size) :
    memoryReadWordLeft a m = (.ok (Lanes.readWord m.flat a.toNat), m) := by
  have h₃ : (a + 3).toNat = a.toNat + 3 := byteOffset_toNat h 3 (by decide)
  have h₂ : (a + 2).toNat = a.toNat + 2 := byteOffset_toNat h 2 (by decide)
  have h₁ : (a + 1).toNat = a.toNat + 1 := byteOffset_toNat h 1 (by decide)
  have h₀ : (a + 0).toNat = a.toNat := congrArg _ (BitVec.add_zero a)
  have e₃ : memoryReadByteUnsigned (a + 3) m = _ := memoryReadByteUnsigned_ok (by omega)
  have e₂ : memoryReadByteUnsigned (a + 2) m = _ := memoryReadByteUnsigned_ok (by omega)
  have e₁ : memoryReadByteUnsigned (a + 1) m = _ := memoryReadByteUnsigned_ok (by omega)
  have e₀ : memoryReadByteUnsigned (a + 0) m = _ := memoryReadByteUnsigned_ok (by omega)
  rw [memoryReadWordLeft, MemM.bind_of_ok e₃, MemM.bind_of_ok e₂, MemM.bind_of_ok e₁,
    MemM.bind_of_ok e₀, MemM.pure_apply, h₀, h₁, h₂, h₃]
  refine ok_congr ?_ m
  have s₈ (x : Word) : ishl x 8 = x <<< 8 := rfl
  have s₁₆ (x : Word) : ishl x 16 = x <<< 16 := rfl
  have s₂₄ (x : Word) : ishl x 24 = x <<< 24 := rfl
  rw [Lanes.readWord, ← Lanes.or_shifted, s₈, s₁₆, s₂₄, BitVec.or_comm, BitVec.or_comm (_ ||| _),
    BitVec.or_comm (BitVec.setWidth 32 _), ← BitVec.or_assoc, ← BitVec.or_assoc]

theorem memoryWriteByte_flat {m : Memory} {a : Word} (h : a.toNat < m.size) (v : Word) :
    ∃ m', memoryWriteByte a v m = (.ok (), m') ∧ m'.size = m.size ∧
      m'.flat = Lanes.write 1 m.flat a.toNat v :=
  ⟨_, memoryWriteByte_ok h v, Memory.size_setWord ..,
    WordSize.flat_insert .byte (Nat.mod_one _) h v⟩

theorem memoryWriteWordLeft_ok {m : Memory} {a : Word} (h : a.toNat + 3 < m.size) (v : Word) :
    ∃ m', memoryWriteWordLeft a v m = (.ok (), m') ∧ m'.size = m.size ∧
      m'.flat = Lanes.write 4 m.flat a.toNat v := by
  have h₃ : (a + 3).toNat = a.toNat + 3 := byteOffset_toNat h 3 (by decide)
  have h₂ : (a + 2).toNat = a.toNat + 2 := byteOffset_toNat h 2 (by decide)
  have h₁ : (a + 1).toNat = a.toNat + 1 := byteOffset_toNat h 1 (by decide)
  have h₀ : (a + 0).toNat = a.toNat := congrArg _ (BitVec.add_zero a)
  obtain ⟨m₁, e₁, s₁, f₁⟩ := memoryWriteByte_flat (m := m) (a := a + 3) (by omega) v
  obtain ⟨m₂, e₂, s₂, f₂⟩ := memoryWriteByte_flat (m := m₁) (a := a + 2) (by omega) (ishr v 8)
  obtain ⟨m₃, e₃, s₃, f₃⟩ := memoryWriteByte_flat (m := m₂) (a := a + 1) (by omega) (ishr v 16)
  obtain ⟨m₄, e₄, s₄, f₄⟩ := memoryWriteByte_flat (m := m₃) (a := a + 0) (by omega) (ishr v 24)
  refine ⟨m₄, ?_, by omega, ?_⟩
  · rw [memoryWriteWordLeft, MemM.bind_of_ok e₁, MemM.bind_of_ok e₂, MemM.bind_of_ok e₃]
    exact e₄
  · have w₂ := write_succ (n := 1) (s := 8) rfl (by decide) m.flat (a.toNat + 2) v
    have w₃ := write_succ (n := 2) (s := 16) rfl (by decide) m.flat (a.toNat + 1) v
    have w₄ := write_succ (n := 3) (s := 24) rfl (by decide) m.flat a.toNat v
    rw [f₄, f₃, f₂, f₁, h₀, h₁, h₂, h₃, w₂, w₃, w₄]

end CRunTime

namespace Arch

/-- The two halves `o(rs)` and `o + 3(rs)` of an unaligned access. -/
structure IsPair (left right : Nat) (word word' : Word) : Prop where
  left : op word = left
  right : op word' = right
  rs : Arch.rs word' = Arch.rs word
  rt : Arch.rt word' = Arch.rt word
  offset : (imm word').toInt = (imm word).toInt + 3

abbrev IsLoadPair : Word → Word → Prop := IsPair 0x22 0x26

abbrev IsStorePair : Word → Word → Prop := IsPair 0x2a 0x2e

end Arch

/-- The words of the own encodings have the last value in their `op` field. -/
theorem create_of_op (h : Arch.op word ≠ 0x3f) (address : Word) :
    create address word = ofOpcode address word (decodeOpcode word) (Arch.rs word) (Arch.rt word)
      (Arch.rd word) (decodeExtra word) := by
  have hop : Arch.op word = word.toNat / 2 ^ 26 % 2 ^ 6 := by
    rw [Arch.op, BitVec.extractLsb'_toNat, Nat.shiftRight_eq_div_pow]
  have hw := word.isLt
  have h₂₄ : (word >>> 24).toNat = word.toNat / 2 ^ 24 := by
    rw [BitVec.toNat_ushiftRight, Nat.shiftRight_eq_div_pow]
  have h₁₆ : (word >>> 16).toNat = word.toNat / 2 ^ 16 := by
    rw [BitVec.toNat_ushiftRight, Nat.shiftRight_eq_div_pow]
  have hff : word >>> 24 ≠ 0xff := by
    intro he
    rw [he] at h₂₄
    have hv : (0xff : Word).toNat = 255 := rfl
    omega
  have hfefe : word >>> 16 ≠ 0xfefe := by
    intro he
    rw [he] at h₁₆
    have hv : (0xfefe : Word).toNat = 65278 := rfl
    omega
  have hfd : word >>> 24 ≠ 0xfd := by
    intro he
    rw [he] at h₂₄
    have hv : (0xfd : Word).toNat = 253 := rfl
    omega
  rw [create, if_neg hff, if_neg hfefe, if_neg hfd, encodingGetRs_eq, encodingGetRt_eq,
    encodingGetRd_eq]

theorem decodeOpcode_of_op (h : Arch.op word = n)
    (ho : mipsOpEntries.getD n (.res, .ifmt) = (o, .ifmt))
    (hs : o ≠ .special) (hb : o ≠ .bcond) (hc : o ≠ .cop1) : decodeOpcode word = o := by
  rw [decodeOpcode, opEntry_eq, h, ho]
  split
  · next he => exact absurd he hs
  · next he => exact absurd he hb
  · next he => exact absurd he hc
  · rfl

theorem decodeExtra_of_op (h : Arch.op word = n)
    (ho : mipsOpEntries.getD n (.res, .ifmt) = (o, .ifmt))
    (hz : mipsZeroExtendOpcode o = false) : decodeExtra word = (Arch.imm word).signExtend 32 := by
  have he : opEntry word = (o, .ifmt) := by rw [opEntry_eq, h, ho]
  rw [decodeExtra_imm (congrArg Prod.snd he), he, hz, if_neg Bool.false_ne_true]

theorem create_lwl (h : Arch.op word = 0x22) (address : Word) : create address word =
    some ⟨.loadXX .wordLeft, address, .lwl, Arch.rs word, Arch.rt word, 0,
      (Arch.imm word).signExtend 32⟩ := by
  rw [create_of_op (by omega), decodeOpcode_of_op h rfl nofun nofun nofun,
    decodeExtra_of_op h rfl rfl]
  rfl

theorem create_swl (h : Arch.op word = 0x2a) (address : Word) : create address word =
    some ⟨.storeXX .wordLeft, address, .swl, Arch.rs word, Arch.rt word, 0,
      (Arch.imm word).signExtend 32⟩ := by
  rw [create_of_op (by omega), decodeOpcode_of_op h rfl nofun nofun nofun,
    decodeExtra_of_op h rfl rfl]
  rfl

/-- The other half is left out. -/
theorem create_right (h : Arch.op word = 0x26 ∨ Arch.op word = 0x2e) (address : Word) :
    create address word = some (createNop address) := by
  rcases h with h | h <;>
    rw [create_of_op (by omega), decodeOpcode_of_op h rfl nofun nofun nofun] <;>
    rfl

section

variable {ra : RegisterAllocator} {rt : Runtime σ} {w : World σ} {regs : RegFile}
  {l : Nat → Value} {insn : Instruction} {env : Env}

theorem readWordLeft_assigns (hl : Holds ra regs l) (hs : Readable ra insn.rs)
    (hd : Writable ra insn.rt) (ho : insn.opcode = .lwl)
    (h : (regs.get insn.rs + insn.extra).toNat + 3 < w.memory.size) :
    Assigns rt ra l w (insn.loadXXCode env .wordLeft)
      [(insn.rt, Lanes.readWord w.memory.flat (regs.get insn.rs + insn.extra).toNat)] := by
  intro s
  have hc : ¬ (env.config.optimizePartialMemoryOps ∧ insn.opcode ≠ .lwl ∧ insn.opcode ≠ .lwr) :=
    fun hj => hj.2.1 ho
  have hr : ReadWhat.call .wordLeft _ w.memory = _ := memoryReadWordLeft_ok h
  rw [Instruction.loadXXCode, if_neg hc, exec_pushaddress hl hs,
    exec_op (exec_memoryRead hr s), exec_pop hd]
  rfl

theorem write_write (f : Lanes.Flat) (a : Nat) (v : Word) :
    Lanes.write 4 (Lanes.write 4 f a v) a v = Lanes.write 4 f a v := store_store .sw f a v

/-- With or without the traced store before it. -/
theorem writeWordLeft_stores (hl : Holds ra regs l) (hs : Readable ra insn.rs)
    (ht : Readable ra insn.rt)
    (htr : env.config.traceStores = true →
      HeaderReadable w.memory (regs.get insn.rs + insn.extra))
    (h : (regs.get insn.rs + insn.extra).toNat + 3 < w.memory.size) :
    ∃ m', Stores rt ra l w (insn.storeXXCode env .wordLeft) m' ∧ m'.size = w.memory.size ∧
      m'.flat = Lanes.write 4 w.memory.flat (regs.get insn.rs + insn.extra).toNat
        (regs.get insn.rt) := by
  have plain (w : World σ) (h : (regs.get insn.rs + insn.extra).toNat + 3 < w.memory.size) :
      ∃ m', Stores rt ra l w (pushaddress insn.rs insn.extra ++
        [.pushregister insn.rt, op (.memoryWrite .wordLeft)]) m' ∧ m'.size = w.memory.size ∧
        m'.flat = Lanes.write 4 w.memory.flat (regs.get insn.rs + insn.extra).toNat
          (regs.get insn.rt) := by
    obtain ⟨m', hc, hz, hf⟩ := memoryWriteWordLeft_ok h (regs.get insn.rt)
    have hw : WriteWhat.call .wordLeft _ _ w.memory = _ := hc
    refine ⟨m', fun s => ?_, hz, hf⟩
    rw [exec_pushaddress hl hs, Bc.exec_pushregister hl ht, exec_op (exec_memoryWrite hw s)]
    rfl
  cases hc : env.config.traceStores with
  | false =>
    rw [Instruction.storeXXCode, hc]
    exact plain w h
  | true =>
    obtain ⟨m₁, hm, hz, hf⟩ := memoryWriteWordLeft_ok h (regs.get insn.rt)
    obtain ⟨m₂, hst, hz₂, hf₂⟩ := plain { w with memory := m₁ } (hz ▸ h)
    have hpc : WriteWhat.callPc .wordLeft insn.address _ _ w.memory = _ :=
      (WriteWhat.callPc_readable .wordLeft (htr hc) insn.address (regs.get insn.rt)).trans hm
    refine ⟨m₂, fun s => ?_, hz₂.trans hz, ?_⟩
    · rw [Instruction.storeXXCode, hc, if_pos rfl, Instruction.traceStore, List.append_assoc,
        List.append_assoc, List.append_assoc, List.singleton_append, Bc.exec_pushconst,
        exec_pushaddress hl hs, List.cons_append, Bc.exec_pushregister hl ht, List.cons_append,
        exec_op (exec_memoryWritePc hpc s)]
      exact hst s
    · rw [hf₂, hf, write_write]

end

theorem code_right (env : Env) (h : Arch.op word' = 0x26 ∨ Arch.op word' = 0x2e)
    (hc : create address' word' = some insn') : insn'.code env = [] := by
  rw [create_right h] at hc
  cases hc
  rfl

/-- The two halves of an unaligned access, in either order, load or store the whole word. -/
theorem unaligned_pairs_correct {m : JavaMethod} {regs : RegFile} {l : Nat → Value} {w : World σ}
    (hc : create address word = some insn) (hc' : create address' word' = some insn')
    (hi : insn ∈ m.insns env)
    (hcode : code = insn.code env ++ insn'.code env ∨ code = insn'.code env ++ insn.code env)
    (hl : Holds (m.pass1 env).regalloc regs l) (hm : HoldsMemory (m.pass1 env).regalloc l)
    (h : (Arch.effective word regs).toNat + 3 < w.memory.size)
    (rt : Runtime σ) (rest : List Item) (s : List Value) :
    (Arch.IsLoadPair word word' → Arch.rt word ≠ Reg.zero → ∃ l',
      Runs rt (m.pass2 env) ⟨lowerAll (m.pass1 env).regalloc code ++ rest, ⟨s, l, w⟩⟩
        ⟨rest, ⟨s, l', w⟩⟩ ∧
      Loaded (m.pass1 env).regalloc regs l (Arch.rt word)
        (Lanes.readWord w.memory.flat (Arch.effective word regs).toNat) l') ∧
    (Arch.IsStorePair word word' → (env.config.traceStores = true →
        HeaderReadable w.memory (Arch.effective word regs)) → ∃ m',
      Runs rt (m.pass2 env) ⟨lowerAll (m.pass1 env).regalloc code ++ rest, ⟨s, l, w⟩⟩
        ⟨rest, ⟨s, l, { w with memory := m' }⟩⟩ ∧
      m'.flat = Lanes.write 4 w.memory.flat (Arch.effective word regs).toNat
        (regs.get (Arch.rt word)) ∧ m'.size = w.memory.size) := by
  have hrs : Reg.Ordinary (Arch.rs word) := Arch.reg_ordinary word 21
  have hrt : Reg.Ordinary (Arch.rt word) := Arch.reg_ordinary word 16
  have alone (hop : Arch.op word' = 0x26 ∨ Arch.op word' = 0x2e) : code = insn.code env := by
    have hnil := code_right env hop hc'
    rcases hcode with rfl | rfl <;> rw [hnil]
    · exact List.append_nil _
    · exact List.nil_append _
  refine ⟨fun hp hz => ?_, fun hp htr => ?_⟩
  · rw [create_lwl hp.left] at hc
    cases hc
    rw [alone (.inl hp.right)]
    have hs := readable_of_counted hi (.head _) hrs
    have hd : Writable (m.pass1 env).regalloc (Arch.rt word) :=
      writable_of_counted hi (by 
        rw [Instruction.fillDestinations]
        dsimp only
        split <;> exact .head _) hz hrt
    exact runs_assigns (readWordLeft_assigns hl hs hd rfl h) hl hm hd rest s
  · rw [create_swl hp.left] at hc
    cases hc
    rw [alone (.inr hp.right)]
    have hs := readable_of_counted hi (.head _) hrs
    have ht := readable_of_counted hi (.tail _ (.head _)) hrt
    obtain ⟨m', hst, hz, hf⟩ := writeWordLeft_stores hl hs ht htr h
    exact ⟨m', Runs.of_exec (hst s) rest, hf, hz⟩

/-- `lwl $v0, 1($a0)`. -/
def lwlInsn : Instruction := ⟨.loadXX .wordLeft, 0x1000, .lwl, Reg.a0, Reg.v0, 0, 1⟩

def lwlEnv : Env := .single {} (.ofInsn lwlInsn)

def lwlWorld : World Unit := ⟨⟨[0x00112233, 0x44556677], by decide⟩, 0, ()⟩

/-- `lwr $v0, 4($a0)` comes first. -/
theorem unaligned_pairs_correct_lwl :
    ∃ l', Runs Runtime.absent ((JavaMethod.ofInsn lwlInsn).pass2 lwlEnv)
      ⟨lowerAll ((JavaMethod.ofInsn lwlInsn).pass1 lwlEnv).regalloc
        ((createNop 0x0ffc).code lwlEnv ++ lwlInsn.code lwlEnv) ++ [],
        ⟨[], localsFor ((JavaMethod.ofInsn lwlInsn).pass1 lwlEnv).regalloc lbRegs, lwlWorld⟩⟩
      ⟨[], ⟨[], l', lwlWorld⟩⟩ ∧
    Loaded ((JavaMethod.ofInsn lwlInsn).pass1 lwlEnv).regalloc lbRegs
      (localsFor ((JavaMethod.ofInsn lwlInsn).pass1 lwlEnv).regalloc lbRegs) Reg.v0
        0x11223344 l' := by
  have hi : lwlInsn ∈ (JavaMethod.ofInsn lwlInsn).insns lwlEnv := by decide
  have hmem : (JavaMethod.pass1 lwlEnv _).regalloc.regIsAllocated Reg.mem = true :=
    JavaMethod.counted hi (by decide) (by decide)
  have h : (Arch.effective 0x88820001 lbRegs).toNat + 3 < lwlWorld.memory.size := by decide
  have hc : create 0x1000 0x88820001 = some lwlInsn := rfl
  have hc' : create 0x0ffc 0x98820004 = some (createNop 0x0ffc) := rfl
  obtain ⟨hload, -⟩ := unaligned_pairs_correct hc hc' hi (.inr rfl) (holds_localsFor _ lbRegs)
    (holdsMemory_localsFor hmem lbRegs) h Runtime.absent [] []
  exact hload ⟨by decide, by decide, by decide, by decide, by decide⟩ (by decide)

/-- `lwl $zero, 0($a0)`. -/
def lwlZeroInsn : Instruction := ⟨.loadXX .wordLeft, 0x1000, .lwl, Reg.a0, Reg.zero, 0, 0⟩

def lwlZeroEnv : Env := .single {} (.ofInsn lwlZeroInsn)

/-- The word is loaded for a register that has no local, and stays on the operand stack. -/
theorem lwl_zero_left_on_stack :
    create 0x1000 0x88800000 = some lwlZeroInsn ∧
    create 0x1004 0x98800003 = some (createNop 0x1004) ∧
    Arch.IsLoadPair 0x88800000 0x98800003 ∧ Arch.rt 0x88800000 ≠ Arch.rs 0x88800000 ∧
    lwlZeroInsn ∈ (JavaMethod.ofInsn lwlZeroInsn).insns lwlZeroEnv ∧
    (Arch.effective 0x88800000 lbRegs).toNat + 3 < lwlWorld.memory.size ∧
    ¬ ∃ l', Runs Runtime.absent ((JavaMethod.ofInsn lwlZeroInsn).pass2 lwlZeroEnv)
      ⟨lowerAll ((JavaMethod.ofInsn lwlZeroInsn).pass1 lwlZeroEnv).regalloc
        (lwlZeroInsn.code lwlZeroEnv ++ (createNop 0x1004).code lwlZeroEnv) ++ [],
        ⟨[], localsFor ((JavaMethod.ofInsn lwlZeroInsn).pass1 lwlZeroEnv).regalloc
          lbRegs, lwlWorld⟩⟩
      ⟨[], ⟨[], l', lwlWorld⟩⟩ := by
  have hi : lwlZeroInsn ∈ (JavaMethod.ofInsn lwlZeroInsn).insns lwlZeroEnv := by decide
  have h : (Arch.effective 0x88800000 lbRegs).toNat + 3 < lwlWorld.memory.size := by decide
  have hs : Readable ((JavaMethod.ofInsn lwlZeroInsn).pass1 lwlZeroEnv).regalloc lwlZeroInsn.rs :=
    readable_of_counted hi (by decide) (by decide)
  have hnone : ((JavaMethod.ofInsn lwlZeroInsn).pass1 lwlZeroEnv).regalloc.regToLocal Reg.zero =
      none := by decide +kernel
  refine ⟨rfl, rfl, ⟨by decide, by decide, by decide, by decide, by decide⟩, by decide, hi, h, ?_⟩
  rintro ⟨l', hrun⟩
  have hr : ReadWhat.call .wordLeft (lbRegs.get lwlZeroInsn.rs + lwlZeroInsn.extra)
      lwlWorld.memory = (.ok 0x00112233, lwlWorld.memory) := rfl
  have hexec (l) (hl : Holds ((JavaMethod.ofInsn lwlZeroInsn).pass1 lwlZeroEnv).regalloc lbRegs l) :
      Jvm.exec Runtime.absent (lowerAll ((JavaMethod.ofInsn lwlZeroInsn).pass1 lwlZeroEnv).regalloc
        (lwlZeroInsn.code lwlZeroEnv ++ (createNop 0x1004).code lwlZeroEnv)) ⟨[], l, lwlWorld⟩ =
        .ok ⟨[.int 0x00112233], l, lwlWorld⟩ := by
    change Jvm.exec Runtime.absent (lowerAll _ (pushaddress lwlZeroInsn.rs lwlZeroInsn.extra ++
      [op (.memoryRead .wordLeft), .popregister Reg.zero])) _ = _
    rw [exec_pushaddress hl hs, exec_op (exec_memoryRead hr []), Bc.lowerAll_cons, Bc.lower, hnone]
    rfl
  have hstop := Runs.halted_unique hrun (Runs.of_exec (hexec _ (holds_localsFor _ lbRegs)) [])
    (fun _ h => by cases h) (fun _ h => by cases h)
  cases hstop

end Cibyl
