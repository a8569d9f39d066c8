import Cibyl.Alu
import Cibyl.FlatMemory

namespace Cibyl
set_option autoImplicit true

open Jvm (Op IntOp IntUn Value World Outcome Runtime exec ReadWhat WriteWhat)
open Emit (op intOp pushconst pushaddress pushindex)
open Bc (lowerAll)

/-- The word index that `bc_pushindex` computes. -/
def wordIndex (base extra : Word) : Word :=
  if extra ≠ 0 ∧ extra.srem 4 ≠ 0 then iushr (base + extra) 2
  else iushr base 2 + extra.sdiv 4

theorem sdiv_four_toInt (e : Word) : (e.sdiv 4).toInt = e.toInt.tdiv 4 := by
  have h₄ : (4 : Word).toInt = 4 := rfl
  rw [BitVec.toInt_sdiv, h₄]
  have hl := BitVec.toInt_lt (x := e)
  have hg := BitVec.le_toInt (x := e)
  have hd := Int.mul_tdiv_add_tmod e.toInt 4
  have hm := Int.tmod_lt_of_pos e.toInt (b := 4) (by decide)
  have hm' := Int.lt_tmod_of_pos e.toInt (b := 4) (by decide)
  apply Int.bmod_eq_of_le <;> omega

theorem srem_four_toInt (e : Word) : (e.srem 4).toInt = e.toInt.tmod 4 := BitVec.toInt_srem e 4

theorem add_toNat_of_range (x e : Word) (h₀ : 0 ≤ (x.toNat : Int) + e.toInt)
    (h₁ : (x.toNat : Int) + e.toInt < 2 ^ 32) :
    ((x + e).toNat : Int) = (x.toNat : Int) + e.toInt := by
  have hx := x.isLt
  have he := e.isLt
  rw [BitVec.toInt_eq_toNat_cond] at *
  rw [BitVec.toNat_add]
  split at h₀ <;> omega

/-- The two ways of computing the index agree unless the address wraps around. -/
theorem wordIndex_toNat (base extra : Word)
    (h : extra.toInt.tmod 4 = 0 → 0 ≤ (base.toNat : Int) + extra.toInt ∧
      (base.toNat : Int) + extra.toInt < 2 ^ 32) :
    (wordIndex base extra).toNat = (base + extra).toNat / 4 := by
  rw [wordIndex]
  split
  · exact iushr_two_toNat _
  · next hz =>
    have hm : extra.toInt.tmod 4 = 0 := by
      rw [← srem_four_toInt]
      by_cases hs : extra.srem 4 = 0
      · rw [hs]
        rfl
      · have he : extra = 0 := by
          by_contra he
          exact hz ⟨he, hs⟩
        rw [he]
        rfl
    obtain ⟨h₀, h₁⟩ := h hm
    have hb := iushr_two_toNat base
    have hd := sdiv_four_toInt extra
    have hs := add_toNat_of_range base extra h₀ h₁
    have he := Int.mul_tdiv_add_tmod extra.toInt 4
    rw [hm] at he
    have hi := add_toNat_of_range (iushr base 2) (extra.sdiv 4)
      (by rw [hb, hd]; omega) (by rw [hb, hd]; omega)
    rw [hb, hd] at hi
    omega

section

variable {ra : RegisterAllocator} {rt : Runtime σ} {w : World σ} {regs : RegFile}
  {l : Nat → Value} {insn : Instruction}

theorem exec_pushaddress (hl : Holds ra regs l) (hr : Readable ra r) (extra : Word)
    (s : List Value) (bs : List Bc) :
    exec rt (lowerAll ra (pushaddress r extra ++ bs)) ⟨s, l, w⟩ =
      exec rt (lowerAll ra bs) ⟨.int (regs.get r + extra) :: s, l, w⟩ := by
  rw [pushaddress, List.cons_append, Bc.exec_pushregister hl hr]
  split
  · rw [List.cons_append, List.cons_append, Bc.exec_pushconst, exec_intOp rfl]
    rfl
  · next h =>
    rw [not_not.mp h, add_zero]
    rfl

theorem exec_pushindex (hl : Holds ra regs l) (hr : Readable ra r) (extra : Word)
    (s : List Value) (bs : List Bc) :
    exec rt (lowerAll ra (pushindex r extra ++ bs)) ⟨s, l, w⟩ =
      exec rt (lowerAll ra bs) ⟨.int (wordIndex (regs.get r) extra) :: s, l, w⟩ := by
  rw [pushindex, wordIndex]
  split
  · rw [List.cons_append, Bc.exec_pushregister hl hr, List.cons_append, List.cons_append,
      Bc.exec_pushconst, exec_intOp rfl, List.cons_append, List.cons_append, Bc.exec_pushconst,
      exec_intOp rfl]
    rfl
  · rw [List.append_assoc, List.cons_append, Bc.exec_pushregister hl hr, List.cons_append,
      List.cons_append, Bc.exec_pushconst, exec_intOp rfl]
    split
    · rw [List.nil_append, List.cons_append, List.cons_append, Bc.exec_pushconst, exec_intOp rfl]
      rfl
    · next h =>
      rw [not_not.mp h]
      exact congrArg (fun v => exec rt (lowerAll ra bs) ⟨.int v :: s, l, w⟩) (add_zero _).symm

/-- The shift that selects the lane of an access at `a`. -/
def WordSize.laneShift (z : WordSize) (a : Word) : Word := ishl (z.lane - (a &&& z.lane)) 3

theorem exec_pushLaneShift (hl : Holds ra regs l) (hr : Readable ra insn.rs) (z : WordSize)
    (s : List Value) (bs : List Bc) :
    exec rt (lowerAll ra (insn.pushLaneShift z ++ bs)) ⟨s, l, w⟩ =
      exec rt (lowerAll ra bs)
        ⟨.int (z.laneShift (regs.get insn.rs + insn.extra)) :: s, l, w⟩ := by
  rw [Instruction.pushLaneShift, List.append_assoc, List.append_assoc, List.cons_append,
    Bc.exec_pushconst, List.nil_append, exec_pushaddress hl hr, List.cons_append,
    Bc.exec_pushconst, List.cons_append, exec_intOp rfl, List.cons_append, exec_intOp rfl,
    List.cons_append, Bc.exec_pushconst, List.cons_append, exec_intOp rfl]
  rfl

/-- What `extendCode` makes of a shifted word. -/
def WordSize.extend (z : WordSize) (isSigned : Bool) (v : Word) : Word :=
  match z, isSigned with
  | .byte, true => IntUn.eval .i2b v
  | .half, false => IntUn.eval .i2c v
  | .half, true => IntUn.eval .i2s v
  | .byte, false => v &&& 0xff

theorem exec_extendCode (z : WordSize) (isSigned : Bool) (v : Word) (s : List Value)
    (bs : List Bc) :
    exec rt (lowerAll ra (Instruction.extendCode z isSigned ++ bs)) ⟨.int v :: s, l, w⟩ =
      exec rt (lowerAll ra bs) ⟨.int (z.extend isSigned v) :: s, l, w⟩ := by
  match z, isSigned with
  | .byte, true | .half, false | .half, true => rfl
  | .byte, false =>
    change exec rt (lowerAll ra (pushconst 0xff :: intOp .iand :: bs)) _ = _
    rw [Bc.exec_pushconst, exec_intOp rfl]
    rfl

theorem exec_iaload (hi : i.toNat = j) (h : j < w.memory.words.length) (s : List Value) :
    Op.exec rt .iaload ⟨.int i :: .ref .memory :: s, l, w⟩ =
      .ok ⟨.int w.memory.words[j] :: s, l, w⟩ := by
  subst hi
  rw [Op.exec, Jvm.ofMemM, Memory.load_of_inBounds h]
  rfl

theorem exec_iastore (hi : i.toNat = j) (h : j < w.memory.words.length) (v : Word)
    (s : List Value) :
    Op.exec rt .iastore ⟨.int v :: .int i :: .ref .memory :: s, l, w⟩ =
      .ok ⟨s, l, { w with memory := w.memory.setWord j v }⟩ := by
  subst hi
  rw [Op.exec, Jvm.ofMemM, Memory.store_of_inBounds h]
  rfl

end

namespace WordSize

def bytes : WordSize → Nat
  | .byte => 1
  | .half => 2

def loadOpcode : WordSize → Bool → Opcode
  | .byte, true => .lb
  | .byte, false => .lbu
  | .half, true => .lh
  | .half, false => .lhu

def storeOpcode : WordSize → Opcode
  | .byte => .sb
  | .half => .sh

theorem low_of_mask {v : Word} {b : BitVec n} (hn : n ≤ 32)
    (h : v &&& BitVec.ofNat 32 (2 ^ n - 1) = b.setWidth 32) : v.setWidth n = b := by
  apply BitVec.eq_of_getLsbD_eq
  intro i hi
  have hi' : i < 32 := Nat.lt_of_lt_of_le hi hn
  have hb := congrArg (fun x => x.getLsbD i) h
  simp only [BitVec.getLsbD_and, Lanes.getLsbD_mask, BitVec.getLsbD_setWidth, hi, hi', decide_true,
    Bool.and_true, Bool.true_and] at hb
  rw [BitVec.getLsbD_setWidth, hb, decide_eq_true hi, Bool.true_and]

/-- Shifting, masking and extending a loaded word gives the addressed bytes. -/
theorem extend_lane (z : WordSize) (isSigned : Bool) (m : Memory) {a : Word}
    (ha : a.toNat % z.bytes = 0) (h : a.toNat / 4 < m.words.length) :
    z.extend isSigned (iushr m.words[a.toNat / 4] (z.laneShift a)) =
      Arch.load (z.loadOpcode isSigned) m.flat a.toNat := by
  cases z with
  | byte =>
    have hl := byte_lane m a h
    cases isSigned with
    | true => exact congrArg (fun b => b.signExtend 32) (low_of_mask (n := 8) (by decide) hl)
    | false => exact hl
  | half =>
    have hl := short_lane m ha h
    have hb := low_of_mask (n := 16) (by decide) hl
    cases isSigned with
    | true => exact congrArg (fun b => b.signExtend 32) hb
    | false => exact congrArg (fun b => b.setWidth 32) hb

/-- The word that an inlined store writes back. -/
theorem insert_lane (z : WordSize) {a : Word} (ha : a.toNat % z.bytes = 0) (cur v : Word) :
    cur &&& (ishl z.mask (z.laneShift a) ^^^ -1) ||| ishl (v &&& z.mask) (z.laneShift a) =
      Lanes.insert (8 * z.bytes) cur v (8 * (4 - z.bytes - a.toNat % 4)) := by
  rw [not_eq_xor]
  cases z with
  | byte =>
    simp only [laneShift, lane, mask, ishl_byteShift]
    rfl
  | half =>
    simp only [laneShift, lane, mask, ishl_shortShift ha]
    rfl

theorem flat_insert (z : WordSize) {m : Memory} {a : Nat} (ha : a % z.bytes = 0)
    (h : a < m.size) (v : Word) :
    (m.setWord (a / 4) (Lanes.insert (8 * z.bytes) (m.words.get ⟨a / 4, Memory.word_lt h⟩) v
      (8 * (4 - z.bytes - a % 4)))).flat = Arch.store z.storeOpcode m.flat a v := by
  cases z with
  | byte => exact Memory.flat_setWord_insert (n := 1) (by omega) h v
  | half =>
    change a % 2 = 0 at ha
    exact Memory.flat_setWord_insert (n := 2) (by omega) h v

theorem read_call (z : WordSize) (isSigned : Bool) {m : Memory} {a : Word}
    (ha : a.toNat % z.bytes = 0) (h : a.toNat < m.size) :
    (z.readWhat isSigned).call a m =
      (.ok (Arch.load (z.loadOpcode isSigned) m.flat a.toNat), m) := by
  match z, isSigned with
  | .byte, true => exact CRunTime.memoryReadByte_ok h
  | .byte, false => exact CRunTime.memoryReadByteUnsigned_ok h
  | .half, true => exact CRunTime.memoryReadShort_ok ha h
  | .half, false => exact CRunTime.memoryReadShortUnsigned_ok ha h

end WordSize

namespace Jvm.WriteWhat

/-- The store whose effect the call has. -/
def opcode : WriteWhat → Opcode
  | .byte => .sb
  | .short => .sh
  | .word => .sw
  | .wordLeft => .swl

theorem write_call {what : WriteWhat} (hw : what ≠ .wordLeft) {m : Memory} {a : Word}
    (ha : a.toNat % Arch.accessSize what.opcode = 0) (h : a.toNat < m.size) (v : Word) :
    ∃ m', what.call a v m = (.ok (), m') ∧ m'.flat = Arch.store what.opcode m.flat a.toNat v ∧
      m'.size = m.size := by
  cases what with
  | byte =>
    exact ⟨_, CRunTime.memoryWriteByte_ok h v, WordSize.flat_insert .byte ha h v,
      Memory.size_setWord ..⟩
  | short =>
    exact ⟨_, CRunTime.memoryWriteShort_ok ha h v, WordSize.flat_insert .half ha h v,
      Memory.size_setWord ..⟩
  | word =>
    exact ⟨_, CRunTime.memoryWriteWord_ok h v, Memory.flat_setWord ha h v, Memory.size_setWord ..⟩
  | wordLeft => exact absurd rfl hw

end Jvm.WriteWhat

/-- The words of the data header that the tracing routine looks at are there. -/
def HeaderReadable (m : Memory) (a : Word) : Prop :=
  16 < m.size ∧ ((m.words.getD 4 0).sle a = true → 20 < m.size)

instance (m : Memory) (a : Word) : Decidable (HeaderReadable m a) := instDecidableAnd

theorem memoryReadWord_header {m : Memory} (h : 16 < m.size) :
    CRunTime.memoryReadWord 16 m = (.ok (m.words.getD 4 0), m) := by
  have hw : m.words.get ⟨16 / 4, Memory.word_lt h⟩ = m.words.getD 4 0 := by
    rw [List.get_eq_getElem, List.getD_eq_getElem?_getD,
      List.getElem?_eq_getElem (Memory.word_lt h), Option.getD_some]
  have hl : CRunTime.memoryReadWord 16 m = _ := Memory.load_ishr (a := 16) h
  exact hl.trans (ok_congr hw m)

theorem assertMemoryWrite_readable {m : Memory} (h : HeaderReadable m a) :
    CRunTime.assertMemoryWrite a m = (.ok (), m) := by
  rw [CRunTime.assertMemoryWrite, MemM.bind_of_ok (memoryReadWord_header h.1)]
  split
  · next hs =>
    have e₂₀ : CRunTime.memoryReadWord 20 m = _ := Memory.load_ishr (a := 20) (h.2 hs)
    rw [MemM.bind_of_ok e₂₀]
    rfl
  · rfl

/-- The tracing variants first look at the data header. -/
theorem Jvm.WriteWhat.callPc_readable (what : WriteWhat) {m : Memory} (h : HeaderReadable m a)
    (pc v : Word) : what.callPc pc a v m = what.call a v m := by
  cases what <;> exact MemM.bind_of_ok (assertMemoryWrite_readable h) _

section

variable {ra : RegisterAllocator} {rt : Runtime σ} {w : World σ} {regs : RegFile}
  {l : Nat → Value} {insn : Instruction} {env : Env}

/-- The memory array is in the local of its register. -/
def HoldsMemory (ra : RegisterAllocator) (l : Nat → Value) : Prop :=
  ∃ n, ra.regToLocal Reg.mem = some n ∧ l n = .ref .memory

theorem holdsMemory_localsFor (h : ra.regIsAllocated Reg.mem = true) (regs : RegFile) :
    HoldsMemory ra (localsFor ra regs) := by
  obtain ⟨n, hn⟩ := Option.isSome_iff_exists.mp h
  exact ⟨n, hn, (localsFor_eq hn regs).trans (if_pos rfl)⟩

/-- The code stores to the memory and changes nothing else. -/
def Stores (rt : Runtime σ) (ra : RegisterAllocator) (l : Nat → Value) (w : World σ)
    (code : List Bc) (m : Memory) : Prop :=
  ∀ s, exec rt (lowerAll ra code) ⟨s, l, w⟩ = .ok ⟨s, l, { w with memory := m }⟩

/-- The index of an inlined access is that of the word with the effective address. -/
def Indexes (regs : RegFile) (insn : Instruction) (m : Memory) : Prop :=
  (wordIndex (regs.get insn.rs) insn.extra).toNat = (regs.get insn.rs + insn.extra).toNat / 4 ∧
    (regs.get insn.rs + insn.extra).toNat < m.size

theorem lwCode_assigns (hl : Holds ra regs l) (hm : HoldsMemory ra l) (hs : Readable ra insn.rs)
    (hd : Writable ra insn.rt) (hra : insn.skipsRa env = false)
    (hi : Indexes regs insn w.memory) (ha : (regs.get insn.rs + insn.extra).toNat % 4 = 0) :
    Assigns rt ra l w (insn.lwCode env)
      [(insn.rt, Arch.load .lw w.memory.flat (regs.get insn.rs + insn.extra).toNat)] := by
  intro s
  obtain ⟨n, hn, hv⟩ := hm
  have hlt := Memory.word_lt hi.2
  have hw : w.memory.words[(regs.get insn.rs + insn.extra).toNat / 4] =
      Lanes.readWord w.memory.flat (regs.get insn.rs + insn.extra).toNat := by
    rw [Memory.flat, Lanes.readWord_byteAt ha hlt]
  rw [Instruction.lwCode, hra, if_neg Bool.false_ne_true, List.append_assoc, List.singleton_append,
    Bc.exec_pushmem hn hv, exec_pushindex hl hs, exec_op (exec_iaload hi.1 hlt s), hw,
    exec_pop hd]
  rfl

theorem partialLoad_assigns (hl : Holds ra regs l) (hm : HoldsMemory ra l)
    (hs : Readable ra insn.rs) (hd : Writable ra insn.rt) (hin : insn.inlinesPartial env = true)
    (hra : insn.skipsRa env = false) (hi : Indexes regs insn w.memory)
    (ha : (regs.get insn.rs + insn.extra).toNat % z.bytes = 0) :
    Assigns rt ra l w (insn.partialLoadCode env z isSigned) [(insn.rt,
      Arch.load (z.loadOpcode isSigned) w.memory.flat (regs.get insn.rs + insn.extra).toNat)] := by
  intro s
  obtain ⟨n, hn, hv⟩ := hm
  have hlt := Memory.word_lt hi.2
  rw [Instruction.partialLoadCode, hin, hra]
  simp only [Bool.not_true, Bool.false_eq_true, if_false, List.append_assoc, List.cons_append,
    List.nil_append]
  rw [Bc.exec_pushmem hn hv, exec_pushindex hl hs, exec_op (exec_iaload hi.1 hlt s),
    exec_pushLaneShift hl hs, exec_intOp rfl, exec_extendCode, exec_pop hd,
    z.extend_lane isSigned w.memory ha hlt]
  rfl

theorem inlineStore_stores (hl : Holds ra regs l) (hm : HoldsMemory ra l)
    (hs : Readable ra insn.rs) (ht : Readable ra insn.rt) (hin : insn.inlinesPartial env = true)
    (hra : insn.skipsRa env = false) (hi : Indexes regs insn w.memory)
    (ha : (regs.get insn.rs + insn.extra).toNat % z.bytes = 0) :
    Stores rt ra l w (insn.partialStoreCode env z)
      (w.memory.setWord ((regs.get insn.rs + insn.extra).toNat / 4)
        (Lanes.insert (8 * z.bytes) (w.memory.words.get ⟨_, Memory.word_lt hi.2⟩)
          (regs.get insn.rt) (8 * (4 - z.bytes - (regs.get insn.rs + insn.extra).toNat % 4)))) := by
  intro s
  obtain ⟨n, hn, hv⟩ := hm
  have hlt := Memory.word_lt hi.2
  have hx := z.insert_lane ha (w.memory.words.get ⟨_, hlt⟩) (regs.get insn.rt)
  rw [Instruction.partialStoreCode, hin, hra]
  simp only [Bool.not_true, Bool.false_eq_true, if_false, List.append_assoc, List.cons_append,
    List.nil_append]
  rw [Bc.exec_pushmem hn hv, exec_pushindex hl hs, exec_op (Jvm.exec_dup2_int _ _ _ _ _ rfl),
    exec_op (exec_iaload hi.1 hlt _), Bc.exec_pushconst, exec_pushLaneShift hl hs,
    exec_op (Jvm.exec_dup_x2_int ..), exec_intOp rfl, Bc.exec_pushconst, exec_intOp rfl,
    exec_intOp rfl, exec_op (Jvm.exec_swap _ _ _ _ rfl rfl), Bc.exec_pushregister hl ht,
    Bc.exec_pushconst, exec_intOp rfl, exec_op (Jvm.exec_swap _ _ _ _ rfl rfl), exec_intOp rfl,
    exec_intOp rfl, exec_op (exec_iastore hi.1 hlt _ s)]
  rw [List.get_eq_getElem] at hx ⊢
  rw [hx]
  rfl

theorem exec_memoryRead (h : ReadWhat.call what a w.memory = (.ok v, w.memory)) (s : List Value) :
    Op.exec rt (.memoryRead what) ⟨.int a :: s, l, w⟩ = .ok ⟨.int v :: s, l, w⟩ := by
  rw [Op.exec, Jvm.ofMemM, h]
  rfl

theorem exec_memoryWrite (h : WriteWhat.call what a v w.memory = (.ok (), m)) (s : List Value) :
    Op.exec rt (.memoryWrite what) ⟨.int v :: .int a :: s, l, w⟩ =
      .ok ⟨s, l, { w with memory := m }⟩ := by
  rw [Op.exec, Jvm.ofMemM, h]
  rfl

theorem exec_memoryWritePc (h : WriteWhat.callPc what pc a v w.memory = (.ok (), m))
    (s : List Value) :
    Op.exec rt (.memoryWritePc what) ⟨.int v :: .int a :: .int pc :: s, l, w⟩ =
      .ok ⟨s, l, { w with memory := m }⟩ := by
  rw [Op.exec, Jvm.ofMemM, h]
  rfl

theorem loadCall_assigns (hl : Holds ra regs l) (hs : Readable ra insn.rs)
    (hd : Writable ra insn.rt) {z : WordSize} (hj : env.config.optimizePartialMemoryOps = false)
    (h : (regs.get insn.rs + insn.extra).toNat < w.memory.size)
    (ha : (regs.get insn.rs + insn.extra).toNat % z.bytes = 0) :
    Assigns rt ra l w (insn.loadXXCode env (z.readWhat isSigned)) [(insn.rt,
      Arch.load (z.loadOpcode isSigned) w.memory.flat (regs.get insn.rs + insn.extra).toNat)] := by
  intro s
  have hc : ¬ (env.config.optimizePartialMemoryOps ∧ insn.opcode ≠ .lwl ∧ insn.opcode ≠ .lwr) := by
    rw [hj]
    exact fun h => Bool.false_ne_true h.1
  rw [Instruction.loadXXCode, if_neg hc, exec_pushaddress hl hs,
    exec_op (exec_memoryRead (z.read_call isSigned ha h) s), exec_pop hd]
  rfl

theorem store_store (o : Opcode) (f : Lanes.Flat) (a : Nat) (v : Word) :
    Arch.store o (Arch.store o f a v) a v = Arch.store o f a v := by
  funext i
  rw [Arch.store, Arch.store]
  by_cases h : a ≤ i ∧ i < a + Arch.accessSize o
  · rw [Lanes.write_of_mem h, Lanes.write_of_mem h]
  · rw [Lanes.write_of_not_mem h]

/-- The memory after a store by `insn`. -/
structure Stored (regs : RegFile) (insn : Instruction) (o : Opcode) (m m' : Memory) : Prop where
  flat : m'.flat = Arch.store o m.flat (regs.get insn.rs + insn.extra).toNat (regs.get insn.rt)
  size : m'.size = m.size

theorem Stored.twice (h : Stored regs insn o m m₁) (h' : Stored regs insn o m₁ m₂) :
    Stored regs insn o m m₂ where
  flat := by rw [h'.flat, h.flat, store_store]
  size := h'.size.trans h.size

theorem exec_storeCall (rt : Runtime σ) (w : World σ) (hl : Holds ra regs l)
    (hs : Readable ra insn.rs)
    (ht : Readable ra insn.rt) {what : WriteWhat} (hw : what ≠ .wordLeft)
    (h : (regs.get insn.rs + insn.extra).toNat < w.memory.size)
    (ha : (regs.get insn.rs + insn.extra).toNat % Arch.accessSize what.opcode = 0) :
    ∃ m', Stores rt ra l w (pushaddress insn.rs insn.extra ++
        [.pushregister insn.rt, op (.memoryWrite what)]) m' ∧
      Stored regs insn what.opcode w.memory m' := by
  obtain ⟨m', hc, hf, hz⟩ := Jvm.WriteWhat.write_call hw ha h (regs.get insn.rt)
  refine ⟨m', ?_, hf, hz⟩
  intro s
  rw [exec_pushaddress hl hs, Bc.exec_pushregister hl ht, exec_op (exec_memoryWrite hc s)]
  rfl

/-- The traced store comes before the store itself and has the same effect. -/
theorem exec_traceStore (rt : Runtime σ) (env : Env) (hl : Holds ra regs l)
    (hs : Readable ra insn.rs)
    (ht : Readable ra insn.rt) {what : WriteWhat} (hw : what ≠ .wordLeft)
    (htr : env.config.traceStores = true →
      HeaderReadable w.memory (regs.get insn.rs + insn.extra))
    (h : (regs.get insn.rs + insn.extra).toNat < w.memory.size)
    (ha : (regs.get insn.rs + insn.extra).toNat % Arch.accessSize what.opcode = 0) :
    ∃ m', (∀ s bs, exec rt (lowerAll ra ((if env.config.traceStores then insn.traceStore what
        else []) ++ bs)) ⟨s, l, w⟩ = exec rt (lowerAll ra bs) ⟨s, l, { w with memory := m' }⟩) ∧
      (m' = w.memory ∨ Stored regs insn what.opcode w.memory m') := by
  cases hc : env.config.traceStores with
  | false => exact ⟨w.memory, fun s bs => rfl, .inl rfl⟩
  | true =>
    obtain ⟨m', hm, hf, hz⟩ := Jvm.WriteWhat.write_call hw ha h (regs.get insn.rt)
    refine ⟨m', ?_, .inr ⟨hf, hz⟩⟩
    intro s bs
    rw [← what.callPc_readable (htr hc) insn.address] at hm
    rw [if_pos rfl, Instruction.traceStore, List.append_assoc, List.append_assoc,
      List.singleton_append, Bc.exec_pushconst, exec_pushaddress hl hs, List.cons_append,
      Bc.exec_pushregister hl ht, List.cons_append, exec_op (exec_memoryWritePc hm s)]
    rfl

theorem Stored.of_trace (h : m₁ = m ∨ Stored regs insn o m m₁) (h' : Stored regs insn o m₁ m₂) :
    Stored regs insn o m m₂ := by
  rcases h with rfl | h
  · exact h'
  · exact h.twice h'

theorem size_of_trace (h : m₁ = m ∨ Stored regs insn o m m₁) : m₁.size = m.size := by
  rcases h with rfl | h
  · rfl
  · exact h.size

theorem storeXX_stores (hl : Holds ra regs l) (hs : Readable ra insn.rs)
    (ht : Readable ra insn.rt) {what : WriteWhat} (hw : what ≠ .wordLeft)
    (htr : env.config.traceStores = true →
      HeaderReadable w.memory (regs.get insn.rs + insn.extra))
    (h : (regs.get insn.rs + insn.extra).toNat < w.memory.size)
    (ha : (regs.get insn.rs + insn.extra).toNat % Arch.accessSize what.opcode = 0) :
    ∃ m', Stores rt ra l w (insn.storeXXCode env what) m' ∧
      Stored regs insn what.opcode w.memory m' := by
  obtain ⟨m₁, he, hm⟩ := exec_traceStore rt env hl hs ht hw htr h ha
  obtain ⟨m₂, hst, hm₂⟩ := exec_storeCall rt { w with memory := m₁ } hl hs ht hw
    (size_of_trace hm ▸ h) ha
  refine ⟨m₂, ?_, .of_trace hm hm₂⟩
  intro s
  rw [Instruction.storeXXCode, List.append_assoc, he]
  exact hst s

theorem sw_stores (hl : Holds ra regs l) (hm : HoldsMemory ra l) (hs : Readable ra insn.rs)
    (ht : Readable ra insn.rt) (hra : insn.skipsRa env = false)
    (htr : env.config.traceStores = true →
      HeaderReadable w.memory (regs.get insn.rs + insn.extra))
    (hi : Indexes regs insn w.memory) (ha : (regs.get insn.rs + insn.extra).toNat % 4 = 0) :
    ∃ m', Stores rt ra l w (insn.swCode env) m' ∧ Stored regs insn .sw w.memory m' := by
  obtain ⟨n, hn, hv⟩ := hm
  have hw : WriteWhat.word ≠ .wordLeft := by decide
  obtain ⟨m₁, he, hm⟩ := exec_traceStore rt env hl hs ht hw htr hi.2 ha
  have hz := size_of_trace hm
  have hi₁ := hz ▸ hi.2
  refine ⟨_, ?_, .of_trace hm ⟨Memory.flat_setWord ha hi₁ (regs.get insn.rt),
    Memory.size_setWord ..⟩⟩
  intro s
  rw [Instruction.swCode, hra, if_neg Bool.false_ne_true, List.append_assoc, List.append_assoc,
    he, List.singleton_append, Bc.exec_pushmem hn hv, exec_pushindex hl hs,
    Bc.exec_pushregister hl ht,
    exec_op (exec_iastore (w := { w with memory := m₁ }) hi.1 (Memory.word_lt hi₁) _ s)]
  rfl

end

end Cibyl
