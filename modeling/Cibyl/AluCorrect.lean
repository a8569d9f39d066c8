import Cibyl.Alu

namespace Cibyl
set_option autoImplicit true

open Jvm (IntOp Value World Runtime exec)
open Bc (lowerAll)
open InstructionFactory

namespace Arch

theorem reg_ordinary (word : Word) (sh : Nat) : Reg.Ordinary (reg word sh) := by
  have hlt : (reg word sh).val < 32 := BitVec.isLt (word.extractLsb' sh 5)
  constructor <;> intro h <;> rw [h] at hlt <;> exact absurd hlt (by decide)

theorem shamt_lt (word : Word) : shamt word < 32 := BitVec.isLt _

end Arch

/-- `create` reaches its class switch for every arithmetic instruction. -/
theorem create_alu (hc : create address word = some insn) (ho : insn.opcode ∈ aluOpcodes) :
    insn.opcode = decodeOpcode word ∧
      ofOpcode address word insn.opcode (Arch.rs word) (Arch.rt word) (Arch.rd word)
        (decodeExtra word) = some insn := by
  apply create_ofOpcode hc
  all_goals
    intro h
    rw [h] at ho
    exact absurd ho (by decide)

def registerOpcodes : List Opcode :=
  [.add, .addu, .sub, .subu, .and, .or, .xor, .nor, .sllv, .srlv, .srav, .slt, .sltu]

def shiftOpcodes : List Opcode := [.sll, .srl, .sra]

def immediateOpcodes : List Opcode :=
  [.addi, .addiu, .andi, .ori, .xori, .lui, .slti, .sltiu]

def muldivOpcodes : List Opcode := [.mult, .multu, .div, .divu]

theorem aluOpcodes_cases : ∀ o ∈ aluOpcodes, o ∈ registerOpcodes ∨ o ∈ shiftOpcodes ∨
    o ∈ immediateOpcodes ∨ o ∈ muldivOpcodes ∨ o = .mfhi ∨ o = .mflo := by
  decide

theorem register_names (ho : o ∈ registerOpcodes) (word : Word) (regs : RegFile) :
    Arch.sources o word = [Arch.rs word, Arch.rt word] ∧
      Arch.destinations o word regs = [Arch.rd word] := by
  simp only [registerOpcodes, List.mem_cons, List.not_mem_nil, or_false] at ho
  rcases ho with rfl | rfl | rfl | rfl | rfl | rfl | rfl | rfl | rfl | rfl | rfl | rfl | rfl <;>
    exact ⟨rfl, rfl⟩

theorem shift_names (ho : o ∈ shiftOpcodes) (word : Word) (regs : RegFile) :
    Arch.sources o word = [Arch.rt word] ∧ Arch.destinations o word regs = [Arch.rd word] := by
  simp only [shiftOpcodes, List.mem_cons, List.not_mem_nil, or_false] at ho
  rcases ho with rfl | rfl | rfl <;> exact ⟨rfl, rfl⟩

theorem immediate_names (ho : o ∈ immediateOpcodes) (word : Word) (regs : RegFile) :
    (o ≠ .lui → Arch.sources o word = [Arch.rs word]) ∧
      Arch.destinations o word regs = [Arch.rt word] := by
  simp only [immediateOpcodes, List.mem_cons, List.not_mem_nil, or_false] at ho
  rcases ho with rfl | rfl | rfl | rfl | rfl | rfl | rfl | rfl
  case inr.inr.inr.inr.inr.inl => exact ⟨fun h => absurd rfl h, rfl⟩
  all_goals exact ⟨fun _ => rfl, rfl⟩

theorem muldiv_names (ho : o ∈ muldivOpcodes) (word : Word) (regs : RegFile) :
    Arch.sources o word = [Arch.rs word, Arch.rt word] ∧
      Arch.destinations o word regs = [Reg.lo, Reg.hi] := by
  simp only [muldivOpcodes, List.mem_cons, List.not_mem_nil, or_false] at ho
  rcases ho with rfl | rfl | rfl | rfl <;> exact ⟨rfl, rfl⟩

theorem op_entries_immediate : ∀ i < 64, ∀ o ∈ immediateOpcodes,
    Arch.immediateOpcode i = some o → mipsOpEntries.getD i (.res, .ifmt) = (o, .ifmt) := by
  decide

theorem special_not_immediate : ∀ i < 64, ∀ o ∈ immediateOpcodes,
    Arch.specialOpcode i ≠ some o := by
  decide

theorem immediate_not_shift : ∀ i < 64, ∀ o ∈ shiftOpcodes, Arch.immediateOpcode i ≠ some o := by
  decide

theorem extra_of_shift (ho : decodeOpcode word ∈ shiftOpcodes)
    (ha : decodeOpcode word ∈ aluOpcodes) : (decodeExtra word).toNat = Arch.shamt word := by
  have hw := decodeOpcode_alu ha
  have hz : Arch.op word = 0 := by
    by_contra hne
    rw [Arch.aluOpcode, if_neg hne] at hw
    exact immediate_not_shift _ (op_lt word) _ ho hw
  apply decodeExtra_shamt
  rw [opEntry_eq, hz]
  rfl

theorem extra_of_immediate (ho : decodeOpcode word ∈ immediateOpcodes)
    (ha : decodeOpcode word ∈ aluOpcodes) :
    decodeExtra word = if mipsZeroExtendOpcode (decodeOpcode word)
      then (Arch.imm word).setWidth 32 else (Arch.imm word).signExtend 32 := by
  have hw := decodeOpcode_alu ha
  rw [Arch.aluOpcode] at hw
  split at hw
  · exact absurd hw (special_not_immediate _ (funct_lt word) _ ho)
  · have he := op_entries_immediate _ (op_lt word) _ ho hw
    rw [← opEntry_eq] at he
    have hi : decodeExtra word = _ := decodeExtra_imm (by rw [he])
    rwa [he] at hi

theorem signext_signExtend (b : BitVec 16) : signext_16 (b.signExtend 32) = b.signExtend 32 := by
  have hb : (b.signExtend 32).setWidth 16 = b := by
    apply BitVec.eq_of_getLsbD_eq
    intro i hi
    have hi' : i < 32 := by omega
    rw [BitVec.getLsbD_setWidth, BitVec.getLsbD_signExtend, decide_eq_true hi, decide_eq_true hi',
      if_pos hi]
    rfl
  rw [signext_16, hb]

section

variable {ra : RegisterAllocator} {rt : Runtime σ} {w : World σ} {regs : RegFile}
  {l : Nat → Value} {insn : Instruction} {env : Env}

/-- What the code of an arithmetic instruction assigns: all that the architecture says, or all
but HI where the method has no use for it. -/
def AssignsAlu (rt : Runtime σ) (ra : RegisterAllocator) (l : Nat → Value) (w : World σ)
    (env : Env) (insn : Instruction) (ws : List (Reg × Word)) : Prop :=
  Assigns rt ra l w (insn.code env) ws ∨
    insn.usingHi env = false ∧
      Assigns rt ra l w (insn.code env) (ws.filter (fun p => p.1 ≠ Reg.hi))

theorem register_assigns (ho : o ∈ registerOpcodes)
    (hc : ofOpcode address word o (Arch.rs word) (Arch.rt word) (Arch.rd word) extra = some insn)
    (hl : Holds ra regs l) (hs : Readable ra (Arch.rs word)) (ht : Readable ra (Arch.rt word))
    (hd : Writable ra (Arch.rd word)) :
    Assigns rt ra l w (insn.code env) (Arch.writes o word regs) := by
  simp only [registerOpcodes, List.mem_cons, List.not_mem_nil, or_false] at ho
  rcases ho with rfl | rfl | rfl | rfl | rfl | rfl | rfl | rfl | rfl | rfl | rfl | rfl | rfl <;>
    cases hc
  · exact binary_assigns hl hs ht hd rfl
  · exact adduCode_assigns hl hs ht hd
  · exact binary_assigns hl hs ht hd rfl
  · exact subuCode_assigns hl hs ht hd
  · exact binary_assigns hl hs ht hd rfl
  · exact binary_assigns hl hs ht hd rfl
  · exact binary_assigns hl hs ht hd rfl
  · exact norCode_assigns hl hs ht hd
  · exact binary_assigns hl ht hs hd rfl
  · exact binary_assigns hl ht hs hd rfl
  · exact binary_assigns hl ht hs hd rfl
  · exact sltCode_assigns hl hs ht hd
  · exact sltuCode_assigns hl hs ht hd

theorem shift_assigns (ho : o ∈ shiftOpcodes) (hx : extra.toNat = Arch.shamt word)
    (hc : ofOpcode address word o (Arch.rs word) (Arch.rt word) (Arch.rd word) extra = some insn)
    (hl : Holds ra regs l) (ht : Readable ra (Arch.rt word)) (hd : Writable ra (Arch.rd word)) :
    Assigns rt ra l w (insn.code env) (Arch.writes o word regs) := by
  have hm : extra.toNat % 32 = Arch.shamt word := by
    rw [hx, Nat.mod_eq_of_lt (Arch.shamt_lt word)]
  simp only [shiftOpcodes, List.mem_cons, List.not_mem_nil, or_false] at ho
  rcases ho with rfl | rfl | rfl <;> cases hc
  · exact shiftCode_assigns hl ht hd (congrArg (fun n => Except.ok (_ <<< n)) hm)
  · exact shiftCode_assigns hl ht hd (congrArg (fun n => Except.ok (_ >>> n)) hm)
  · exact shiftCode_assigns hl ht hd (congrArg (fun n => Except.ok (BitVec.sshiftRight _ n)) hm)

theorem immediateOpcode_assigns (ho : o ∈ immediateOpcodes)
    (hx : extra = if mipsZeroExtendOpcode o then (Arch.imm word).setWidth 32
      else (Arch.imm word).signExtend 32)
    (hc : ofOpcode address word o (Arch.rs word) (Arch.rt word) (Arch.rd word) extra = some insn)
    (hl : Holds ra regs l) (hs : o ≠ .lui → Readable ra (Arch.rs word))
    (hd : Writable ra (Arch.rt word)) :
    Assigns rt ra l w (insn.code env) (Arch.writes o word regs) := by
  simp only [immediateOpcodes, List.mem_cons, List.not_mem_nil, or_false] at ho
  rcases ho with rfl | rfl | rfl | rfl | rfl | rfl | rfl | rfl <;> cases hc
  · cases (show extra = (Arch.imm word).signExtend 32 from hx)
    exact addiCode_assigns hl (hs (by decide)) hd (signext_signExtend _)
  · cases (show extra = (Arch.imm word).signExtend 32 from hx)
    exact addiCode_assigns hl (hs (by decide)) hd (signext_signExtend _)
  · cases (show extra = (Arch.imm word).setWidth 32 from hx)
    exact immediate_assigns hl (hs (by decide)) hd rfl
  · cases (show extra = (Arch.imm word).setWidth 32 from hx)
    exact immediate_assigns hl (hs (by decide)) hd rfl
  · cases (show extra = (Arch.imm word).setWidth 32 from hx)
    exact immediate_assigns hl (hs (by decide)) hd rfl
  · cases (show extra = (Arch.imm word).signExtend 32 from hx)
    exact luiCode_assigns hd (and_low_signExtend _)
  · cases (show extra = (Arch.imm word).signExtend 32 from hx)
    exact sltiCode_assigns hl (hs (by decide)) hd
  · cases (show extra = (Arch.imm word).signExtend 32 from hx)
    exact sltiuCode_assigns hl (hs (by decide)) hd

/-- The product and quotient instructions with what they need to know of HI and the divisor. -/
theorem muldiv_assigns (ho : o ∈ muldivOpcodes)
    (hc : ofOpcode address word o (Arch.rs word) (Arch.rt word) (Arch.rd word) extra = some insn)
    (hl : Holds ra regs l) (hs : Readable ra (Arch.rs word)) (ht : Readable ra (Arch.rt word))
    (hlo : Writable ra Reg.lo) (hhi : Writable ra Reg.hi)
    (hz : o = .div ∨ o = .divu → regs.get (Arch.rt word) ≠ 0) :
    AssignsAlu rt ra l w env insn (Arch.writes o word regs) := by
  simp only [muldivOpcodes, List.mem_cons, List.not_mem_nil, or_false] at ho
  rcases ho with rfl | rfl | rfl | rfl <;> cases hc
  · cases hu : Instruction.usingHi env
      ⟨.mult, address, .mult, Arch.rs word, Arch.rt word, 0, 0⟩ with
    | true => exact .inl (mult_assigns hl hs ht hlo hhi hu)
    | false => exact .inr ⟨hu, mult_low_assigns hl hs ht hlo hu⟩
  · exact .inl (multu_assigns hl hs ht hlo hhi)
  · have hz := hz (.inl rfl)
    cases hu : Instruction.usingHi env ⟨.div, address, .div, Arch.rs word, Arch.rt word, 0, 0⟩ with
    | true => exact .inl (div_assigns hl hs ht hlo hhi hz hu)
    | false => exact .inr ⟨hu, div_low_assigns hl hs ht hlo hz hu⟩
  · exact .inl (divu_assigns hl hs ht hlo hhi (hz (.inr rfl)))

/-- The pieces above for whichever instruction `o` is. -/
theorem code_assigns (hc : ofOpcode address word insn.opcode (Arch.rs word) (Arch.rt word)
      (Arch.rd word) (decodeExtra word) = some insn)
    (ho : insn.opcode ∈ aluOpcodes) (hdec : insn.opcode = decodeOpcode word)
    (ha : ∀ r ∈ Arch.sources insn.opcode word ++ Arch.destinations insn.opcode word regs,
      r ≠ Reg.zero → ra.regIsAllocated r)
    (hd : ∀ d ∈ Arch.destinations insn.opcode word regs, d ≠ Reg.zero)
    (hz : insn.opcode = .div ∨ insn.opcode = .divu → regs.get (Arch.rt word) ≠ 0)
    (hl : Holds ra regs l) :
    AssignsAlu rt ra l w env insn (Arch.writes insn.opcode word regs) := by
  have hr (r : Reg) (hm : Reg.Ordinary r) (hs : r ∈ Arch.sources insn.opcode word) :
      Readable ra r := by
    refine ⟨?_, hm⟩
    by_cases hz : r = Reg.zero
    · exact .inl hz
    · exact .inr (ha r (List.mem_append_left _ hs) hz)
  have hw (r : Reg) (hm : Reg.Ordinary r) (hs : r ∈ Arch.destinations insn.opcode word regs) :
      Writable ra r := ⟨ha r (List.mem_append_right _ hs) (hd r hs), hm⟩
  have hrs := Arch.reg_ordinary word 21
  have hrt := Arch.reg_ordinary word 16
  have hrd := Arch.reg_ordinary word 11
  rcases aluOpcodes_cases _ ho with h | h | h | h | h | h
  · obtain ⟨hs, hn⟩ := register_names h word regs
    rw [hs] at hr
    rw [hn] at hw
    exact .inl (register_assigns h hc hl (hr _ hrs (.head _)) (hr _ hrt (.tail _ (.head _)))
      (hw _ hrd (.head _)))
  · obtain ⟨hs, hn⟩ := shift_names h word regs
    rw [hs] at hr
    rw [hn] at hw
    exact .inl (shift_assigns h (extra_of_shift (hdec ▸ h) (hdec ▸ ho)) hc hl
      (hr _ hrt (.head _)) (hw _ hrd (.head _)))
  · obtain ⟨hs, hn⟩ := immediate_names h word regs
    have hx := extra_of_immediate (hdec ▸ h) (hdec ▸ ho)
    rw [← hdec] at hx
    rw [hn] at hw
    exact .inl (immediateOpcode_assigns h hx hc hl
      (fun hne => hr _ hrs (by rw [hs hne]; exact .head _)) (hw _ hrt (.head _)))
  · obtain ⟨hs, hn⟩ := muldiv_names h word regs
    rw [hs] at hr
    rw [hn] at hw
    exact muldiv_assigns h hc hl (hr _ hrs (.head _)) (hr _ hrt (.tail _ (.head _)))
      (hw _ (by decide) (.head _)) (hw _ (by decide) (.tail _ (.head _))) hz
  · rw [h] at hc hr hw ⊢
    cases hc
    exact .inl (move_assigns hl (hr Reg.hi (by decide) (.head _)) (hw _ hrd (.head _)))
  · rw [h] at hc hr hw ⊢
    cases hc
    exact .inl (move_assigns hl (hr Reg.lo (by decide) (.head _)) (hw _ hrd (.head _)))

end

/-- The method has an instruction with this opcode, in a slot of its own or in a delay slot. -/
def JavaMethod.Contains (m : JavaMethod) (op : Opcode) : Prop :=
  ∃ fn ∈ m.functions, ∃ bb ∈ fn.bbs, ∃ e ∈ bb.insns, op ∈ e.usedOpcodes

theorem JavaMethod.Contains.opcodeIsUsed {m : JavaMethod} (h : m.Contains op) (hn : op ≠ .none) :
    m.opcodeIsUsed op = true := by
  obtain ⟨fn, hf, bb, hb, e, he, ho⟩ := h
  refine List.any_eq_true.mpr ⟨fn, hf, ?_⟩
  exact List.contains_iff_mem.mpr (fn.used bb hb e he op ho hn)

theorem usingHi_of_contains {insn : Instruction} (hm : insn.method env = some m)
    (h : m.Contains .mfhi ∨ m.Contains .mthi) : insn.usingHi env = true := by
  rw [Instruction.usingHi, hm, Option.any_some, Bool.or_eq_true]
  exact h.imp (fun h => h.opcodeIsUsed (by decide)) (fun h => h.opcodeIsUsed (by decide))

def divMethod : JavaMethod := .ofInsn ⟨.div, 0x1000, .div, Reg.a0, Reg.a1, 0, 0⟩

def divRegs : RegFile :=
  ⟨fun r => if r = Reg.a0 then 0x80000000 else if r = Reg.a1 then -1 else 0, rfl⟩

end Cibyl
