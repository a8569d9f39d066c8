import Cibyl.Architecture
import Cibyl.Instruction
import Cibyl.Library.ByteLanes

namespace Cibyl
set_option autoImplicit true

open InstructionFactory

theorem field_toNat (hn : n ≤ 32) (word : Word) (sh : Nat) :
    ((word >>> sh) &&& BitVec.ofNat 32 (2 ^ n - 1)).toNat = (word.extractLsb' sh n).toNat := by
  rw [Lanes.shift_mask]
  exact BitVec.toNat_setWidth_of_le hn

theorem low_field_toNat (hn : n ≤ 32) (word : Word) :
    (word &&& BitVec.ofNat 32 (2 ^ n - 1)).toNat = (word.extractLsb' 0 n).toNat := by
  have h := field_toNat hn word 0
  rwa [BitVec.ushiftRight_zero] at h

theorem registerField_eq (word : Word) (sh : Nat) : registerField word sh = Arch.reg word sh :=
  Fin.ext (field_toNat (n := 5) (by decide) word sh)

theorem encodingGetRs_eq (word : Word) : encodingGetRs word = Arch.rs word :=
  registerField_eq word 21

theorem encodingGetRt_eq (word : Word) : encodingGetRt word = Arch.rt word :=
  registerField_eq word 16

theorem encodingGetRd_eq (word : Word) : encodingGetRd word = Arch.rd word :=
  registerField_eq word 11

theorem opEntry_eq (word : Word) : opEntry word = mipsOpEntries.getD (Arch.op word) (.res, .ifmt) :=
  congrArg (fun i => mipsOpEntries.getD i _) (field_toNat (n := 6) (by decide) word 26)

theorem funct_eq (word : Word) : (word &&& 0x3f).toNat = Arch.funct word :=
  low_field_toNat (n := 6) (by decide) word

theorem op_lt (word : Word) : Arch.op word < 64 := BitVec.isLt _

theorem funct_lt (word : Word) : Arch.funct word < 64 := BitVec.isLt _

def aluOpcodes : List Opcode :=
  [.add, .addu, .sub, .subu, .and, .or, .xor, .nor, .sllv, .srlv, .srav, .sll, .srl, .sra,
   .addi, .addiu, .andi, .ori, .xori, .lui, .slt, .sltu, .slti, .sltiu, .mfhi, .mflo,
   .mult, .multu, .div, .divu]

def memoryOpcodes : List Opcode := [.lb, .lbu, .lh, .lhu, .lw, .sb, .sh, .sw]

theorem special_table_alu : ∀ i < 64, mipsSpecialTable.getD i .res ∈ aluOpcodes →
    Arch.specialOpcode i = some (mipsSpecialTable.getD i .res) := by
  decide

theorem cop1_table_not_alu : ∀ i < 64, mipsCop1Table.getD i .res ∉ aluOpcodes := by
  decide

theorem bcond_not_alu (word : Word) : bcondOpcode word ∉ aluOpcodes := by
  rw [bcondOpcode]
  repeat' split
  all_goals decide

/-- The opcode column of the main table agrees with the architecture outside the subtables. -/
theorem op_entries_alu : ∀ i < 64, (mipsOpEntries.getD i (.res, .ifmt)).1 ∈ aluOpcodes →
    i ≠ 0 ∧ Arch.immediateOpcode i = some (mipsOpEntries.getD i (.res, .ifmt)).1 := by
  decide

theorem op_entries_special :
    ∀ i < 64, (mipsOpEntries.getD i (.res, .ifmt)).1 = .special ↔ i = 0 := by
  decide

theorem decodeOpcode_alu (h : decodeOpcode word ∈ aluOpcodes) :
    Arch.aluOpcode word = some (decodeOpcode word) := by
  have ho := op_entries_alu (Arch.op word) (op_lt word)
  have hs := op_entries_special (Arch.op word) (op_lt word)
  rw [decodeOpcode, opEntry_eq, funct_eq] at h ⊢
  rw [Arch.aluOpcode]
  split at h
  · next he =>
    rw [if_pos (hs.mp he)]
    exact special_table_alu _ (funct_lt word) h
  · exact absurd h (bcond_not_alu word)
  · exact absurd h (cop1_table_not_alu _ (funct_lt word))
  · obtain ⟨hne, hi⟩ := ho h
    rw [if_neg hne]
    exact hi

theorem low_half (word : Word) : word &&& 0xffff = (Arch.imm word).setWidth 32 := by
  have h := Lanes.shift_mask 16 word 0
  rwa [BitVec.ushiftRight_zero] at h

theorem and_low_signExtend (b : BitVec 16) : b.signExtend 32 &&& 0xffff = b.setWidth 32 := by
  have hm : (0xffff : Word) = BitVec.ofNat 32 (2 ^ 16 - 1) := rfl
  apply BitVec.eq_of_getLsbD_eq
  intro i hi
  rw [hm, BitVec.getLsbD_and, Lanes.getLsbD_mask, BitVec.getLsbD_signExtend,
    BitVec.getLsbD_setWidth, decide_eq_true hi]
  by_cases hin : i < 16
  · rw [if_pos hin, decide_eq_true hin, Bool.true_and, Bool.true_and, Bool.and_true]
  · rw [decide_eq_false hin, BitVec.getLsbD_of_ge b i (Nat.le_of_not_lt hin)]
    simp only [Bool.and_false]

/-- The immediate of the table's I-format entries is extended as the opcode asks. -/
theorem decodeExtra_imm (hf : (opEntry word).2 = .ifmt) :
    decodeExtra word = if mipsZeroExtendOpcode (opEntry word).1 then (Arch.imm word).setWidth 32
      else (Arch.imm word).signExtend 32 := by
  have hs := Lanes.and_signBit (n := 16) (by decide) (by decide) (Arch.imm word)
  have hp : BitVec.twoPow 32 (16 - 1) = (0x8000 : Word) := by decide
  have hm : ~~~BitVec.ofNat 32 (2 ^ 16 - 1) = (0xffff0000 : Word) := by decide
  rw [hp] at hs
  rw [Lanes.signExtend_or, hm, decodeExtra]
  generalize opEntry word = e at hf ⊢
  obtain ⟨o, f⟩ := e
  cases hf
  simp only [low_half, hs]
  cases mipsZeroExtendOpcode o with
  | true => rfl
  | false =>
    cases (Arch.imm word).msb with
    | false => rfl
    | true => exact BitVec.or_comm _ _

theorem decodeExtra_shamt (hf : (opEntry word).2 = .rfmt) :
    (decodeExtra word).toNat = Arch.shamt word := by
  rw [decodeExtra]
  generalize opEntry word = e at hf ⊢
  obtain ⟨o, f⟩ := e
  cases hf
  exact field_toNat (n := 5) (by decide) word 6

/-- With the unaligned accesses, of which the other half is a nop. -/
def accessOpcodes : List Opcode := memoryOpcodes ++ [.lwl, .swl]

theorem op_entries_memory : ∀ i < 64, (mipsOpEntries.getD i (.res, .ifmt)).1 ∈ memoryOpcodes →
    Arch.memoryOpcode i = some (mipsOpEntries.getD i (.res, .ifmt)).1 := by
  decide

theorem op_entries_access : ∀ i < 64, (mipsOpEntries.getD i (.res, .ifmt)).1 ∈ accessOpcodes →
    (mipsOpEntries.getD i (.res, .ifmt)).2 = .ifmt := by
  decide

theorem special_table_not_access : ∀ i < 64, mipsSpecialTable.getD i .res ∉ accessOpcodes := by
  decide

theorem cop1_table_not_access : ∀ i < 64, mipsCop1Table.getD i .res ∉ accessOpcodes := by
  decide

theorem bcond_not_access (word : Word) : bcondOpcode word ∉ accessOpcodes := by
  rw [bcondOpcode]
  repeat' split
  all_goals decide

theorem decodeOpcode_access (h : decodeOpcode word ∈ accessOpcodes) :
    opEntry word = (decodeOpcode word, .ifmt) := by
  have ho := op_entries_access (Arch.op word) (op_lt word)
  rw [← opEntry_eq] at ho
  rw [decodeOpcode] at h ⊢
  split at h
  · exact absurd h (special_table_not_access _ (funct_eq word ▸ funct_lt word))
  · exact absurd h (bcond_not_access word)
  · exact absurd h (cop1_table_not_access _ (funct_eq word ▸ funct_lt word))
  · exact Prod.ext rfl (ho h)

theorem decodeOpcode_memory (h : decodeOpcode word ∈ memoryOpcodes) :
    Arch.memoryOpcode (Arch.op word) = some (decodeOpcode word) := by
  have ho := op_entries_memory (Arch.op word) (op_lt word)
  rw [← opEntry_eq, decodeOpcode_access (List.mem_append_left _ h)] at ho
  exact ho h

def branchOpcodes : List Opcode := [.beq, .bne, .blez, .bgtz, .bltz, .bgez, .j, .jr]

theorem rt_field (word : Word) :
    word &&& (0x1f0000 : Word) = BitVec.ofNat 32 (Arch.rt word).val <<< 16 := by
  rw [← encodingGetRt_eq, encodingGetRt, registerField, BitVec.ofNat_toNat, BitVec.setWidth_eq]
  exact Lanes.and_field 5 word 16

theorem bcondOpcode_eq (word : Word) : bcondOpcode word =
    if Arch.rt word = 0 then .bltz else if Arch.rt word = 1 then .bgez
    else if Arch.rt word = 16 then .bltzal else if Arch.rt word = 17 then .bgezal else .unimp := by
  rw [bcondOpcode, rt_field]
  generalize Arch.rt word = r
  revert r
  decide

theorem bcondOpcode_branch (h : bcondOpcode word ∈ branchOpcodes) :
    (if Arch.rt word = 0 then some Opcode.bltz else if Arch.rt word = 1 then some .bgez
      else none) = some (bcondOpcode word) := by
  rw [bcondOpcode_eq] at h ⊢
  generalize Arch.rt word = r at h ⊢
  revert r
  decide

theorem special_table_branch : ∀ i < 64, mipsSpecialTable.getD i .res ∈ branchOpcodes →
    i = 8 ∧ mipsSpecialTable.getD i .res = .jr := by
  decide

theorem cop1_table_not_branch : ∀ i < 64, mipsCop1Table.getD i .res ∉ branchOpcodes := by
  decide

theorem op_entries_bcond : ∀ i < 64, (mipsOpEntries.getD i (.res, .ifmt)).1 = .bcond ↔ i = 1 := by
  decide

theorem op_entries_branch : ∀ i < 64, (mipsOpEntries.getD i (.res, .ifmt)).1 ∈ branchOpcodes →
    (i = 2 ∨ i = 4 ∨ i = 5 ∨ i = 6 ∨ i = 7) ∧
    (mipsOpEntries.getD i (.res, .ifmt)).2 = if i = 2 then .jfmt else .ifmt := by
  decide

theorem decodeOpcode_branch (h : decodeOpcode word ∈ branchOpcodes) :
    Arch.branchOpcode word = some (decodeOpcode word) := by
  have ho := op_entries_branch (Arch.op word) (op_lt word)
  have hs := op_entries_special (Arch.op word) (op_lt word)
  have hb := op_entries_bcond (Arch.op word) (op_lt word)
  rw [decodeOpcode, opEntry_eq, funct_eq] at h ⊢
  rw [Arch.branchOpcode]
  split at h
  · next he =>
    obtain ⟨hf, hj⟩ := special_table_branch _ (funct_lt word) h
    rw [hs.mp he, hj]
    exact if_pos hf
  · next he =>
    rw [hb.mp he]
    exact bcondOpcode_branch h
  · exact absurd h (cop1_table_not_branch _ (funct_lt word))
  · obtain ⟨hi, -⟩ := ho h
    generalize Arch.op word = i at hi
    rcases hi with rfl | rfl | rfl | rfl | rfl <;> rfl

/-- The format of a branch that is not a `jr`. -/
theorem opEntry_branch (h : decodeOpcode word ∈ branchOpcodes) (hr : decodeOpcode word ≠ .jr) :
    (opEntry word).2 = (if decodeOpcode word = .j then .jfmt else .ifmt) ∧
      mipsZeroExtendOpcode (opEntry word).1 = false := by
  have ho := op_entries_branch (Arch.op word) (op_lt word)
  have hb := op_entries_bcond (Arch.op word) (op_lt word)
  rw [decodeOpcode, opEntry_eq, funct_eq] at h hr ⊢
  split at h
  · next he =>
    rw [he] at hr
    exact absurd (special_table_branch _ (funct_lt word) h).2 hr
  · next he =>
    have hne : bcondOpcode word ≠ .j := by
      rw [bcondOpcode]
      repeat' split
      all_goals exact nofun
    rw [hb.mp he]
    exact ⟨(if_neg hne).symm, rfl⟩
  · exact absurd h (cop1_table_not_branch _ (funct_lt word))
  · obtain ⟨hi, -⟩ := ho h
    generalize Arch.op word = i at hi
    rcases hi with rfl | rfl | rfl | rfl | rfl <;> exact ⟨rfl, rfl⟩

theorem decodeExtra_branch (h : decodeOpcode word ∈ branchOpcodes) (hr : decodeOpcode word ≠ .jr)
    (hj : decodeOpcode word ≠ .j) : decodeExtra word = (Arch.imm word).signExtend 32 := by
  obtain ⟨hf, hz⟩ := opEntry_branch h hr
  rw [if_neg hj] at hf
  rw [decodeExtra_imm hf, hz]
  rfl

theorem decodeExtra_jump (h : decodeOpcode word = .j) :
    decodeExtra word = (word.extractLsb' 0 26).setWidth 32 := by
  have hl := Lanes.shift_mask 26 word 0
  rw [BitVec.ushiftRight_zero] at hl
  have hb : decodeOpcode word ∈ branchOpcodes := by
    rw [h]
    decide
  obtain ⟨hf, -⟩ := opEntry_branch hb (by rw [h]; exact nofun)
  rw [if_pos h] at hf
  rw [decodeExtra]
  generalize opEntry word = e at hf ⊢
  obtain ⟨o, f⟩ := e
  cases hf
  exact hl

theorem ofOpcode_opcode (h : ofOpcode address word o rs rt rd extra = some insn) :
    insn.opcode = o ∨ insn.opcode = .none := by
  cases o <;> first
    | (cases h; exact .inl rfl)
    | (cases h; exact .inr rfl)
    | (rw [ofOpcode] at h; split at h <;> cases h <;> exact .inl rfl)
    | cases h

/-- Where `create` has reached its class switch. -/
theorem create_ofOpcode (hc : create address word = some insn) (hn : insn.opcode ≠ .none)
    (hs : insn.opcode ≠ .cibylSyscall) (hr : insn.opcode ≠ .cibylRegisterArgument) :
    insn.opcode = decodeOpcode word ∧
      ofOpcode address word insn.opcode (Arch.rs word) (Arch.rt word) (Arch.rd word)
        (decodeExtra word) = some insn := by
  rw [create] at hc
  split at hc
  · cases hc
    exact absurd rfl hs
  · split at hc
    · cases hc
      exact absurd rfl hr
    · split at hc
      · cases hc
        exact absurd rfl hn
      · rw [encodingGetRs_eq, encodingGetRt_eq, encodingGetRd_eq] at hc
        rcases ofOpcode_opcode hc with h | h
        · exact ⟨h, h ▸ hc⟩
        · exact absurd h hn

theorem create_address (hc : create address word = some insn) : insn.address = address := by
  rw [create] at hc
  split at hc
  · cases hc
    rfl
  · split at hc
    · cases hc
      rfl
    · split at hc
      · cases hc
        rfl
      · generalize decodeOpcode word = o at hc
        cases o <;> first
          | (cases hc; rfl)
          | (rw [ofOpcode] at hc; split at hc <;> cases hc <;> rfl)
          | cases hc

theorem create_not_delaySlotNop (hc : create address word = some insn) :
    insn.kind ≠ .delaySlotNop := by
  rw [create] at hc
  split at hc
  · cases hc
    exact Kind.noConfusion
  · split at hc
    · cases hc
      exact Kind.noConfusion
    · split at hc
      · cases hc
        exact Kind.noConfusion
      · generalize decodeOpcode word = o at hc
        cases o <;> first
          | (cases hc; exact Kind.noConfusion)
          | (rw [ofOpcode] at hc; split at hc <;> cases hc <;> exact Kind.noConfusion)
          | cases hc

end Cibyl
