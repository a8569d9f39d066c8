import Cibyl.Coverage
import Cibyl.Handlers
import Cibyl.RegisterUse

namespace Cibyl
set_option autoImplicit true

open Bc (Uses uses_nil uses_append)
open InstructionFactory (create decodeOpcode ofOpcode)

/-- The index of a register that an instruction word can name, a double register included. -/
def Instruction.FieldsBelow (insn : Instruction) : Prop :=
  insn.rs.val < 72 ∧ insn.rt.val < 72 ∧ insn.rd.val < 72 ∧
    ∀ dst, insn.kind = .mtxx dst → dst.val < 72

theorem intToFpuReg_lt {r : Reg} (h : r.val < 32) : (intToFpuReg r).val < 72 := by
  rw [intToFpuReg, Fin.val_ofNat, Nat.mod_eq_of_lt (by omega)]
  omega

theorem create_fieldsBelow (hc : create address word = some insn) : insn.FieldsBelow := by
  have hs : (encodingGetRs word).val < 72 := Nat.lt_trans (registerField_lt _ _) (by decide)
  have ht : (encodingGetRt word).val < 72 := Nat.lt_trans (registerField_lt _ _) (by decide)
  have hd : (encodingGetRd word).val < 72 := Nat.lt_trans (registerField_lt _ _) (by decide)
  have hfs : (encodingGetFs word).val < 72 := intToFpuReg_lt (registerField_lt _ _)
  have hft : (encodingGetFt word).val < 72 := intToFpuReg_lt (registerField_lt _ _)
  have hfd : (encodingGetFd word).val < 72 := intToFpuReg_lt (registerField_lt _ _)
  have hfr : (intToFpuReg (encodingGetRt word)).val < 72 := intToFpuReg_lt (registerField_lt _ _)
  have h0 : (0 : Reg).val < 72 := by decide
  have hlo : Reg.lo.val < 72 := by decide
  have hhi : Reg.hi.val < 72 := by decide
  have hk {k : Kind} (h : ∀ dst, k ≠ .mtxx dst) : ∀ dst, k = .mtxx dst → dst.val < 72 :=
    fun dst hd => absurd hd (h dst)
  rw [create] at hc
  split at hc
  · cases hc
    exact ⟨h0, h0, h0, hk fun _ => Kind.noConfusion⟩
  · split at hc
    · cases hc
      exact ⟨h0, h0, h0, hk fun _ => Kind.noConfusion⟩
    · split at hc
      · cases hc
        exact ⟨h0, h0, h0, hk fun _ => Kind.noConfusion⟩
      · generalize decodeOpcode word = o at hc
        cases o
        case mtlo | mthi =>
          cases hc
          exact ⟨hd, h0, h0, by rintro dst ⟨⟩; decide⟩
        case beq | bne =>
          rw [ofOpcode] at hc
          split at hc <;> cases hc <;>
            exact ⟨by with_reducible assumption, by with_reducible assumption, h0,
              hk fun _ => Kind.noConfusion⟩
        all_goals first
          | (cases hc; exact ⟨h0, h0, h0, hk fun _ => Kind.noConfusion⟩)
          | (cases hc; exact ⟨by with_reducible assumption, by with_reducible assumption,
              by with_reducible assumption, hk fun _ => Kind.noConfusion⟩)
          | (cases hc; exact ⟨by with_reducible assumption, by with_reducible assumption,
              by with_reducible assumption, hk fun _ => by split <;> exact Kind.noConfusion⟩)
          | cases hc

namespace Instruction

/-- The loads and stores that read the memory array or may do so. -/
def usesMemory (insn : Instruction) : Bool :=
  match insn.kind with
  | .loadXX _ | .lw | .partialLoad .. | .lwc1 | .storeXX _ | .sw | .partialStore _ | .swc1 => true
  | _ => false

theorem mem_counts {insn : Instruction} (h : insn.usesMemory = true) :
    Reg.mem ∈ insn.counts env := by
  rw [counts]
  cases hk : insn.kind <;> simp only [usesMemory, hk] at h
  case loadXX | lw | partialLoad | lwc1 | storeXX | sw | partialStore | swc1 =>
    simp [fillSources, hk]
  all_goals cases h

theorem kind_of_builtin {insn : Instruction} (h : insn.builtin env = some b) :
    insn.kind = .jal ∨ insn.kind = .jalr ∨ insn.kind = .jalReturn := by
  by_contra hk
  rw [not_or, not_or] at hk
  rw [builtin_none hk.1 hk.2.2] at h
  cases h

theorem try_counts {insn : Instruction} (h : insn.builtin env = some .try_) :
    Reg.ecb ∈ insn.counts env ∧ Reg.ear ∈ insn.counts env ∧ Reg.sp ∈ insn.counts env := by
  obtain ⟨hc, hb, -⟩ := jal_counts env (kind_of_builtin h)
  exact ⟨hb _ h (by decide), hb _ h (by decide), hc (by decide)⟩

/-- The registers behind those of the instruction words are counted for memory accesses and for
`__NOPH_try` alone. -/
theorem counts_special {insn : Instruction} (hf : insn.FieldsBelow) (h : r ∈ insn.counts env)
    (hr : 73 ≤ r.val) : r = Reg.madr ∨ r = Reg.mem ∧ insn.usesMemory = true ∨
      (r = Reg.ecb ∨ r = Reg.ear) ∧ insn.builtin env = some .try_ := by
  obtain ⟨hs, ht, hd, hm⟩ := hf
  have hlow {l : List Reg} (h : r ∈ l) (hl : ∀ x ∈ l, x.val < 73) : False :=
    Nat.not_lt.mpr hr (hl r h)
  have hdouble {x : Reg} (hx : x.val < 72) : (x + 1).val < 73 := by
    rw [Fin.val_add, Nat.mod_eq_of_lt (by simp; omega)]
    simp
    omega
  rw [counts] at h
  cases hk : insn.kind <;> simp only [fillDestinations, fillSources, hk] at h
  case jal | jalr | jalReturn =>
    cases hb : insn.builtin env with
    | none =>
      refine (hlow h ?_).elim
      rw [hb]
      split <;> simp <;> omega
    | some b =>
      have hfill : ∀ x ∈ b.fillDestinations ++ b.fillSources,
          x.val < 73 ∨ (x = Reg.ecb ∨ x = Reg.ear) ∧ some b = some .try_ := by
        cases b <;> simp [Builtin.fillDestinations, Builtin.fillSources]
      have hb' (h : r ∈ b.fillDestinations ++ b.fillSources) : r = Reg.madr ∨
          r = Reg.mem ∧ insn.usesMemory = true ∨
            (r = Reg.ecb ∨ r = Reg.ear) ∧ some b = some .try_ :=
        (hfill r h).elim (fun h => absurd h (Nat.not_lt.mpr hr)) (fun h => .inr (.inr h))
      simp only [hb, Option.map_some, Option.getD_some, List.mem_append] at h hb'
      rcases h with ((h | h) | h) | h | h
      · exact (hlow h (by simp)).elim
      · exact hb' (.inl h)
      · refine (hlow h ?_).elim
        split <;> simp
      · refine (hlow h ?_).elim
        simp
        omega
      · exact hb' (.inr h)
  case loadXX | lw | partialLoad | lwc1 | storeXX | sw | partialStore | swc1 =>
    by_cases hma : r = Reg.madr
    · exact .inl hma
    · refine .inr (.inl ⟨?_, by rw [usesMemory, hk]⟩)
      by_contra hme
      refine hlow (l := [insn.rs, insn.rt]) ?_ (by simp; omega)
      simp at h
      grind
  case compFmtDouble | cmpFmtDouble =>
    refine (hlow h ?_).elim
    have h₁ := hdouble hs
    have h₂ := hdouble ht
    have h₃ := hdouble hd
    simp
    omega
  case mult | div =>
    refine (hlow h ?_).elim
    split <;> simp <;> omega
  case syscallInsn =>
    refine (hlow h ?_).elim
    split <;> simp
  case mtxx dst =>
    refine (hlow h ?_).elim
    have hdst := hm dst hk
    simp
    omega
  case syscallRegisterArgument =>
    refine (hlow h ?_).elim
    have ha : insn.argumentRegister.val < 32 := registerField_lt _ _
    simp
    omega
  all_goals
    refine (hlow h ?_).elim
    simp
    try omega

end Instruction

theorem mem_of_scanned (address : Word) (es : List Entry) (h : e ∈ scanned address es) :
    e ∈ es := by
  fun_induction scanned address es with
  | case1 => cases h
  | case2 e' _ => exact h
  | case3 e' _ d es ih =>
    rcases List.mem_cons.mp h with rfl | h
    · exact List.mem_cons_self ..
    · exact List.mem_cons_of_mem _ (List.mem_cons_of_mem _ (ih h))
  | case4 e' es _ ih =>
    rcases List.mem_cons.mp h with rfl | h
    · exact List.mem_cons_self ..
    · exact List.mem_cons_of_mem _ (ih h)

theorem splitBlocks_flatMap (address : Word) (ty : BbType) (cur es : List Entry) :
    (splitBlocks address ty cur es).flatMap BasicBlock.insns = cur ++ es := by
  fun_induction splitBlocks address ty cur es with
  | case1 ty cur h => rw [List.isEmpty_iff.mp h]; rfl
  | case2 ty cur h => simp
  | case3 ty cur e' _ h => simp
  | case4 ty cur e' _ h d es ih => simp [ih]
  | case5 ty cur e' es _ h ih => simp [ih]

/-- The functions of the method are those of symbols of the program. -/
def JavaMethod.Made (array : List Entry) (m : JavaMethod) : Prop :=
  ∃ ha : Attached array, ∀ fn ∈ m.functions, ∃ name start a b,
    Function.ofSymbol name start array ha a b = some fn

theorem Function.ofSymbol_slots {n : String} {ha : Attached array}
    (h : Function.ofSymbol n start array ha a b = some fn) :
    fn.entries = slice array a b ∧
      ∀ op, fn.opcodeIsUsed op = true → ∃ e ∈ fn.entries, op ∈ e.usedOpcodes := by
  rw [ofSymbol] at h
  split at h
  · cases h
  · next e es hs =>
    cases h
    have he : entries (create n start e es (hs ▸ ha.slice a b)) = e :: es :=
      splitBlocks_flatMap ..
    refine ⟨he.trans hs.symm, fun op hop => ?_⟩
    obtain ⟨e', he', hop⟩ := List.mem_flatMap.mp (List.contains_iff_mem.mp hop)
    rw [he]
    exact ⟨e', mem_of_scanned _ _ he', hop⟩

theorem exists_of_forall₂ {R : α → β → Prop} (h : List.Forall₂ R xs ys) (hy : y ∈ ys) :
    ∃ x ∈ xs, R x y := by
  induction h with
  | nil => cases hy
  | cons hr _ ih =>
    rcases List.mem_cons.mp hy with rfl | hy
    · exact ⟨_, List.mem_cons_self .., hr⟩
    · obtain ⟨x, hx, hr⟩ := ih hy
      exact ⟨x, List.mem_cons_of_mem _ hx, hr⟩

namespace JavaMethod

variable {m : JavaMethod} {array : List Entry}

/-- A slot of the method comes from one of the instruction array. -/
theorem Made.slot (hm : m.Made array) (hf : f ∈ m.slots env) :
    ∃ e ∈ array, Entry.Replaced e f := by
  obtain ⟨ha, hm⟩ := hm
  obtain ⟨fn, hfn, hf⟩ := List.mem_flatMap.mp hf
  obtain ⟨n, start, a, b, hs⟩ := hm fn hfn
  obtain ⟨e, he, hr⟩ := exists_of_forall₂ (fn.pass1_replaced env) hf
  rw [(Function.ofSymbol_slots hs).1] at he
  exact ⟨e, List.mem_of_mem_drop (List.mem_of_mem_take he), hr⟩

theorem mem_insns_slot : i ∈ m.insns env ↔ ∃ e ∈ m.slots env, i ∈ e.insns := List.mem_flatMap

/-- An instruction of the method is decoded from a word or put there by the passes. -/
theorem Made.insn (hm : m.Made array) (hp : Controller.pass0 base text = some array)
    (hi : i ∈ m.insns env) : (∃ a word, create a word = some i) ∨ i.kind = .delaySlotNop ∨
      i.kind = .nop ∨ ∃ a extra, i = InstructionFactory.createTailCallJump a extra := by
  obtain ⟨f, hf, hi⟩ := mem_insns_slot.mp hi
  obtain ⟨e, he, hr⟩ := hm.slot hf
  obtain ⟨he, hd⟩ := Controller.mem_pass0 hp he
  have hdelay {d : Instruction} (h : d ∈ e.delayed.toList) : ∃ a word, create a word = some d := by
    obtain ⟨word, -, hc⟩ := hd d (Option.mem_toList.mp h)
    exact ⟨_, word, hc⟩
  cases hr with
  | kept =>
    rcases List.mem_cons.mp hi with rfl | hi
    · rcases he with ⟨word, -, hc⟩ | ⟨hk, -⟩
      · exact .inl ⟨_, word, hc⟩
      · exact .inr (.inl hk)
    · exact .inl (hdelay hi)
  | tailCall =>
    rcases List.mem_cons.mp hi with rfl | hi
    · exact .inr (.inr (.inr ⟨_, _, rfl⟩))
    · exact .inl (hdelay hi)
  | pruned =>
    cases List.mem_singleton.mp hi
    exact .inr (.inr (.inl rfl))

/-- Only memory accesses and `__NOPH_try` count the special registers. -/
theorem Made.counts_special (hm : m.Made array) (hp : Controller.pass0 base text = some array)
    (hi : i ∈ m.insns env) (h : r ∈ i.counts env) (hr : 73 ≤ r.val) :
    r = Reg.madr ∨ r = Reg.mem ∧ i.usesMemory = true ∨
      (r = Reg.ecb ∨ r = Reg.ear) ∧ i.builtin env = some .try_ := by
  rcases hm.insn hp hi with ⟨a, word, hc⟩ | hk | hk | ⟨a, extra, rfl⟩
  · exact Instruction.counts_special (create_fieldsBelow hc) h hr
  · simp [Instruction.counts, Instruction.fillDestinations, Instruction.fillSources, hk] at h
  · simp [Instruction.counts, Instruction.fillDestinations, Instruction.fillSources, hk] at h
  · have h0 : (0 : Reg).val < 72 := by decide
    exact Instruction.counts_special ⟨h0, h0, h0, fun dst hd => by cases hd⟩ h hr

/-- The registers the functions of the method count. -/
def fills (env : Env) (m : JavaMethod) : List Reg :=
  m.functions.flatMap (fun fn => fn.fillDestinations env ++ fn.fillSources env)

/-- `registerUsage` counts the register before `setAllocation` runs. -/
def Counted (env : Env) (m : JavaMethod) (r : Reg) : Prop :=
  r = Reg.zero ∨ 0 < (m.pass1 env).registerUsage.count r

theorem counted_of_fills (h : r ∈ m.fills env) : m.Counted env r := by
  by_cases hz : r = Reg.zero
  · exact .inl hz
  · exact .inr (count_pos_of_filled ((RegisterUsage.pos_addAll _ _ _).mpr (.inr ⟨h, hz⟩)))

theorem fills_of_counted (h : m.Counted env r) (hz : r ≠ Reg.zero) (hf : r ≠ Reg.fna) :
    r ∈ m.fills env := by
  have hp := h.resolve_left hz
  simp only [pass1, pass1From] at hp
  have hfilled : 0 < (m.filled env).count r := by
    split at hp
    · rcases (RegisterUsage.pos_add _ _ _).mp hp with h | ⟨h, -⟩
      · exact h
      · exact absurd h hf
    · exact hp
  rcases (RegisterUsage.pos_addAll _ _ _).mp hfilled with h | ⟨h, -⟩
  · exact absurd h (Nat.lt_irrefl 0)
  · exact h

theorem mem_fills (h : i ∈ m.insns env) (hr : r ∈ i.counts env) : r ∈ m.fills env :=
  mem_fill h (List.mem_append.mp hr)

theorem mem_fills_iff : r ∈ m.fills env ↔
    (∃ i ∈ m.insns env, r ∈ i.counts env) ∨ ∃ fn ∈ m.functions, r ∈ fn.startRegisters := by
  constructor
  · intro h
    obtain ⟨fn, hf, h⟩ := List.mem_flatMap.mp h
    have hi {i : Instruction} (h : i ∈ (fn.pass1 env).flatMap Entry.insns) : i ∈ m.insns env := by
      obtain ⟨e, he, hi⟩ := List.mem_flatMap.mp h
      exact List.mem_flatMap.mpr ⟨e, List.mem_flatMap.mpr ⟨fn, hf, he⟩, hi⟩
    rcases List.mem_append.mp h with h | h
    · rcases List.mem_append.mp h with h | h
      · obtain ⟨i, him, hr⟩ := List.mem_flatMap.mp h
        exact .inl ⟨i, hi him, List.mem_append_left _ hr⟩
      · exact .inr ⟨fn, hf, h⟩
    · obtain ⟨i, him, hr⟩ := List.mem_flatMap.mp h
      exact .inl ⟨i, hi him, List.mem_append_right _ hr⟩
  · rintro (⟨i, hi, hr⟩ | ⟨fn, hf, hr⟩)
    · exact mem_fills hi hr
    · exact List.mem_flatMap.mpr ⟨fn, hf, List.mem_append_left _ (List.mem_append_right _ hr)⟩

/-- What instructions, delay slots, builtins, subroutines and handlers push or pop is counted. -/
structure UsageSound (env : Env) (m : JavaMethod) : Prop where
  slots : ∀ e ∈ m.slots env, ∀ st,
    ∀ b ∈ ((e.insn.pass2 env (e.delayedPass2 env)).seq (e.againCode env) st).1,
    ∀ r, b.reg? = some r → m.Counted env r
  subroutines : env.config.optimizePartialMemoryOps = true →
    ∀ b ∈ m.emitSubroutines, ∀ r, b.reg? = some r → m.Counted env r
  handlers : ∀ h ∈ (m.functionsCode env).2.exceptionHandlers,
    ∀ b ∈ h.pass2 env, ∀ r, b.reg? = some r → m.Counted env r

/-- A method with `__NOPH_setjmp` has a load or store, one with a catch has `__NOPH_try`, and what
`mthi` and `mtlo` move is counted by another instruction. -/
structure UsageHolds (env : Env) (m : JavaMethod) : Prop where
  moves : ∀ i ∈ m.insns env, ∀ r ∈ i.uncounted, r = Reg.zero ∨ r ∈ m.fills env
  setjmp : (∃ i ∈ m.insns env, i.builtin env = some .setjmp) →
    ∃ i ∈ m.insns env, i.usesMemory = true
  catches : (∃ i ∈ m.insns env, i.kind = .catchInsn) →
    ∃ i ∈ m.insns env, i.builtin env = some .try_

end JavaMethod

theorem Entry.againCode_uses {e : Entry} (hd : ∀ st, Uses (e.delayedPass2 env st).1 rs)
    (st : MethodState) : Uses (e.againCode env st).1 rs := by
  cases h : e.delayed with
  | none =>
    rw [againCode, h]
    exact uses_nil _
  | some d =>
    rw [againCode, h]
    simp only [delayedPass2, h] at hd
    dsimp only
    split
    · refine uses_append.mpr ⟨by simp [uses_nil], uses_append.mpr ⟨hd _, ?_⟩⟩
      simp [uses_nil]
    · exact uses_nil _

namespace JavaMethod

variable {m : JavaMethod} {array : List Entry}

theorem counted_of_uses {bs : List Bc} (h : Uses bs (Reg.zero :: m.fills env)) (hb : b ∈ bs)
    (hr : b.reg? = some r) : m.Counted env r := by
  rcases List.mem_cons.mp (h b hb r hr) with rfl | h
  · exact .inl rfl
  · exact counted_of_fills h

theorem slot_uses (hc : m.UsageHolds env) (he : e ∈ m.slots env) (st : MethodState) :
    Uses ((e.insn.pass2 env (e.delayedPass2 env)).seq (e.againCode env) st).1
      (Reg.zero :: m.fills env) := by
  have hsub {i : Instruction} (hi : i ∈ e.insns) :
      i.counts env ++ i.uncounted ⊆ Reg.zero :: m.fills env := by
    have him : i ∈ m.insns env := mem_insns_slot.mpr ⟨e, he, hi⟩
    refine List.append_subset.mpr ⟨fun r hr => List.mem_cons_of_mem _ (mem_fills him hr), ?_⟩
    intro r hr
    exact List.mem_cons.mpr (hc.moves i him r hr)
  have hd (st : MethodState) : Uses (e.delayedPass2 env st).1 (Reg.zero :: m.fills env) := by
    rw [Entry.delayedPass2.eq_def]
    cases h : e.delayed with
    | none => exact uses_nil _
    | some d =>
      refine Instruction.pass2_uses (fun _ => uses_nil _) env d (hsub ?_) st
      rw [Entry.insns, h]
      exact List.mem_cons_of_mem _ (List.mem_singleton_self _)
  refine uses_append.mpr ⟨Instruction.pass2_uses hd env e.insn (hsub (List.mem_cons_self ..)) st,
    e.againCode_uses hd _⟩

theorem loadSubroutine_uses (w : WordSize) (isSigned : Bool) :
    Uses (emitLoadSubroutine w isSigned) [Reg.madr, Reg.mem] := by
  simp [emitLoadSubroutine, loadSubroutineBody, loadSubroutineOps, uses_nil, uses_append,
    Instruction.extendCode_uses]

theorem loadOpcode_ne (h : o ∉ [Opcode.lb, .lbu, .lh, .lhu]) :
    WordSize.loadOpcode w isSigned ≠ o := by
  rintro rfl
  cases w <;> cases isSigned <;> exact h (by decide)

theorem create_load {a : Word} (hc : create a word = some i)
    (ho : i.opcode = WordSize.loadOpcode w isSigned) :
    ∃ w' isSigned', i.kind = .partialLoad w' isSigned' := by
  obtain ⟨-, h⟩ := create_ofOpcode hc (ho ▸ loadOpcode_ne (by decide))
    (ho ▸ loadOpcode_ne (by decide)) (ho ▸ loadOpcode_ne (by decide))
  rw [ho] at h
  cases w <;> cases isSigned <;> cases h <;> exact ⟨_, _, rfl⟩

theorem mem_usedOpcodes (h : o ∈ Entry.usedOpcodes e) : ∃ i ∈ e.insns, i.opcode = o := by
  rcases List.mem_cons.mp h with rfl | h
  · exact ⟨_, List.mem_cons_self .., rfl⟩
  · split at h
    · obtain ⟨d, hd, rfl⟩ := Option.mem_map.mp (Option.mem_toList.mp h)
      exact ⟨d, List.mem_cons_of_mem _ (Option.mem_toList.mpr hd), rfl⟩
    · cases h

/-- The instruction of a load that is marked used is still there after `pass1`. -/
theorem Made.used_insn (env : Env) (hm : m.Made array)
    (hp : Controller.pass0 base text = some array)
    (hf : fn ∈ m.functions) (ho : fn.opcodeIsUsed (WordSize.loadOpcode w isSigned) = true) :
    ∃ i ∈ m.insns env, ∃ w' isSigned', i.kind = .partialLoad w' isSigned' := by
  obtain ⟨ha, hm⟩ := hm
  obtain ⟨n, start, a, b, hs⟩ := hm fn hf
  obtain ⟨hent, hu⟩ := Function.ofSymbol_slots hs
  obtain ⟨e, he, hop⟩ := hu _ ho
  obtain ⟨i, hi, hio⟩ := mem_usedOpcodes hop
  obtain ⟨f, hf', hr⟩ := exists_of_forall₂ (fn.pass1_replaced env).flip he
  have hea : e ∈ array := by
    rw [hent] at he
    exact List.mem_of_mem_drop (List.mem_of_mem_take he)
  obtain ⟨hei, hed⟩ := Controller.mem_pass0 hp hea
  have hif : i ∈ f.insns := by
    have hne {o : Opcode} (h : o ∉ [Opcode.lb, .lbu, .lh, .lhu]) (he : e.insn.opcode = o) :
        i ∈ e.delayed.toList := by
      rcases List.mem_cons.mp hi with rfl | hi
      · exact absurd (hio.symm.trans he) (loadOpcode_ne h)
      · exact hi
    cases hr with
    | kept => exact hi
    | tailCall h => exact List.mem_cons_of_mem _ (hne (by decide) h)
    | pruned h =>
      have hd : i ∈ e.delayed.toList := h.elim (hne (by decide)) (hne (by decide))
      rw [(Controller.pass0_slot hp hea).2 h] at hd
      cases hd
  have hcreate : ∃ a word, create a word = some i := by
    rcases List.mem_cons.mp hi with rfl | hi
    · rcases hei with ⟨word, -, hc⟩ | ⟨-, hn⟩
      · exact ⟨_, word, hc⟩
      · exact absurd (hio.symm.trans hn) (loadOpcode_ne (by decide))
    · obtain ⟨word, -, hc⟩ := hed i (Option.mem_toList.mp hi)
      exact ⟨_, word, hc⟩
  obtain ⟨_, word, hc⟩ := hcreate
  exact ⟨i, mem_insns_slot.mpr ⟨f, List.mem_flatMap.mpr ⟨fn, hf, hf'⟩, hif⟩, create_load hc hio⟩

/-- A subroutine is emitted for a load, which counts its registers. -/
theorem Made.subroutine_fills (hm : m.Made array) (hp : Controller.pass0 base text = some array)
    (hj : env.config.optimizePartialMemoryOps = true)
    (ho : WordSize.loadOpcode w isSigned ∈ m.subroutineOps) :
    Reg.madr ∈ m.fills env ∧ Reg.mem ∈ m.fills env := by
  rw [subroutineOps, List.mem_eraseDups] at ho
  obtain ⟨fn, hf, ho⟩ := List.mem_flatMap.mp ho
  obtain ⟨i, hi, w', isSigned', hk⟩ := hm.used_insn env hp hf (List.mem_filter.mp ho).2
  have hc : Reg.madr ∈ i.counts env ∧ Reg.mem ∈ i.counts env := by
    simp [Instruction.counts, Instruction.fillDestinations, Instruction.fillSources, hk, hj]
  exact ⟨mem_fills hi hc.1, mem_fills hi hc.2⟩

end JavaMethod

namespace JavaMethod

variable {m : JavaMethod} {array : List Entry}

/-- The handlers of the catch instructions and of the calls of `__NOPH_setjmp`. -/
theorem mem_handlers (h : x ∈ (m.functionsCode env).2.exceptionHandlers) :
    (∃ i ∈ m.insns env, i.kind = .catchInsn ∧
      x = .exception (env.tryInstruction i.address) i.address) ∨
    ∃ i ∈ m.insns env, i.builtin env = some .setjmp ∧
      x = .setjmp (i.methodRange env).1 (i.methodRange env).2 i.address := by
  rw [functionsCode_handlers] at h
  rcases List.mem_append.mp h with h | h
  · obtain ⟨i, hi, h⟩ := List.mem_filterMap.mp h
    split at h
    · next hk =>
      cases h
      exact .inl ⟨i, hi, hk, rfl⟩
    · cases h
  · obtain ⟨e, he, h⟩ := List.mem_flatMap.mp h
    obtain ⟨i, hi, h⟩ := Entry.mem_gather.mp h
    rw [Instruction.setjmpHandlers] at h
    split at h
    · next hb => exact .inr ⟨i, mem_insns_slot.mpr ⟨e, he, hi⟩, hb, List.mem_singleton.mp h⟩
    · cases h

theorem setjmp_handler (hi : i ∈ m.insns env) (hb : i.builtin env = some .setjmp) :
    .setjmp (i.methodRange env).1 (i.methodRange env).2 i.address ∈
      (m.functionsCode env).2.exceptionHandlers := by
  have hs : ExceptionHandler.setjmp (i.methodRange env).1 (i.methodRange env).2 i.address ∈
      i.setjmpHandlers env := by
    rw [Instruction.setjmpHandlers, if_pos hb]
    exact List.mem_singleton_self _
  obtain ⟨e, he, hi⟩ := mem_insns_slot.mp hi
  rw [functionsCode_handlers]
  exact List.mem_append_right _ (List.mem_flatMap.mpr ⟨e, he, Entry.mem_gather.mpr ⟨i, hi, hs⟩⟩)

theorem catch_handler (hi : i ∈ m.insns env) (hk : i.kind = .catchInsn) :
    .exception (env.tryInstruction i.address) i.address ∈
      (m.functionsCode env).2.exceptionHandlers := by
  rw [functionsCode_handlers]
  exact List.mem_append_left _ (List.mem_filterMap.mpr ⟨i, hi, if_pos hk⟩)

/-- The code of an instruction that is no branch stands in the code of its slot. -/
theorem code_in_slot {e : Entry} (hi : i ∈ e.insns) (hb : i.isBranch = false) (st : MethodState) :
    ∀ b ∈ i.code env, b ∈ (e.insn.pass2 env (e.delayedPass2 env) st).1 := by
  have hcode (delayed : Emission) : i.pass2 env delayed = .lines (i.code env) := by
    cases hk : i.kind <;> simp only [Instruction.isBranch, hk] at hb <;>
      simp only [Instruction.pass2, hk]
    all_goals cases hb
  intro b hbc
  rcases List.mem_cons.mp hi with rfl | hi
  · rw [hcode]
    exact hbc
  · have hd := Option.mem_toList.mp hi
    obtain ⟨before, after, h⟩ := Instruction.pass2_branch env
      (e.attached (Option.isSome_of_mem hd))
    have hdel : e.delayedPass2 env = .lines (i.code env) := by
      rw [Entry.delayedPass2, hd]
      exact hcode _
    rw [h, hdel]
    exact List.mem_append_right _ (List.mem_append_left _ hbc)

/-- A special register that is counted is counted by an instruction. -/
theorem counted_special (h : m.Counted env r) (hr : 73 ≤ r.val) (hf : r ≠ Reg.fna) :
    ∃ i ∈ m.insns env, r ∈ i.counts env := by
  have hz : r ≠ Reg.zero := by
    rintro rfl
    cases hr
  rcases mem_fills_iff.mp (fills_of_counted h hz hf) with h | ⟨fn, -, h⟩
  · exact h
  · rw [Function.startRegisters] at h
    split at h
    · have hlow : ∀ x ∈ [Reg.sp, Reg.a0, Reg.a1, Reg.a2, Reg.a3, Reg.v0, Reg.v1], x.val < 73 := by
        decide
      exact absurd (hlow r h) (Nat.not_lt.mpr hr)
    · cases h

theorem UsageSound.holds (hp : Controller.pass0 base text = some array) (hm : m.Made array)
    (h : m.UsageSound env) : m.UsageHolds env := by
  obtain ⟨hslots, -, hhandlers⟩ := h
  refine ⟨?_, ?_, ?_⟩
  · intro i hi r hr
    rw [Instruction.uncounted] at hr
    split at hr
    · next dst hk =>
      cases List.mem_singleton.mp hr
      obtain ⟨e, he, hie⟩ := mem_insns_slot.mp hi
      have hb : i.isBranch = false := by rw [Instruction.isBranch, hk]; rfl
      have hcode : .pushregister i.rs ∈ i.code env := by
        simp [Instruction.code, hk, Instruction.mtxxCode]
      have hc := hslots e he ⟨[], []⟩ _
        (List.mem_append_left _ (code_in_slot hie hb _ _ hcode)) i.rs rfl
      have hlt : i.rs.val < 72 := by
        rcases hm.insn hp hi with ⟨a, word, hcr⟩ | hk' | hk' | ⟨a, extra, rfl⟩
        · exact (create_fieldsBelow hcr).1
        · rw [hk] at hk'
          cases hk'
        · rw [hk] at hk'
          cases hk'
        · cases hk
      refine or_iff_not_imp_left.mpr fun hz => fills_of_counted hc hz ?_
      intro hf
      rw [hf] at hlt
      exact absurd hlt (by decide)
    · cases hr
  · rintro ⟨i, hi, hb⟩
    have hc : m.Counted env Reg.mem := hhandlers _ (setjmp_handler hi hb) (.pushregister Reg.mem)
      (by simp [ExceptionHandler.pass2]) _ rfl
    obtain ⟨j, hj, hr⟩ := counted_special hc (by decide) (by decide)
    rcases hm.counts_special hp hj hr (by decide) with h | ⟨-, h⟩ | ⟨h, -⟩
    · exact absurd h (by decide)
    · exact ⟨j, hj, h⟩
    · exact absurd h (by decide)
  · rintro ⟨i, hi, hk⟩
    have hc : m.Counted env Reg.ecb := hhandlers _ (catch_handler hi hk) (.pushregister Reg.ecb)
      (by simp [ExceptionHandler.pass2]) _ rfl
    obtain ⟨j, hj, hr⟩ := counted_special hc (by decide) (by decide)
    rcases hm.counts_special hp hj hr (by decide) with h | ⟨h, -⟩ | ⟨-, h⟩
    · exact absurd h (by decide)
    · exact absurd h (by decide)
    · exact ⟨j, hj, h⟩

theorem UsageHolds.sound (hp : Controller.pass0 base text = some array) (hm : m.Made array)
    (hc : m.UsageHolds env) : m.UsageSound env := by
  refine ⟨?_, ?_, ?_⟩
  · intro e he st b hb r hr
    exact counted_of_uses (slot_uses hc he st) hb hr
  · intro hj b hb r hr
    obtain ⟨o, ho, hb⟩ := List.mem_flatMap.mp hb
    rcases emitSubroutineForOp_cases o with h | ⟨w, isSigned, rfl⟩
    · rw [h] at hb
      cases hb
    · rw [emitSubroutineForOp_load] at hb
      obtain ⟨hmadr, hmem⟩ := hm.subroutine_fills hp hj ho
      have hu := loadSubroutine_uses w isSigned b hb r hr
      simp only [List.mem_cons, List.not_mem_nil, or_false] at hu
      rcases hu with rfl | rfl
      · exact counted_of_fills hmadr
      · exact counted_of_fills hmem
  · intro x hx b hb r hr
    rcases mem_handlers hx with ⟨i, hi, hk, rfl⟩ | ⟨i, hi, hbi, rfl⟩
    · obtain ⟨j, hj, ht⟩ := hc.catches ⟨i, hi, hk⟩
      obtain ⟨hecb, hear, hsp⟩ := Instruction.try_counts ht
      have hu : Uses (ExceptionHandler.pass2 env (.exception (env.tryInstruction i.address)
          i.address)) [Reg.ecb, Reg.sp, Reg.ear] := by
        simp [ExceptionHandler.pass2, invokeCallTable, invokestatic, uses_nil]
      have hru := hu b hb r hr
      simp only [List.mem_cons, List.not_mem_nil, or_false] at hru
      rcases hru with rfl | rfl | rfl
      · exact counted_of_fills (mem_fills hj hecb)
      · exact counted_of_fills (mem_fills hj hsp)
      · exact counted_of_fills (mem_fills hj hear)
    · obtain ⟨j, hj, hmem⟩ := hc.setjmp ⟨i, hi, hbi⟩
      have hu : Uses (ExceptionHandler.pass2 env (.setjmp (i.methodRange env).1
          (i.methodRange env).2 i.address)) [Reg.mem, Reg.v0] := by
        simp [ExceptionHandler.pass2, uses_nil]
      have hru := hu b hb r hr
      simp only [List.mem_cons, List.not_mem_nil, or_false] at hru
      rcases hru with rfl | rfl
      · exact counted_of_fills (mem_fills hj (Instruction.mem_counts hmem))
      · obtain ⟨hcall, -⟩ := Instruction.jal_counts env (Instruction.kind_of_builtin hbi)
        exact counted_of_fills (mem_fills hi (hcall (by decide)))

/-- Counting is sound exactly for the methods in which the uncounted registers have another use. -/
theorem register_usage_sound_iff (hp : Controller.pass0 base text = some array)
    (hm : m.Made array) (env : Env) : m.UsageSound env ↔ m.UsageHolds env :=
  ⟨fun h => h.holds hp hm, fun h => h.sound hp hm⟩

end JavaMethod

theorem Builtin.matchName_setjmp (s : String) : matchName true
    ("__NOPH_setjmp".map (fun c => if c = '.' then '_' else c) ++ "_" ++ s) = some .setjmp := by
  simp [matchName, lookup, builtins, cmp]

/-- `jal` to the function at 0x1010 and a return, then a return. -/
def callNext : List Word := [0x0c000404, 0, 0x03e00008, 0, 0x03e00008, 0]

def callNextArray : List Entry := (Controller.pass0 0x1000 callNext).getD []

theorem callNext_pass0 : Controller.pass0 0x1000 callNext = some callNextArray := rfl

def callNextFunction (name : String) (a b : Nat) : Option Function :=
  Function.ofSymbol name false callNextArray (Controller.pass0_attached callNext_pass0) a b

def callNextCaller : JavaMethod := ⟨(callNextFunction "f" 0 3).toList, by decide⟩

def callNextInsn : Instruction := ⟨.jal, 0x1000, .jal, 0, 0, 0, 0x404⟩

def callNextCallee (name : String) : JavaMethod :=
  ⟨(callNextFunction name 4 5).toList, List.cons_ne_nil _ _⟩

/-- The two methods as a program. -/
def callNextEnv (callee : String) : Env :=
  { Env.single {} callNextCaller with
    getMethodByAddress a :=
      some (if a.toNat < 0x1010 then callNextCaller else callNextCallee callee) }

theorem callNextCaller_made : callNextCaller.Made callNextArray :=
  ⟨_, fun _ hf => ⟨_, _, _, _,
    Option.mem_toList.mp (show _ ∈ (callNextFunction "f" 0 3).toList from hf)⟩⟩

/-- A leaf function that calls `__NOPH_setjmp` counts no memory array for its handler. -/
theorem setjmp_memory_uncounted : Controller.pass0 0x1000 callNext = some callNextArray ∧
    callNextCaller.Made callNextArray ∧
    ¬ callNextCaller.UsageSound (callNextEnv "__NOPH_setjmp") := by
  refine ⟨callNext_pass0, callNextCaller_made, ?_⟩
  intro h
  have hs := (h.holds callNext_pass0 callNextCaller_made).setjmp
  have hn : ¬ ∃ i ∈ callNextCaller.insns (callNextEnv "__NOPH_setjmp"), i.usesMemory = true := by
    decide
  refine hn (hs ⟨⟨.jal, 0x1000, .jal, 0, 0, 0, 0x404⟩, by decide, ?_⟩)
  have hd : Instruction.dstMethod (callNextEnv "__NOPH_setjmp")
      ⟨.jal, 0x1000, .jal, 0, 0, 0, 0x404⟩ = some (callNextCallee "__NOPH_setjmp") := rfl
  have hm : Builtin.matchName true (callNextCallee "__NOPH_setjmp").name = some .setjmp := by
    rw [JavaMethod.name, Function.name, if_neg (by decide)]
    exact Builtin.matchName_setjmp _
  simp only [Instruction.builtin, hd, Option.bind_some]
  exact hm

theorem register_usage_sound_call :
    callNextCaller.UsageSound (callNextEnv "g") ↔ callNextCaller.UsageHolds (callNextEnv "g") :=
  JavaMethod.register_usage_sound_iff callNext_pass0 callNextCaller_made _

end Cibyl
