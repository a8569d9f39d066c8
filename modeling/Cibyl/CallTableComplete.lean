import Cibyl.Library.OptionFold
import Cibyl.Relocations

namespace Cibyl
set_option autoImplicit true

open InstructionFactory (create createNop createDelaySlotNop decodeOpcode decodeExtra opEntry)
open OptionFold

/-- An instruction is in its slot, or in the delay slot of the branch before it. -/
theorem attachDelaySlots_get {insns : List Instruction} (h : insns[i]? = some d) :
    (∃ e, (attachDelaySlots insns)[i]? = some e ∧ e.insn = d) ∨
      ∃ e p, (attachDelaySlots insns)[i]? = some e ∧ e.IsDelaySlotNop ∧ 0 < i ∧
        (attachDelaySlots insns)[i - 1]? = some p ∧ p.delayed = some d := by
  fun_induction attachDelaySlots insns generalizing i with
  | case1 => cases h
  | case2 insn hb =>
    cases i with
    | zero => exact .inl ⟨_, rfl, Option.some.inj h⟩
    | succ i => cases h
  | case3 insn hb e insns ih =>
    rcases i with _ | _ | i
    · exact .inl ⟨_, rfl, Option.some.inj h⟩
    · have hd : e = d := Option.some.inj h
      exact .inr ⟨_, _, rfl, ⟨rfl, rfl⟩, Nat.one_pos, rfl, congrArg some hd⟩
    · rcases ih h with he | ⟨e', p, he, hk, hi, hp, hd⟩
      · exact .inl he
      · obtain ⟨j, rfl⟩ := Nat.exists_eq_add_one.mpr hi
        exact .inr ⟨e', p, he, hk, Nat.succ_pos _, hp, hd⟩
  | case4 insn insns hb ih =>
    cases i with
    | zero => exact .inl ⟨_, rfl, Option.some.inj h⟩
    | succ i =>
      rcases ih h with he | ⟨e', p, he, hk, hi, hp, hd⟩
      · exact .inl he
      · obtain ⟨j, rfl⟩ := Nat.exists_eq_add_one.mpr hi
        exact .inr ⟨e', p, he, hk, Nat.succ_pos _, hp, hd⟩

/-- What `pass1` of the functions leaves of a slot, for a lookup at its address. -/
structure Entry.Kept (e f : Entry) : Prop where
  delayed : f.delayed = e.delayed
  insn : e.insn.opcode ∉ [Opcode.j, .sw, .lw] → f.insn = e.insn
  nop : f.insn.kind = .delaySlotNop → e.insn.kind = .delaySlotNop

theorem Entry.Replaced.to_kept (h : Entry.Replaced e f)
    (hd : e.insn.opcode = .sw ∨ e.insn.opcode = .lw → e.delayed = none) : Entry.Kept e f := by
  cases h with
  | kept => exact ⟨rfl, fun _ => rfl, id⟩
  | tailCall ho =>
    refine ⟨rfl, fun hn => ?_, nofun⟩
    rw [ho] at hn
    exact absurd (by decide) hn
  | pruned ho =>
    refine ⟨(hd ho).symm, fun hn => ?_, nofun⟩
    rcases ho with ho | ho
    all_goals
      rw [ho] at hn
      exact absurd (by decide) hn

theorem take_append_drop_length (xs : List α) (n : Nat) :
    xs.take n ++ xs.drop (xs.take n).length = xs := by
  rcases Nat.le_total n xs.length with h | h
  · rw [List.length_take_of_le h, List.take_append_drop]
  · rw [List.take_of_length_le h, List.drop_length, List.append_nil]

theorem Entry.forall₂_kept (h : List.Forall₂ Entry.Replaced es fs)
    (hd : ∀ e ∈ es, e.insn.opcode = .sw ∨ e.insn.opcode = .lw → e.delayed = none) :
    List.Forall₂ Entry.Kept es fs := by
  induction h with
  | nil => exact .nil
  | cons hr _ ih =>
    obtain ⟨hd, hds⟩ := List.forall_mem_cons.mp hd
    exact .cons (hr.to_kept hd) (ih hds)

namespace Controller

/-- The slots as lookups see them while classes are passed. -/
def Slots (array instructions : List Entry) : Prop := List.Forall₂ Entry.Kept array instructions

theorem slots_refl (array : List Entry) : Slots array array :=
  List.forall₂_same.mpr (fun _ _ => ⟨rfl, fun _ => rfl, id⟩)

theorem slots_get {array instructions : List Entry} {i : Nat} (h : Slots array instructions)
    (he : array[i]? = some e) : ∃ f, instructions[i]? = some f ∧ Entry.Kept e f := by
  induction h generalizing i with
  | nil => cases he
  | cons hk _ ih =>
    cases i with
    | zero =>
      cases he
      exact ⟨_, rfl, hk⟩
    | succ i => exact ih he

theorem decode_get {start : Word} (h : decode start text = some insns) (hi : i < text.length) :
    ∃ d, insns[i]? = some d ∧ create (start + BitVec.ofNat 32 (4 * i)) text[i] = some d := by
  induction text generalizing start insns i with
  | nil => cases hi
  | cons word text ih =>
    obtain ⟨insn, rest, hc, hr, rfl⟩ := decode_cons h
    cases i with
    | zero =>
      refine ⟨insn, rfl, ?_⟩
      rw [Nat.mul_zero, BitVec.add_zero]
      exact hc
    | succ i =>
      obtain ⟨d, hd, hcd⟩ := ih hr (Nat.lt_of_succ_lt_succ hi)
      refine ⟨d, hd, ?_⟩
      rw [Nat.mul_succ, Nat.add_comm, BitVec.ofNat_add, ← BitVec.add_assoc]
      exact hcd

variable {c : Controller} {text : List Word} {array instructions : List Entry}

theorem text_toNat (hw : c.base.toNat + 4 * text.length < 2 ^ 32) (hi : i ≤ text.length) :
    (c.base + BitVec.ofNat 32 (4 * i)).toNat = c.base.toNat + 4 * i := by
  rw [BitVec.toNat_add, BitVec.toNat_ofNat]
  omega

theorem getInstructionByAddress_text (instructions : List Entry)
    (hw : c.base.toNat + 4 * text.length < 2 ^ 32)
    (hs : c.textSize = BitVec.ofNat 32 (4 * text.length)) (hi : i < text.length) :
    c.getInstructionByAddress instructions (c.base + BitVec.ofNat 32 (4 * i)) =
      instructions[i]? := by
  have hn := text_toNat hw (Nat.le_of_lt hi)
  have he : c.textEnd.toNat = c.base.toNat + 4 * text.length := by
    rw [textEnd, hs]
    exact text_toNat hw (Nat.le_refl _)
  have hx : (c.base + BitVec.ofNat 32 (4 * i) - c.base).toNat / 4 = i := by
    rw [add_sub_cancel_left, BitVec.toNat_ofNat]
    omega
  rw [getInstructionByAddress, if_neg (by omega), hx]

/-- A relocated instruction that `pass1` does not replace is found where it was decoded. -/
theorem relocatedInsn_text (hp : pass0 c.base text = some array)
    (hw : c.base.toNat + 4 * text.length < 2 ^ 32)
    (hs : c.textSize = BitVec.ofNat 32 (4 * text.length)) (hk : Slots array instructions)
    (hi : i < text.length) :
    ∃ d b, create (c.base + BitVec.ofNat 32 (4 * i)) text[i] = some d ∧
      c.relocatedInsn instructions (c.base + BitVec.ofNat 32 (4 * i)) = some b ∧
      (d.opcode ∉ [Opcode.j, .sw, .lw] → b = d) := by
  obtain ⟨insns, hdec, rfl⟩ := Option.map_eq_some_iff.mp hp
  obtain ⟨d, hd, hc⟩ := decode_get hdec hi
  have hget := getInstructionByAddress_text instructions hw hs hi
  rcases attachDelaySlots_get hd with ⟨e, he, rfl⟩ | ⟨e, p, he, hn, h0, hpe, hpd⟩
  · obtain ⟨f, hf, hkf⟩ := slots_get hk he
    have hnop : f.insn.kind ≠ .delaySlotNop :=
      fun h => create_not_delaySlotNop hc (hkf.nop h)
    refine ⟨e.insn, f.insn, hc, ?_, hkf.insn⟩
    simp only [relocatedInsn, hget, hf, if_neg hnop]
  · obtain ⟨f, hf, hkf⟩ := slots_get hk he
    obtain ⟨q, hq, hkq⟩ := slots_get hk hpe
    have hb : c.base + BitVec.ofNat 32 (4 * i) - 4 = c.base + BitVec.ofNat 32 (4 * (i - 1)) := by
      obtain ⟨j, rfl⟩ := Nat.exists_eq_add_one.mpr h0
      rw [Nat.mul_succ, BitVec.ofNat_add, ← BitVec.add_assoc, Nat.add_sub_cancel]
      exact add_sub_cancel_right _ _
    have hprev := getInstructionByAddress_text instructions hw hs
      (Nat.lt_of_le_of_lt (Nat.sub_le i 1) hi)
    have hnop : f.insn.kind = .delaySlotNop := by
      rw [hkf.insn (by rw [hn.2]; decide)]
      exact hn.1
    refine ⟨d, d, hc, ?_, fun _ => rfl⟩
    simp only [relocatedInsn, hget, hf, if_pos hnop, hb, hprev, hq, Option.bind_some, hkq.delayed,
      hpd]

end Controller

section

variable {word : Word}

/-- The words that `create` gives a meaning of its own have an opcode no arithmetic has. -/
theorem create_immediate (hc : create address word = some d) (ho : Arch.op word ∈ [9, 13, 15]) :
    InstructionFactory.ofOpcode address word (decodeOpcode word) (Arch.rs word) (Arch.rt word)
      (Arch.rd word) (decodeExtra word) = some d := by
  have hop : Arch.op word = (word >>> 26).toNat := by
    rw [Arch.op, BitVec.extractLsb'_toNat, BitVec.toNat_ushiftRight]
    have := word.isLt
    omega
  rw [BitVec.toNat_ushiftRight, Nat.shiftRight_eq_div_pow] at hop
  have hlt : word.toNat / 2 ^ 26 ≤ 15 := by
    rw [← hop]
    simp only [List.mem_cons, List.not_mem_nil, or_false] at ho
    omega
  have hno {n k : Nat} {v : Word} (hv : word >>> n = v) (hk : v.toNat / 2 ^ (26 - n) = k)
      (hn : n ≤ 26) (h15 : 15 < k) : False := by
    have h := congrArg BitVec.toNat hv
    rw [BitVec.toNat_ushiftRight, Nat.shiftRight_eq_div_pow] at h
    rw [← h, Nat.div_div_eq_div_mul, ← Nat.pow_add, Nat.add_sub_cancel' hn] at hk
    omega
  rw [create] at hc
  split at hc
  · next h => exact (hno h rfl (by decide) (by decide)).elim
  · split at hc
    · next h => exact (hno h rfl (by decide) (by decide)).elim
    · split at hc
      · next h => exact (hno h rfl (by decide) (by decide)).elim
      · rw [encodingGetRs_eq, encodingGetRt_eq, encodingGetRd_eq] at hc
        exact hc

/-- The opcodes that make up an address from two halves. -/
def halfOpcodes : List Opcode := [.addiu, .ori, .lui]

theorem special_not_half : ∀ i < 64, ∀ o ∈ halfOpcodes, Arch.specialOpcode i ≠ some o := by decide

theorem op_entries_half : ∀ i < 64, ∀ o ∈ halfOpcodes, Arch.immediateOpcode i = some o →
    i ∈ [9, 13, 15] ∧ mipsOpEntries.getD i (.res, .ifmt) = (o, .ifmt) := by decide

theorem aluOpcode_half (h : Arch.aluOpcode word = some o) (ho : o ∈ halfOpcodes) :
    Arch.op word ∈ [9, 13, 15] ∧ opEntry word = (o, .ifmt) := by
  rw [Arch.aluOpcode] at h
  split at h
  · exact absurd h (special_not_half _ (funct_lt word) o ho)
  · rw [opEntry_eq]
    exact op_entries_half _ (op_lt word) o ho h

/-- What `create` makes of such an instruction. -/
theorem create_half (hc : create address word = some d) (h : Arch.aluOpcode word = some o)
    (ho : o ∈ halfOpcodes) : d.opcode = o ∧
      d.extra = if o = .addiu then (Arch.imm word).signExtend 32
        else (Arch.imm word).setWidth 32 := by
  obtain ⟨hop, he⟩ := aluOpcode_half h ho
  have hc := create_immediate hc hop
  have hx := decodeExtra_imm (show (opEntry word).2 = .ifmt by rw [he])
  have hd : decodeOpcode word = o := by
    rw [decodeOpcode, he]
    simp only [halfOpcodes, List.mem_cons, List.not_mem_nil, or_false] at ho
    rcases ho with rfl | rfl | rfl <;> rfl
  rw [hd, hx, he] at hc
  simp only [halfOpcodes, List.mem_cons, List.not_mem_nil, or_false] at ho
  rcases ho with rfl | rfl | rfl
  · cases hc
    exact ⟨rfl, rfl⟩
  · cases hc
    exact ⟨rfl, rfl⟩
  · cases hc
    exact ⟨rfl, and_low_signExtend (Arch.imm word)⟩

end

namespace Controller

def functions (c : Controller) : List Function :=
  c.classes.flatMap (fun cl => cl.flatMap JavaMethod.functions)

/-- Lookups in a class find the one method with a function at the address, and no two functions of
the program share an address. -/
structure Exact (c : Controller) : Prop where
  found : ∀ cl ∈ c.classes, ∀ addr idx, c.findInClass cl addr = some idx ↔
    ∃ mt, cl[idx]? = some mt ∧ (mt.getFunctionByAddress addr).isSome = true
  unique : ∀ f ∈ c.functions, ∀ g ∈ c.functions, ∀ addr, f.covers addr = true →
    g.covers addr = true → f = g

/-- `pass0` has run on the text section, which is aligned and ends inside the address space, and the
relocations are sorted. -/
structure Loaded (c : Controller) (text : List Word) (array : List Entry)
    (rels : List RelSection) : Prop where
  pass0 : Controller.pass0 c.base text = some array
  textSize : c.textSize = BitVec.ofNat 32 (4 * text.length)
  aligned : c.base &&& 3 = 0
  fits : c.base.toNat + 4 * text.length < 2 ^ 32
  made : ∀ cl ∈ c.classes, ∀ mt ∈ cl, mt.Made array
  relocs : CibylElf.Sorted CibylElf.relocCmp (CibylElf.readRelocs rels) c.relocs
  exact : c.Exact

variable {c : Controller} {mt : JavaMethod} {fn : Function} {addr : Word}

theorem covers_address (fn : Function) : fn.covers fn.address = true := by
  rw [Function.covers, Bool.and_eq_true, decide_eq_true_iff, decide_eq_true_iff]
  exact ⟨Nat.le_refl _, Nat.le_add_right _ _⟩

theorem mem_functions : fn ∈ c.functions ↔
    ∃ cl ∈ c.classes, ∃ mt ∈ cl, fn ∈ mt.functions := by
  simp only [functions, List.mem_flatMap]

theorem Exact.eq_of_address (h : c.Exact) (hf : f ∈ c.functions) (hg : g ∈ c.functions)
    (ha : f.address = g.address) : f = g :=
  h.unique f hf g hg f.address (covers_address f) (ha ▸ covers_address g)

/-- What a method finds at an address is one of its functions that covers it. -/
theorem getFunctionByAddress_some (h : mt.getFunctionByAddress addr = some fn) :
    fn ∈ mt.functions ∧ fn.covers addr = true := by
  rw [JavaMethod.getFunctionByAddress] at h
  exact ⟨List.mem_of_find?_eq_some h, by simpa using List.find?_some h⟩

/-- A class that has a function at the address finds it. -/
theorem Exact.inClass (h : c.Exact) (hcl : cl ∈ c.classes) (hmt : mt ∈ cl)
    (hfn : fn ∈ mt.functions) (hc : fn.covers addr = true) :
    ∃ idx mt', c.findInClass cl addr = some idx ∧ cl[idx]? = some mt' ∧
      mt'.getFunctionByAddress addr = some fn := by
  have hsome : (mt.getFunctionByAddress addr).isSome = true :=
    List.find?_isSome.mpr ⟨fn, hfn, hc⟩
  obtain ⟨idx, hidx⟩ := List.mem_iff_getElem?.mp hmt
  have hfind := (h.found cl hcl addr idx).mpr ⟨mt, hidx, hsome⟩
  obtain ⟨g, hg⟩ := Option.isSome_iff_exists.mp hsome
  obtain ⟨hgm, hgc⟩ := getFunctionByAddress_some hg
  have he : g = fn := h.unique g (mem_functions.mpr ⟨cl, hcl, mt, hmt, hgm⟩) fn
    (mem_functions.mpr ⟨cl, hcl, mt, hmt, hfn⟩) addr hgc hc
  exact ⟨idx, mt, hfind, hidx, he ▸ hg⟩

/-- A method that is looked up has a function at the address. -/
theorem Exact.ofFound (h : c.Exact) (hcl : cl ∈ c.classes)
    (hf : c.findInClass cl addr = some idx) : ∃ mt fn, cl[idx]? = some mt ∧
      mt.getFunctionByAddress addr = some fn ∧ fn ∈ c.functions ∧ fn.covers addr = true := by
  obtain ⟨mt, hidx, hsome⟩ := (h.found cl hcl addr idx).mp hf
  obtain ⟨fn, hfn⟩ := Option.isSome_iff_exists.mp hsome
  obtain ⟨hm, hc⟩ := getFunctionByAddress_some hfn
  exact ⟨mt, fn, hidx, hfn, mem_functions.mpr ⟨cl, hcl, mt, List.mem_of_getElem? hidx, hm⟩, hc⟩

theorem Exact.getMethodByAddress_some (h : c.Exact) (hm : c.getMethodByAddress addr = some mt) :
    ∃ fn, mt.getFunctionByAddress addr = some fn ∧ fn ∈ c.functions ∧ fn.covers addr = true := by
  obtain ⟨cl, hcl, hb⟩ := List.exists_of_findSome?_eq_some hm
  obtain ⟨idx, hidx, hmt⟩ := Option.bind_eq_some_iff.mp hb
  obtain ⟨mt', fn, hidx', hfn⟩ := h.ofFound hcl hidx
  cases Option.some.inj (hmt.symm.trans hidx')
  exact ⟨fn, hfn⟩

/-- The function at an address is found. -/
theorem Exact.getMethodByAddress (h : c.Exact) (hf : fn ∈ c.functions)
    (hc : fn.covers addr = true) : ∃ mt, c.getMethodByAddress addr = some mt ∧
      mt.getFunctionByAddress addr = some fn := by
  obtain ⟨cl, hcl, mt, hmt, hfn⟩ := mem_functions.mp hf
  obtain ⟨idx, mt', hidx, hget, -⟩ := h.inClass hcl hmt hfn hc
  cases hm : c.getMethodByAddress addr with
  | none =>
    have hn := List.findSome?_eq_none_iff.mp hm cl hcl
    rw [hidx, Option.bind_some, hget] at hn
    cases hn
  | some m =>
    obtain ⟨g, hg, hgm, hgc⟩ := h.getMethodByAddress_some hm
    rw [h.unique g hgm fn hf addr hgc hc] at hg
    exact ⟨m, rfl, hg⟩

/-- The functions of the program are the only ones added, and none is lost. -/
def Grows (c : Controller) (t t' : CallTable) : Prop :=
  t.functions ⊆ t'.functions ∧
    ((∀ g ∈ t.functions, g ∈ c.functions) → ∀ g ∈ t'.functions, g ∈ c.functions)

theorem grows_refl (t : CallTable) : c.Grows t t := ⟨List.Subset.refl _, id⟩

theorem Grows.trans (h : c.Grows t t') (h' : c.Grows t' t'') : c.Grows t t'' :=
  ⟨List.Subset.trans h.1 h'.1, fun hw => h'.2 (h.2 hw)⟩

theorem grows_addFunction (t : CallTable) (hf : fn ∈ c.functions) :
    c.Grows t (t.addFunction fn) := by
  refine ⟨t.subset_addFunction fn, fun hw g hg => ?_⟩
  rcases (t.mem_addFunction fn).mp hg with hg | ⟨rfl, -⟩
  · exact hw g hg
  · exact hf

theorem Exact.mem_addFunction (h : c.Exact) {t : CallTable}
    (hw : ∀ g ∈ t.functions, g ∈ c.functions) (hf : fn ∈ c.functions) :
    fn ∈ (t.addFunction fn).functions := by
  obtain ⟨g, hg, ha⟩ := t.address_addFunction fn
  have hgc := (grows_addFunction t hf).2 hw g hg
  rwa [h.eq_of_address hgc hf ha] at hg

/-- A run of steps that grow the table in a state. -/
theorem foldlM_grows {xs : List α} {f : σ → α → Option σ} (table : σ → CallTable)
    (h : ∀ s x s', x ∈ xs → f s x = some s' → c.Grows (table s) (table s'))
    (hr : xs.foldlM f s = some s') : c.Grows (table s) (table s') :=
  foldlM_keeps (I := fun s₁ => c.Grows (table s) (table s₁))
    (fun s₁ x s₂ hx hg hs => hg.trans (h s₁ x s₂ hx hs)) (grows_refl _) hr

theorem lookupInClass_grows (hcl : cl.1 ∈ c.classes)
    (h : c.lookupInClass v l cl = some l') : c.Grows l.callTable l'.callTable := by
  rw [lookupInClass] at h
  split at h
  · cases h
    exact grows_refl _
  · next idx mt hm =>
    split at h
    · cases h
    · next fn hfn =>
      cases h
      obtain ⟨i, hi, hm⟩ := Option.bind_eq_some_iff.mp hm
      obtain ⟨mt', hidx, he⟩ := Option.map_eq_some_iff.mp hm
      cases he
      obtain ⟨hmem, -⟩ := getFunctionByAddress_some hfn
      have hf : fn ∈ c.functions :=
        mem_functions.mpr ⟨cl.1, hcl, mt, List.mem_of_getElem? hidx, hmem⟩
      dsimp only
      split
      · exact grows_addFunction _ hf
      · exact grows_refl _

theorem lookupInClass_isSome (hx : c.Exact) (hcl : cl.1 ∈ c.classes) (v : Word) (l : Lookups) :
    (c.lookupInClass v l cl).isSome = true := by
  rw [lookupInClass]
  split
  · exact rfl
  · next idx mt hm =>
    obtain ⟨i, hi, hm⟩ := Option.bind_eq_some_iff.mp hm
    obtain ⟨mt', hidx, he⟩ := Option.map_eq_some_iff.mp hm
    cases he
    obtain ⟨mt', fn, hidx', hfn, -⟩ := hx.ofFound hcl hi
    cases Option.some.inj (hidx.symm.trans hidx')
    rw [hfn]
    exact rfl

/-- The class of a function adds it for its own address. -/
theorem lookupInClass_adds (hx : c.Exact) (hcl : cl.1 ∈ c.classes) (hmt : mt ∈ cl.1)
    (hfn : fn ∈ mt.functions) (hw : ∀ g ∈ l.callTable.functions, g ∈ c.functions)
    (h : c.lookupInClass fn.address l cl = some l') : fn ∈ l'.callTable.functions := by
  obtain ⟨idx, mt', hidx, hget, hf⟩ := hx.inClass hcl hmt hfn (covers_address fn)
  simp only [lookupInClass, hidx, Option.bind_some, hget, Option.map_some, hf, if_true] at h
  cases h
  exact hx.mem_addFunction hw (mem_functions.mpr ⟨cl.1, hcl, mt, hmt, hfn⟩)

theorem mem_zipIdx_fst {xs : List α} (h : x ∈ xs.zipIdx) : x.1 ∈ xs :=
  List.mem_of_getElem? (List.mem_zipIdx_iff_getElem?.mp h)

theorem lookupDataAddress_grows (h : c.lookupDataAddress l v = some l') :
    c.Grows l.callTable l'.callTable := by
  rw [lookupDataAddress] at h
  split at h
  · exact foldlM_grows Lookups.callTable
      (fun s x s' hm => lookupInClass_grows (mem_zipIdx_fst hm)) h
  · cases h
    exact grows_refl _

theorem lookupDataAddress_isSome (hx : c.Exact) (l : Lookups) (v : Word) :
    (c.lookupDataAddress l v).isSome = true := by
  rw [lookupDataAddress]
  split
  · exact foldlM_isSome (I := fun _ => True) (fun _ _ _ _ _ _ => trivial)
      (fun l cl hcl _ => lookupInClass_isSome hx (mem_zipIdx_fst hcl) v l) trivial
  · exact rfl

theorem lookupDataAddresses_grows (h : c.lookupDataAddresses l scn = some l') :
    c.Grows l.callTable l'.callTable :=
  foldlM_grows Lookups.callTable (fun _ _ _ _ => lookupDataAddress_grows) h

theorem words_mem (data : List Byte) (h : 4 * k + 4 ≤ data.length) :
    Lanes.readWord (fun i => data.getD i 0) (4 * k) ∈ ElfSection.words data := by
  induction k generalizing data with
  | zero =>
    match data, h with
    | b0 :: b1 :: b2 :: b3 :: data, _ => exact List.mem_cons_self ..
  | succ k ih =>
    match data, h with
    | b0 :: b1 :: b2 :: b3 :: data, h =>
      refine List.mem_cons_of_mem _ (ih data ?_)
      simp only [List.length_cons] at h
      omega

/-- The address is an aligned big-endian word of one of the sections. -/
def InData (scns : List ElfSection) (addr : Word) : Prop :=
  ∃ scn ∈ scns, ∃ k, 4 * k + 4 ≤ scn.data.length ∧
    Lanes.readWord (fun i => scn.data.getD i 0) (4 * k) = addr

theorem pass0_address {start : Word} {array : List Entry} {i : Nat}
    (hp : pass0 start text = some array) (h : array[i]? = some e) :
    i < text.length ∧ e.insn.address = start + BitVec.ofNat 32 (4 * i) := by
  obtain ⟨insns, hdec, rfl⟩ := Option.map_eq_some_iff.mp hp
  have ha := congrArg (fun l => l[i]?)
    ((attachDelaySlots_addresses insns).trans (decode_addresses hdec))
  simp only [List.getElem?_map, h, Option.map_some] at ha
  obtain ⟨j, hj, he⟩ := Option.map_eq_some_iff.mp ha.symm
  obtain ⟨hlt, rfl⟩ := List.getElem?_eq_some_iff.mp hj
  rw [List.length_range] at hlt
  rw [List.getElem_range] at he
  exact ⟨hlt, he.symm⟩

section

variable {text : List Word} {array : List Entry} {rels : List RelSection} {rel : ElfReloc}

/-- A function of the program starts at a word of the text section. -/
theorem Loaded.symbol (h : c.Loaded text array rels) (hf : fn ∈ c.functions) :
    ∃ a b, a < text.length ∧ fn.address = c.base + BitVec.ofNat 32 (4 * a) ∧
      fn.entries = slice array a b := by
  obtain ⟨cl, hcl, mt, hmt, hfn⟩ := mem_functions.mp hf
  obtain ⟨ha, hm⟩ := h.made cl hcl mt hmt
  obtain ⟨name, start, a, b, hs⟩ := hm fn hfn
  obtain ⟨e, es, hsl, hadd, -⟩ := Function.ofSymbol_eq hs
  have hget : array[a]? = some e := by
    have hlt : 0 < b - a := by
      rw [Nat.pos_iff_ne_zero]
      intro h0
      rw [slice, h0, List.take_zero] at hsl
      cases hsl
    have hg := congrArg (fun l => l[0]?) hsl
    simpa only [slice, List.getElem?_take_of_lt hlt, List.getElem?_drop, Nat.add_zero,
      List.getElem?_cons_zero] using hg
  obtain ⟨hlt, he⟩ := pass0_address h.pass0 hget
  exact ⟨a, b, hlt, hadd.trans he, (Function.ofSymbol_slots hs).1⟩

/-- The words of the text section lie in it, at aligned addresses. -/
theorem text_word (hw : c.base.toNat + 4 * text.length < 2 ^ 32)
    (hs : c.textSize = BitVec.ofNat 32 (4 * text.length)) (ha : c.base &&& 3 = 0)
    (hi : i < text.length) :
    (c.base.toNat ≤ (c.base + BitVec.ofNat 32 (4 * i)).toNat ∧
      (c.base + BitVec.ofNat 32 (4 * i)).toNat < c.textEnd.toNat) ∧
      (c.base + BitVec.ofNat 32 (4 * i)) &&& 3 = 0 := by
  have hn := text_toNat hw (Nat.le_of_lt hi)
  have he : c.textEnd.toNat = c.base.toNat + 4 * text.length := by
    rw [textEnd, hs]
    exact text_toNat hw (Nat.le_refl _)
  rw [hn, he]
  refine ⟨⟨Nat.le_add_right _ _, by omega⟩, ?_⟩
  apply BitVec.eq_of_toNat_eq
  have hb := congrArg BitVec.toNat ha
  rw [and_three_toNat] at hb ⊢
  rw [hn]
  have h0 : (0 : Word).toNat = 0 := rfl
  omega

theorem Loaded.inText (h : c.Loaded text array rels) (hf : fn ∈ c.functions) :
    (c.base.toNat ≤ fn.address.toNat ∧ fn.address.toNat < c.textEnd.toNat) ∧
      fn.address &&& 3 = 0 := by
  obtain ⟨a, b, hlt, ha, -⟩ := h.symbol hf
  rw [ha]
  exact text_word h.fits h.textSize h.aligned hlt

/-- The table holds functions of the program only. -/
def Within (c : Controller) (t : CallTable) : Prop := ∀ g ∈ t.functions, g ∈ c.functions

/-- A run in which one step adds the function. -/
theorem foldlM_adds {xs : List α} {f : σ → α → Option σ} (table : σ → CallTable)
    (hg : ∀ s x s', x ∈ xs → f s x = some s' → c.Grows (table s) (table s')) (hx : x ∈ xs)
    (ha : ∀ s s', c.Within (table s) → f s x = some s' → fn ∈ (table s').functions)
    (hw : c.Within (table s)) (hr : xs.foldlM f s = some s') : fn ∈ (table s').functions :=
  foldlM_reaches (I := fun s => c.Within (table s)) (Q := fun s => fn ∈ (table s).functions)
    (fun s y s' hy hs h => (hg s y s' hy h).2 hs) hx ha
    (fun s y s' hy h hm => (hg s y s' hy h).1 hm) hw hr

theorem lookupDataAddresses_adds (h : c.Loaded text array rels) (hf : fn ∈ c.functions)
    (hd : InData c.scns fn.address) (hw : c.Within t)
    (hr : c.scns.foldlM c.lookupDataAddresses ⟨t, [], []⟩ = some l) :
    fn ∈ l.callTable.functions := by
  obtain ⟨scn, hscn, k, hk, hv⟩ := hd
  have hword := words_mem scn.data hk
  rw [hv] at hword
  obtain ⟨cl, hcl, mt, hmt, hfn⟩ := mem_functions.mp hf
  obtain ⟨k, hk⟩ := List.mem_iff_getElem?.mp hcl
  have hcl' : (cl, k) ∈ c.classes.zipIdx := List.mem_zipIdx_iff_getElem?.mpr hk
  have hclass (s s' : Lookups) (hs : c.Within s.callTable)
      (hr : c.classes.zipIdx.foldlM (c.lookupInClass fn.address) s = some s') :
      fn ∈ s'.callTable.functions :=
    foldlM_adds Lookups.callTable (fun _ _ _ hm => lookupInClass_grows (mem_zipIdx_fst hm)) hcl'
      (fun _ _ hw h' => lookupInClass_adds h.exact hcl hmt hfn hw h') hs hr
  have haddress (s s' : Lookups) (hs : c.Within s.callTable)
      (hr : c.lookupDataAddress s fn.address = some s') : fn ∈ s'.callTable.functions := by
    rw [lookupDataAddress, if_pos (h.inText hf)] at hr
    exact hclass s s' hs hr
  have hscn' (s s' : Lookups) (hs : c.Within s.callTable)
      (hr : c.lookupDataAddresses s scn = some s') : fn ∈ s'.callTable.functions :=
    foldlM_adds (f := c.lookupDataAddress) Lookups.callTable
      (fun _ _ _ _ => lookupDataAddress_grows) hword haddress hs hr
  exact foldlM_adds (f := c.lookupDataAddresses) (s := ⟨t, [], []⟩) Lookups.callTable
    (fun _ _ _ _ => lookupDataAddresses_grows) hscn hscn' hw hr

theorem addFunctionAt_grows (hx : c.Exact) (h : c.addFunctionAt t addr = some t') :
    c.Grows t t' := by
  rw [addFunctionAt] at h
  split at h
  · cases h
    exact grows_refl _
  · next mt hm =>
    obtain ⟨fn, hfn, hf, -⟩ := hx.getMethodByAddress_some hm
    rw [hfn] at h
    cases h
    split
    · exact grows_addFunction _ hf
    · exact grows_refl _

theorem addFunctionAt_isSome (hx : c.Exact) (t : CallTable) (addr : Word) :
    (c.addFunctionAt t addr).isSome = true := by
  rw [addFunctionAt]
  split
  · exact rfl
  · next mt hm =>
    obtain ⟨fn, hfn, -⟩ := hx.getMethodByAddress_some hm
    rw [hfn]
    exact rfl

theorem addFunctionAt_adds (hx : c.Exact) (hf : fn ∈ c.functions) (hw : c.Within t)
    (h : c.addFunctionAt t fn.address = some t') : fn ∈ t'.functions := by
  obtain ⟨mt, hm, hfn⟩ := hx.getMethodByAddress hf (covers_address fn)
  simp only [addFunctionAt, hm, hfn, if_true] at h
  cases h
  exact hx.mem_addFunction hw hf

theorem lookupRelocation_grows (hx : c.Exact) (h : c.lookupRelocation t rel = some t') :
    c.Grows t t' := by
  rw [lookupRelocation] at h
  split at h
  · cases h
    exact grows_refl _
  · split at h
    · exact addFunctionAt_grows hx h
    · split at h
      · exact addFunctionAt_grows hx h
      · cases h
        exact grows_refl _

theorem lookupRelocation_isSome (hx : c.Exact) (t : CallTable) (rel : ElfReloc) :
    (c.lookupRelocation t rel).isSome = true := by
  rw [lookupRelocation]
  split
  · exact rfl
  · split
    · exact addFunctionAt_isSome hx _ _
    · split
      · exact addFunctionAt_isSome hx _ _
      · exact rfl

/-- A relocation other than R_MIPS_26 against the symbol of a function at the address. -/
def HasReloc (relocs : List ElfReloc) (addr : Word) : Prop :=
  ∃ rel ∈ relocs, rel.type ≠ RelocType.r26 ∧ rel.sym = some ⟨.sttFunc, addr⟩

theorem lookupRelocation_adds (hx : c.Exact) (hf : fn ∈ c.functions) (hw : c.Within t)
    (ht : rel.type ≠ RelocType.r26) (hs : rel.sym = some ⟨.sttFunc, fn.address⟩)
    (h : c.lookupRelocation t rel = some t') : fn ∈ t'.functions := by
  simp only [lookupRelocation, hs] at h
  rw [if_pos ⟨trivial, ht⟩] at h
  exact addFunctionAt_adds hx hf hw h

/-- The relocation is of the type and inside method `idx` of the class. -/
def InMethod (c : Controller) (cl : List JavaMethod) (type idx : Nat) (rel : ElfReloc) : Prop :=
  rel.type = type ∧ c.findInClass cl rel.addr = some idx

instance (c : Controller) (cl : List JavaMethod) (type idx : Nat) :
    DecidablePred (c.InMethod cl type idx) := fun _ => instDecidableAnd

/-- A range holds the indices with a property, and begins and ends at such. -/
def Bounds (p : Nat → Prop) : Option (Nat × Nat) → Prop
  | none => ∀ i, ¬ p i
  | some (first, last) => (p first ∧ p last) ∧ ∀ i, p i → first ≤ i ∧ i ≤ last

theorem bounds_extend {p q : Nat → Prop} (h : Bounds p limit) (hp : ∀ i, q i ↔ p i ∨ i = n) :
    Bounds q (extend limit n) := by
  have hn : q n := (hp n).mpr (.inr rfl)
  cases limit with
  | none =>
    refine ⟨⟨hn, hn⟩, ?_⟩
    intro i hi
    rcases (hp i).mp hi with hi | rfl
    · exact absurd hi (h i)
    · exact ⟨Nat.le_refl _, Nat.le_refl _⟩
  | some limit =>
    obtain ⟨⟨hf, hl⟩, hb⟩ := h
    have hq (b : Prop) [Decidable b] (j : Nat) (hj : p j) : q (if b then n else j) := by
      split
      · exact hn
      · exact (hp j).mpr (.inl hj)
    refine ⟨⟨hq _ _ hf, hq _ _ hl⟩, ?_⟩
    intro i hi
    rcases (hp i).mp hi with hi | rfl
    · have := hb i hi
      constructor <;> split <;> omega
    · constructor <;> split <;> omega

/-- The limits of a method bound its relocations of a type. -/
theorem limits_spec (c : Controller) (cl : List JavaMethod) (type idx : Nat) :
    Bounds (fun i => ∃ rel, c.relocs[i]? = some rel ∧ c.InMethod cl type idx rel)
      (c.limits cl type idx) := by
  have hfold (l : List (ElfReloc × Nat)) :
      Bounds (fun i => ∃ rel, (rel, i) ∈ l ∧ c.InMethod cl type idx rel)
        (l.foldl (fun limit rel => if rel.1.type = type ∧ c.findInClass cl rel.1.addr = some idx
          then extend limit rel.2 else limit) none) := by
    induction l using List.reverseRecOn with
    | nil => exact fun i ⟨_, h, _⟩ => nomatch h
    | append_singleton l x ih =>
      rw [List.foldl_append, List.foldl_cons, List.foldl_nil]
      split
      · next hm =>
        refine bounds_extend ih ?_
        intro i
        constructor
        · rintro ⟨rel, hi, hr⟩
          rcases List.mem_append.mp hi with hi | hi
          · exact .inl ⟨rel, hi, hr⟩
          · cases List.mem_singleton.mp hi
            exact .inr rfl
        · rintro (⟨rel, hi, hr⟩ | rfl)
          · exact ⟨rel, List.mem_append_left _ hi, hr⟩
          · exact ⟨x.1, List.mem_append_right _ (List.mem_singleton_self x), hm⟩
      · next hm =>
        have he : (fun i => ∃ rel, (rel, i) ∈ l ++ [x] ∧ c.InMethod cl type idx rel) =
            fun i => ∃ rel, (rel, i) ∈ l ∧ c.InMethod cl type idx rel := by
          funext i
          refine propext ⟨?_, fun ⟨rel, hi, hr⟩ => ⟨rel, List.mem_append_left _ hi, hr⟩⟩
          rintro ⟨rel, hi, hr⟩
          rcases List.mem_append.mp hi with hi | hi
          · exact ⟨rel, hi, hr⟩
          · cases List.mem_singleton.mp hi
            exact absurd hr hm
        rw [he]
        exact ih
  have h := hfold c.relocs.zipIdx
  simp only [List.mem_zipIdx_iff_getElem?] at h
  exact h

/-- What lies between the limits of a method is of their type. -/
theorem Loaded.between {first last i : Nat} {rf rl : ElfReloc} (h : c.Loaded text array rels)
    (hf : c.relocs[first]? = some rf) (hl : c.relocs[last]? = some rl) (ht : rf.type = type)
    (ht' : rl.type = type)
    (hi : first ≤ i ∧ i ≤ last) : ∃ rel, c.relocs[i]? = some rel ∧ rel.type = type := by
  obtain ⟨hfl, hfe⟩ := List.getElem?_eq_some_iff.mp hf
  obtain ⟨hll, hle⟩ := List.getElem?_eq_some_iff.mp hl
  have hlt : i < c.relocs.length := Nat.lt_of_le_of_lt hi.2 hll
  have hcmp {j k : Nat} (hj : j < c.relocs.length) (hk : k < c.relocs.length) (hjk : j ≤ k) :
      c.relocs[j].type ≤ c.relocs[k].type := by
    rcases Nat.eq_or_lt_of_le hjk with rfl | hjk
    · exact Nat.le_refl _
    · have hc := List.pairwise_iff_getElem.mp h.relocs.2 j k hj hk hjk
      rw [CibylElf.relocCmp] at hc
      split at hc <;> omega
  refine ⟨c.relocs[i], List.getElem?_eq_getElem hlt, ?_⟩
  have h₁ := hcmp hfl hlt hi.1
  have h₂ := hcmp hlt hll hi.2
  rw [hfe, ht] at h₁
  rw [hle, ht'] at h₂
  exact Nat.le_antisymm h₂ h₁

theorem mem_indices {limit : Nat × Nat} : i ∈ indices limit ↔ limit.1 ≤ i ∧ i ≤ limit.2 := by
  rw [indices, List.mem_range'_1]
  omega

theorem addPair_grows (hx : c.Exact) (h : c.addPair instructions a t l = some t') :
    c.Grows t t' := by
  rw [addPair] at h
  split at h
  · cases h
  · dsimp only at h
    split at h
    · cases h
      exact grows_refl _
    · split at h
      · cases h
        exact grows_refl _
      · next mt hm =>
        obtain ⟨fn, hfn, hf, -⟩ := hx.getMethodByAddress_some hm
        rw [hfn] at h
        cases h
        exact grows_addFunction _ hf

theorem addPair_isSome (hx : c.Exact) (t : CallTable)
    (hb : ((c.relocs[l]?).bind (fun rel => c.relocatedInsn instructions rel.addr)).isSome = true) :
    (c.addPair instructions a t l).isSome = true := by
  obtain ⟨b, hb⟩ := Option.isSome_iff_exists.mp hb
  rw [addPair, hb]
  dsimp only
  split
  · exact rfl
  · split
    · exact rfl
    · next mt hm =>
      obtain ⟨fn, hfn, -⟩ := hx.getMethodByAddress_some hm
      rw [hfn]
      exact rfl

theorem addPair_adds (h : c.Loaded text array rels) (hf : fn ∈ c.functions) (hw : c.Within t)
    (hb : (c.relocs[l]?).bind (fun rel => c.relocatedInsn instructions rel.addr) = some b)
    (hp : pairAddress a b = fn.address) (hr : c.addPair instructions a t l = some t') :
    fn ∈ t'.functions := by
  obtain ⟨mt, hm, hfn⟩ := h.exact.getMethodByAddress hf (covers_address fn)
  have hal : ¬ fn.address &&& 3 ≠ 0 := not_not.mpr (h.inText hf).2
  simp only [addPair, hb, hp, if_neg hal, hm, hfn, Option.map_some] at hr
  cases hr
  exact h.exact.mem_addFunction hw hf

theorem addPairs_grows (hx : c.Exact) (h : c.addPairs instructions lo t i = some t') :
    c.Grows t t' := by
  rw [addPairs] at h
  split at h
  · cases h
  · exact foldlM_grows id (fun _ _ _ _ => addPair_grows hx) h

theorem lookupPairs_grows (hx : c.Exact) (h : c.lookupPairs instructions cl t idx = some t') :
    c.Grows t t' := by
  rw [lookupPairs] at h
  split at h
  · exact foldlM_grows id (fun _ _ _ _ => addPairs_grows hx) h
  · cases h
    exact grows_refl _

theorem lookupRelocations_grows (hx : c.Exact)
    (h : c.lookupRelocations instructions t cl = some t') : c.Grows t t' := by
  obtain ⟨t₁, h₁, h⟩ := Option.bind_eq_some_iff.mp h
  exact (foldlM_grows id (fun _ _ _ _ => lookupRelocation_grows hx) h₁).trans
    (foldlM_grows id (fun _ _ _ _ => lookupPairs_grows hx) h)

/-- The relocations of the high and low halves are of instruction words of the text section. -/
def HiLoInText (c : Controller) (text : List Word) : Prop :=
  ∀ rel ∈ c.relocs, rel.type = RelocType.hi16 ∨ rel.type = RelocType.lo16 →
    ∃ i < text.length, rel.addr = c.base + BitVec.ofNat 32 (4 * i)

theorem Loaded.relocated {i : Nat} (h : c.Loaded text array rels) (hr : c.HiLoInText text)
    (hs : Slots array instructions) (hrel : c.relocs[i]? = some rel)
    (ht : rel.type = RelocType.hi16 ∨ rel.type = RelocType.lo16) :
    ((c.relocs[i]?).bind (fun rel => c.relocatedInsn instructions rel.addr)).isSome = true := by
  obtain ⟨j, hj, ha⟩ := hr rel (List.mem_of_getElem? hrel) ht
  obtain ⟨d, b, -, hb, -⟩ := relocatedInsn_text h.pass0 h.fits h.textSize hs hj
  rw [hrel, Option.bind_some, ha, hb]
  exact rfl

theorem lookupPairs_isSome (h : c.Loaded text array rels) (hr : c.HiLoInText text)
    (hs : Slots array instructions) (t : CallTable) (cl : List JavaMethod) (idx : Nat) :
    (c.lookupPairs instructions cl t idx).isSome = true := by
  have hhi := c.limits_spec cl RelocType.hi16 idx
  have hlo := c.limits_spec cl RelocType.lo16 idx
  rw [lookupPairs]
  split
  · next hi lo he he' =>
    rw [he] at hhi
    rw [he'] at hlo
    obtain ⟨⟨⟨rf, hrf, hf, -⟩, ⟨rl, hrl, hl, -⟩⟩, -⟩ := hhi
    obtain ⟨⟨⟨rf', hrf', hf', -⟩, ⟨rl', hrl', hl', -⟩⟩, -⟩ := hlo
    refine foldlM_isSome (I := fun _ => True) (fun _ _ _ _ _ _ => trivial) ?_ trivial
    intro t i hi _
    obtain ⟨rel, hrel, ht⟩ := h.between hrf hrl hf hl (mem_indices.mp hi)
    obtain ⟨a, ha⟩ := Option.isSome_iff_exists.mp (h.relocated hr hs hrel (.inl ht))
    rw [addPairs, ha]
    refine foldlM_isSome (I := fun _ => True) (fun _ _ _ _ _ _ => trivial) ?_ trivial
    intro t j hj _
    obtain ⟨rel', hrel', ht'⟩ := h.between hrf' hrl' hf' hl' (mem_indices.mp hj)
    exact addPair_isSome h.exact t (h.relocated hr hs hrel' (.inr ht'))
  · exact rfl

theorem lookupRelocations_isSome (h : c.Loaded text array rels) (hr : c.HiLoInText text)
    (hs : Slots array instructions) (t : CallTable) (cl : List JavaMethod) :
    (c.lookupRelocations instructions t cl).isSome = true := by
  have hsome : (c.relocs.foldlM c.lookupRelocation t).isSome = true :=
    foldlM_isSome (I := fun _ => True) (fun _ _ _ _ _ _ => trivial)
      (fun t rel _ _ => lookupRelocation_isSome h.exact t rel) trivial
  obtain ⟨t₁, ht₁⟩ := Option.isSome_iff_exists.mp hsome
  rw [lookupRelocations, ht₁, Option.bind_some]
  exact foldlM_isSome (I := fun _ => True) (fun _ _ _ _ _ _ => trivial)
    (fun t idx _ _ => lookupPairs_isSome h hr hs t cl idx) trivial

/-- The value that `lui` and an `addiu` or `ori` of its result compute. -/
def HalvesMake (high low : Word) (v : Word) : Prop :=
  Arch.aluOpcode high = some .lui ∧ ∃ o, Arch.aluOpcode low = some o ∧ (o = .addiu ∨ o = .ori) ∧
    ∃ before after : RegFile, ∃ x, Arch.writes .lui high before = [(Arch.rt high, x)] ∧
      after.get (Arch.rs low) = x ∧ Arch.writes o low after = [(Arch.rt low, v)]

theorem pairAddress_eq (ha : create p high = some a) (hb : create q low = some b)
    (h : HalvesMake high low v) : pairAddress a b = v := by
  obtain ⟨hhigh, o, hlow, ho, before, after, x, hx, hs, hv⟩ := h
  obtain ⟨-, hea⟩ := create_half ha hhigh (by decide)
  have hx := congrArg Prod.snd (List.cons.inj hx).1
  dsimp only at hx
  rw [if_neg (by decide)] at hea
  rcases ho with rfl | rfl
  · obtain ⟨hob, heb⟩ := create_half hb hlow (by decide)
    have hv := congrArg Prod.snd (List.cons.inj hv).1
    dsimp only at hv
    rw [if_pos rfl] at heb
    rw [pairAddress, hob, hea, heb, ← hv, hs, ← hx]
  · obtain ⟨hob, heb⟩ := create_half hb hlow (by decide)
    have hv := congrArg Prod.snd (List.cons.inj hv).1
    dsimp only at hv
    rw [if_neg (by decide)] at heb
    rw [pairAddress, hob, hea, heb, ← hv, hs, ← hx]

/-- Two relocated instructions of one method make the address. -/
def HiLoPair (c : Controller) (text : List Word) (relocs : List ElfReloc) (addr : Word) : Prop :=
  ∃ hi ∈ relocs, ∃ lo ∈ relocs, hi.type = RelocType.hi16 ∧ lo.type = RelocType.lo16 ∧
    (∃ cl ∈ c.classes, ∃ mt ∈ cl, (mt.getFunctionByAddress hi.addr).isSome = true ∧
      (mt.getFunctionByAddress lo.addr).isSome = true) ∧
    ∃ i j high low, text[i]? = some high ∧ text[j]? = some low ∧
      hi.addr = c.base + BitVec.ofNat 32 (4 * i) ∧ lo.addr = c.base + BitVec.ofNat 32 (4 * j) ∧
      HalvesMake high low addr

theorem Loaded.relocated_eq {i j : Nat} {word : Word} (h : c.Loaded text array rels)
    (hs : Slots array instructions) (hrel : c.relocs[i]? = some rel) (hw : text[j]? = some word)
    (ha : rel.addr = c.base + BitVec.ofNat 32 (4 * j)) (ho : Arch.aluOpcode word = some o)
    (hh : o ∈ halfOpcodes) :
    ∃ d, create (c.base + BitVec.ofNat 32 (4 * j)) word = some d ∧
      (c.relocs[i]?).bind (fun rel => c.relocatedInsn instructions rel.addr) = some d := by
  obtain ⟨hj, rfl⟩ := List.getElem?_eq_some_iff.mp hw
  obtain ⟨d, b, hd, hb, he⟩ := relocatedInsn_text h.pass0 h.fits h.textSize hs hj
  have hne : d.opcode ∉ [Opcode.j, .sw, .lw] := by
    rw [(create_half hd ho hh).1]
    simp only [halfOpcodes, List.mem_cons, List.not_mem_nil, or_false] at hh
    rcases hh with rfl | rfl | rfl <;> decide
  refine ⟨d, hd, ?_⟩
  rw [hrel, Option.bind_some, ha, hb, he hne]

/-- The pairs of a method add the function whose address one of them makes. -/
theorem lookupPairs_adds (h : c.Loaded text array rels) (hf : fn ∈ c.functions)
    (hs : Slots array instructions) {hi lo : ElfReloc} (hhi : hi ∈ c.relocs) (hlo : lo ∈ c.relocs)
    (hih : c.InMethod cl RelocType.hi16 idx hi) (hil : c.InMethod cl RelocType.lo16 idx lo)
    {i j : Nat} {high low : Word} (hwi : text[i]? = some high) (hwj : text[j]? = some low)
    (hai : hi.addr = c.base + BitVec.ofNat 32 (4 * i))
    (haj : lo.addr = c.base + BitVec.ofNat 32 (4 * j)) (hm : HalvesMake high low fn.address)
    (hw : c.Within t) (hr : c.lookupPairs instructions cl t idx = some t') :
    fn ∈ t'.functions := by
  obtain ⟨m, hmi⟩ := List.mem_iff_getElem?.mp hhi
  obtain ⟨n, hnl⟩ := List.mem_iff_getElem?.mp hlo
  obtain ⟨hohigh, o, holow, ho, -⟩ := id hm
  have hhalf : o ∈ halfOpcodes := by
    rcases ho with rfl | rfl <;> decide
  obtain ⟨a, hca, ha⟩ := h.relocated_eq hs hmi hwi hai hohigh (by decide)
  obtain ⟨b, hcb, hb⟩ := h.relocated_eq hs hnl hwj haj holow hhalf
  have hspec := c.limits_spec cl RelocType.hi16 idx
  have hspec' := c.limits_spec cl RelocType.lo16 idx
  rw [lookupPairs] at hr
  cases hlh : c.limits cl RelocType.hi16 idx with
  | none =>
    rw [hlh] at hspec
    exact absurd ⟨hi, hmi, hih⟩ (hspec m)
  | some lh =>
    cases hll : c.limits cl RelocType.lo16 idx with
    | none =>
      rw [hll] at hspec'
      exact absurd ⟨lo, hnl, hil⟩ (hspec' n)
    | some ll =>
      rw [hlh] at hspec hr
      rw [hll] at hspec' hr
      have hmem := mem_indices.mpr (hspec.2 m ⟨hi, hmi, hih⟩)
      have hmem' := mem_indices.mpr (hspec'.2 n ⟨lo, hnl, hil⟩)
      refine foldlM_adds (f := c.addPairs instructions ll) id
        (fun _ _ _ _ => addPairs_grows h.exact) hmem ?_ hw hr
      intro s s' hws hrs
      rw [addPairs, ha] at hrs
      refine foldlM_adds (f := c.addPair instructions a) id (fun _ _ _ _ => addPair_grows h.exact)
        hmem' ?_ hws hrs
      intro s s' hws hrs
      exact addPair_adds h hf hws hb (pairAddress_eq hca hcb hm) hrs

theorem lookupRelocations_adds (h : c.Loaded text array rels) (hf : fn ∈ c.functions)
    (hd : HasReloc c.relocs fn.address) (hw : c.Within t)
    (hr : c.lookupRelocations instructions t cl = some t') : fn ∈ t'.functions := by
  obtain ⟨rel, hrel, ht, hs⟩ := hd
  obtain ⟨t₁, h₁, hr⟩ := Option.bind_eq_some_iff.mp hr
  have hm := foldlM_adds (f := c.lookupRelocation) id
    (fun _ _ _ _ => lookupRelocation_grows h.exact) hrel
    (fun _ _ hw h' => lookupRelocation_adds h.exact hf hw ht hs h') hw h₁
  exact (foldlM_grows id (fun _ _ _ _ => lookupPairs_grows h.exact) hr).1 hm

theorem lookupRelocations_adds_pair (h : c.Loaded text array rels) (hf : fn ∈ c.functions)
    (hs : Slots array instructions) {hi lo : ElfReloc} (hhi : hi ∈ c.relocs) (hlo : lo ∈ c.relocs)
    (hth : hi.type = RelocType.hi16) (htl : lo.type = RelocType.lo16) (hcl : cl ∈ c.classes)
    (hmt : mt ∈ cl) (hfh : (mt.getFunctionByAddress hi.addr).isSome = true)
    (hfl : (mt.getFunctionByAddress lo.addr).isSome = true)
    {i j : Nat} {high low : Word} (hwi : text[i]? = some high) (hwj : text[j]? = some low)
    (hai : hi.addr = c.base + BitVec.ofNat 32 (4 * i))
    (haj : lo.addr = c.base + BitVec.ofNat 32 (4 * j)) (hm : HalvesMake high low fn.address)
    (hw : c.Within t) (hr : c.lookupRelocations instructions t cl = some t') :
    fn ∈ t'.functions := by
  obtain ⟨idx, hidx⟩ := List.mem_iff_getElem?.mp hmt
  obtain ⟨t₁, h₁, hr⟩ := Option.bind_eq_some_iff.mp hr
  have hw₁ := (foldlM_grows id (fun _ _ _ _ => lookupRelocation_grows h.exact) h₁).2 hw
  have hlt : idx < cl.length := (List.getElem?_eq_some_iff.mp hidx).1
  exact foldlM_adds (f := c.lookupPairs instructions cl) id
    (fun _ _ _ _ => lookupPairs_grows h.exact) (List.mem_range.mpr hlt)
    (fun _ _ hw h' => lookupPairs_adds h hf hs hhi hlo
      ⟨hth, (h.exact.found cl hcl _ _).mpr ⟨mt, hidx, hfh⟩⟩
      ⟨htl, (h.exact.found cl hcl _ _).mpr ⟨mt, hidx, hfl⟩⟩ hwi hwj hai haj hm hw h') hw₁ hr

/-- `pass1` of a function keeps what lookups see. -/
theorem Loaded.storePass1_slots (h : c.Loaded text array rels) (env : Env)
    (hs : Slots array instructions) (hf : fn ∈ c.functions) :
    Slots array (c.storePass1 env instructions fn) := by
  obtain ⟨a, b, hlt, ha, he⟩ := h.symbol hf
  have hfirst : (fn.address - c.base).toNat / 4 = a := by
    have hfit := h.fits
    rw [ha, add_sub_cancel_left, BitVec.toNat_ofNat]
    omega
  have hpass : List.Forall₂ Entry.Kept (slice array a b) (fn.pass1 env) := by
    rw [← he]
    refine Entry.forall₂_kept (fn.pass1_replaced env) ?_
    intro e hm ho
    rw [he] at hm
    exact (pass0_slot h.pass0 (List.mem_of_mem_drop (List.mem_of_mem_take hm))).2 ho
  have harr : array = array.take a ++ slice array a b ++
    array.drop (a + (fn.pass1 env).length) := by
    rw [List.append_assoc, ← hpass.length_eq, ← List.drop_drop, slice, take_append_drop_length,
      List.take_append_drop]
  rw [storePass1, hfirst]
  have hall : List.Forall₂ Entry.Kept
      (array.take a ++ slice array a b ++ array.drop (a + (fn.pass1 env).length))
      (instructions.take a ++ fn.pass1 env ++ instructions.drop (a + (fn.pass1 env).length)) :=
    List.rel_append (List.rel_append (List.forall₂_take a hs) hpass) (List.forall₂_drop _ hs)
  rwa [← harr] at hall

theorem Loaded.foldl_slots (h : c.Loaded text array rels) (env : Env) {fns : List Function}
    (hf : ∀ fn ∈ fns, fn ∈ c.functions) (hs : Slots array instructions) :
    Slots array (fns.foldl (c.storePass1 env) instructions) := by
  induction fns generalizing instructions with
  | nil => exact hs
  | cons fn fns ih =>
    obtain ⟨hfn, hfns⟩ := List.forall_mem_cons.mp hf
    exact ih hfns (h.storePass1_slots env hs hfn)

/-- What the classes keep: functions of the program in the table, and the slots. -/
def ClassState (c : Controller) (array : List Entry) (s : CallTable × List Entry) : Prop :=
  c.Within s.1 ∧ Slots array s.2

theorem classPass1_keeps (h : c.Loaded text array rels) {env : Env} (hcl : cl ∈ c.classes)
    (hs : c.ClassState array s) (hr : c.classPass1 env s cl = some s') :
    c.ClassState array s' := by
  obtain ⟨t, ht, rfl⟩ := Option.map_eq_some_iff.mp hr
  refine ⟨(lookupRelocations_grows h.exact ht).2 hs.1, h.foldl_slots env ?_ hs.2⟩
  intro fn hf
  exact List.mem_flatMap.mpr ⟨cl, hcl, hf⟩

theorem classPass1_grows (hx : c.Exact) {env : Env} (hr : c.classPass1 env s cl = some s') :
    c.Grows s.1 s'.1 := by
  obtain ⟨t, ht, rfl⟩ := Option.map_eq_some_iff.mp hr
  exact lookupRelocations_grows hx ht

/-- The address is in the data, a relocation is against it or a pair makes it. -/
def Referenced (c : Controller) (text : List Word) (relocs : List ElfReloc) (addr : Word) : Prop :=
  InData c.scns addr ∨ HasReloc relocs addr ∨ c.HiLoPair text relocs addr

theorem pass1_adds (h : c.Loaded text array rels) {env : Env} (hf : fn ∈ c.functions)
    (hd : c.Referenced text c.relocs fn.address)
    (hr : c.pass1 env array .empty = some t) : fn ∈ t.functions := by
  have hempty : c.Within .empty := fun g hg => nomatch hg
  obtain ⟨l, hl, hr⟩ := Option.bind_eq_some_iff.mp hr
  obtain ⟨s, hs, rfl⟩ := Option.map_eq_some_iff.mp hr
  have hwl : c.Within l.callTable :=
    (foldlM_grows Lookups.callTable (fun _ _ _ _ => lookupDataAddresses_grows) hl).2 hempty
  have hstate : c.ClassState array (l.callTable, array) := ⟨hwl, slots_refl array⟩
  have hclasses {cl : List JavaMethod} (hcl : cl ∈ c.classes)
      (ha : ∀ t instructions t', c.Within t → Slots array instructions →
        c.lookupRelocations instructions t cl = some t' → fn ∈ t'.functions) :
      fn ∈ s.1.functions := by
    refine foldlM_reaches (I := c.ClassState array) (Q := fun s => fn ∈ s.1.functions)
      (fun s x s' hx => classPass1_keeps h hx) hcl ?_ ?_ hstate hs
    · intro s s' hi hr
      obtain ⟨t, ht, rfl⟩ := Option.map_eq_some_iff.mp hr
      exact ha _ _ _ hi.1 hi.2 ht
    · intro s x s' _ hr hm
      exact (classPass1_grows h.exact hr).1 hm
  rcases hd with hd | hd | ⟨hi, hhi, lo, hlo, hth, htl, ⟨cl, hcl, mt, hmt, hfh, hfl⟩, i, j, high,
    low, hwi, hwj, hai, haj, hm⟩
  · have hmem := lookupDataAddresses_adds h hf hd hempty hl
    exact (foldlM_grows Prod.fst (fun _ _ _ _ => classPass1_grows h.exact) hs).1 hmem
  · obtain ⟨cl, hcl, -⟩ := mem_functions.mp hf
    exact hclasses hcl (fun t instructions t' hw _ => lookupRelocations_adds h hf hd hw)
  · exact hclasses hcl (fun t instructions t' hw hs =>
      lookupRelocations_adds_pair h hf hs hhi hlo hth htl hcl hmt hfh hfl hwi hwj hai haj hm hw)

theorem pass1_isSome (h : c.Loaded text array rels) (hr : c.HiLoInText text) (env : Env)
    (t : CallTable) (hw : c.Within t) : (c.pass1 env array t).isSome = true := by
  have hsome : (c.scns.foldlM c.lookupDataAddresses ⟨t, [], []⟩).isSome = true := by
    refine foldlM_isSome (I := fun _ => True) (fun _ _ _ _ _ _ => trivial) ?_ trivial
    intro l scn _ _
    exact foldlM_isSome (I := fun _ => True) (fun _ _ _ _ _ _ => trivial)
      (fun l v _ _ => lookupDataAddress_isSome h.exact l v) trivial
  obtain ⟨l, hl⟩ := Option.isSome_iff_exists.mp hsome
  have hwl : c.Within l.callTable :=
    (foldlM_grows Lookups.callTable (fun _ _ _ _ => lookupDataAddresses_grows) hl).2 hw
  rw [pass1, hl, Option.bind_some, Option.isSome_map]
  refine foldlM_isSome (I := c.ClassState array) (fun s x s' hx => classPass1_keeps h hx) ?_
    ⟨hwl, slots_refl array⟩
  intro s cl _ hs
  rw [classPass1, Option.isSome_map]
  exact lookupRelocations_isSome h hr hs.2 s.1 cl

theorem Referenced.mono {relocs relocs' : List ElfReloc} (hs : relocs ⊆ relocs')
    (h : c.Referenced text relocs addr) : c.Referenced text relocs' addr := by
  rcases h with h | ⟨rel, hr, h⟩ | ⟨hi, hhi, lo, hlo, h⟩
  · exact .inl h
  · exact .inr (.inl ⟨rel, hs hr, h⟩)
  · exact .inr (.inr ⟨hi, hs hhi, lo, hs hlo, h⟩)

/-- The pruned call table has every function that the data, a relocation or a pair of relocated
halves refers to, and its list is sorted and holds what was added. -/
theorem pruned_call_table_complete (h : c.Loaded text array rels) (env : Env) :
    (∀ t, c.pass1 env array .empty = some t → ∀ fn ∈ c.functions,
      c.Referenced text (CibylElf.readRelocs rels) fn.address → fn ∈ t.functions) ∧
    (c.HiLoInText text → ∃ t, c.pass1 env array .empty = some t) ∧
    ∀ fns : List Function, let t := fns.foldl CallTable.addFunction .empty
      t.functions.Pairwise (fun f g => f.address.toNat < g.address.toNat) ∧ t.functions.Nodup ∧
        ((∀ f ∈ fns, ∀ g ∈ fns, f.address = g.address → f = g) →
          ∀ f, f ∈ t.functions ↔ f ∈ fns) := by
  refine ⟨?_, ?_, ?_⟩
  · intro t ht fn hf hd
    exact pass1_adds h hf (hd.mono h.relocs.1.symm.subset) ht
  · intro hr
    exact Option.isSome_iff_exists.mp (pass1_isSome h hr env .empty (fun g hg => nomatch hg))
  · intro fns t
    refine ⟨t.sorted, t.nodup, ?_⟩
    intro hinj f
    rw [CallTable.mem_addAll]
    have hempty : f ∉ CallTable.empty.functions := List.not_mem_nil
    constructor
    · rintro (hf | ⟨hf, -⟩)
      · exact absurd hf hempty
      · exact List.mem_of_find?_eq_some hf
    · intro hf
      refine .inr ⟨?_, fun g hg => nomatch hg⟩
      obtain ⟨g, hg⟩ := Option.isSome_iff_exists.mp
        (List.find?_isSome.mpr ⟨f, hf, beq_iff_eq.mpr rfl⟩ :
          (fns.find? (fun g => g.address == f.address)).isSome = true)
      have ha : g.address = f.address := by simpa using List.find?_some hg
      rw [hg, hinj g (List.mem_of_find?_eq_some hg) f hf ha]

end

/-- The caller of `callNext` alone, with sections of data and relocations. -/
def ofCallNext (relocs : List ElfReloc) (scns : List ElfSection) : Controller where
  base := 0x1000
  textSize := 24
  classes := [[callNextCaller]]
  findInClass cl addr := cl.findIdx? (fun mt => (mt.getFunctionByAddress addr).isSome)
  relocs := relocs
  scns := scns

theorem ofCallNext_loaded {rels : List RelSection} {sorted : List ElfReloc}
    (h : CibylElf.Sorted CibylElf.relocCmp (CibylElf.readRelocs rels) sorted)
    (scns : List ElfSection) : (ofCallNext sorted scns).Loaded callNext callNextArray rels where
  pass0 := callNext_pass0
  textSize := rfl
  aligned := show (0x1000 : Word) &&& 3 = 0 by decide
  fits := show (0x1000 : Word).toNat + 4 * callNext.length < 2 ^ 32 by decide
  made := by
    intro cl hcl mt hmt
    cases List.mem_singleton.mp hcl
    cases List.mem_singleton.mp hmt
    exact callNextCaller_made
  relocs := h
  exact := by
    refine ⟨?_, ?_⟩
    · intro cl hcl addr idx
      cases List.mem_singleton.mp hcl
      constructor
      · intro hf
        obtain ⟨hlt, hp, -⟩ := List.findIdx?_eq_some_iff_getElem.mp hf
        exact ⟨_, List.getElem?_eq_getElem hlt, hp⟩
      · rintro ⟨mt, hget, hs⟩
        cases idx with
        | zero =>
          cases hget
          simp only [ofCallNext, List.findIdx?_cons, hs, if_true]
        | succ idx => cases hget
    · intro f hf g hg addr _ _
      cases List.mem_singleton.mp hf
      cases List.mem_singleton.mp hg
      rfl

theorem pruned_call_table_complete_data :
    let c := ofCallNext [] [⟨[0, 0, 0x10, 0], 4⟩]
    (∀ t, c.pass1 (callNextEnv "g") callNextArray .empty = some t → ∀ fn ∈ c.functions,
      c.Referenced callNext (CibylElf.readRelocs []) fn.address → fn ∈ t.functions) ∧
    (c.HiLoInText callNext → ∃ t, c.pass1 (callNextEnv "g") callNextArray .empty = some t) ∧
    ∀ fns : List Function, let t := fns.foldl CallTable.addFunction .empty
      t.functions.Pairwise (fun f g => f.address.toNat < g.address.toNat) ∧ t.functions.Nodup ∧
        ((∀ f ∈ fns, ∀ g ∈ fns, f.address = g.address → f = g) →
          ∀ f, f ∈ t.functions ↔ f ∈ fns) :=
  pruned_call_table_complete (ofCallNext_loaded ⟨.nil, .nil⟩ _) (callNextEnv "g")

/-- A relocation section that is not read. -/
def pdrSections : List RelSection :=
  [⟨".rel.pdr", [⟨0, RelocType.r32, some ⟨.sttFunc, 0x1000⟩, 0⟩]⟩]

/-- A function that only `.rel.pdr` refers to is not in the table. -/
theorem pdr_relocation_skipped :
    (ofCallNext [] []).Loaded callNext callNextArray pdrSections ∧
    ∃ fn ∈ (ofCallNext [] []).functions,
      (∃ scn ∈ pdrSections, HasReloc scn.relocs fn.address) ∧
      ∃ t, (ofCallNext [] []).pass1 (callNextEnv "g") callNextArray .empty = some t ∧
        fn ∉ t.functions := by
  have hs : CibylElf.Sorted CibylElf.relocCmp (CibylElf.readRelocs pdrSections) [] := by
    rw [show CibylElf.readRelocs pdrSections = [] by decide]
    exact ⟨.nil, .nil⟩
  refine ⟨ofCallNext_loaded hs _, _, List.mem_singleton_self _, ?_, ?_⟩
  · exact ⟨_, List.mem_singleton_self _, _, List.mem_singleton_self _, by decide, rfl⟩
  · exact ⟨.empty, rfl, List.not_mem_nil⟩

end Controller

end Cibyl
