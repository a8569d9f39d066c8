import Cibyl.Decode
import Cibyl.Pass1
import Mathlib.Data.List.Forall2

namespace Cibyl
set_option autoImplicit true

open InstructionFactory (create createNop createDelaySlotNop)

namespace Controller

/-- The instructions of the text section; `none` where one of them cannot be created. -/
def decode (base : Word) : List Word → Option (List Instruction)
  | [] => some []
  | word :: text =>
    (create base word).bind (fun insn => (decode (base + 4) text).map (fun insns => insn :: insns))

/-- `pass0`: the instructions, with those in delay slots attached to their branches. -/
def pass0 (base : Word) (text : List Word) : Option (List Entry) :=
  (decode base text).map attachDelaySlots

theorem decode_cons (h : decode base (word :: text) = some insns) : ∃ insn rest,
    create base word = some insn ∧ decode (base + 4) text = some rest ∧ insns = insn :: rest := by
  obtain ⟨insn, hi, h⟩ := Option.bind_eq_some_iff.mp h
  obtain ⟨rest, hr, h⟩ := Option.map_eq_some_iff.mp h
  exact ⟨insn, rest, hi, hr, h.symm⟩

theorem mem_decode (h : decode base text = some insns) (hi : insn ∈ insns) :
    ∃ word ∈ text, create insn.address word = some insn := by
  induction text generalizing base insns with
  | nil =>
    cases h
    cases hi
  | cons word text ih =>
    obtain ⟨i, rest, hc, hr, rfl⟩ := decode_cons h
    rcases List.mem_cons.mp hi with rfl | hi
    · exact ⟨word, List.mem_cons_self .., create_address hc ▸ hc⟩
    · obtain ⟨w, hw, hc'⟩ := ih hr hi
      exact ⟨w, List.mem_cons_of_mem _ hw, hc'⟩

theorem decode_addresses (h : decode base text = some insns) : insns.map Instruction.address =
    (List.range text.length).map (fun i => base + BitVec.ofNat 32 (4 * i)) := by
  induction text generalizing base insns with
  | nil =>
    cases h
    rfl
  | cons word text ih =>
    obtain ⟨insn, rest, hc, hr, rfl⟩ := decode_cons h
    have hs (i : Nat) : base + 4 + BitVec.ofNat 32 (4 * i) =
        base + BitVec.ofNat 32 (4 * (i + 1)) := by
      rw [Nat.mul_succ, Nat.add_comm, BitVec.ofNat_add, BitVec.add_assoc]
      rfl
    rw [List.map_cons, ih hr, create_address hc, List.length_cons, List.range_succ_eq_map,
      List.map_cons, List.map_map]
    simp only [hs]
    rw [Nat.mul_zero, BitVec.add_zero]
    rfl

theorem decode_chain (h : decode base text = some insns) :
    (insns.map Instruction.address).IsChain (fun a b => b = a + 4) := by
  rw [decode_addresses h, List.isChain_iff_getElem]
  intro i hi
  rw [List.getElem_map, List.getElem_map, List.getElem_range, List.getElem_range, Nat.mul_succ,
    BitVec.ofNat_add, BitVec.add_assoc]
  rfl

theorem decode_nodup (h : decode base text = some insns) (hl : 4 * text.length ≤ 2 ^ 32) :
    (insns.map Instruction.address).Nodup := by
  rw [decode_addresses h]
  refine List.Nodup.map_on ?_ List.nodup_range
  intro i hi j hj hij
  have hi := List.mem_range.mp hi
  have hj := List.mem_range.mp hj
  have h4 := congrArg BitVec.toNat (add_left_cancel hij)
  rw [BitVec.toNat_ofNat, BitVec.toNat_ofNat, Nat.mod_eq_of_lt (by omega),
    Nat.mod_eq_of_lt (by omega)] at h4
  omega

end Controller

section

variable {insns : List Instruction} {e : Entry}

/-- The address of the instruction in the delay slot. -/
def Entry.delayAddress (e : Entry) : Option Word := e.delayed.map Instruction.address

theorem attachDelaySlots_addresses (insns : List Instruction) :
    (attachDelaySlots insns).map (fun e => e.insn.address) = insns.map Instruction.address := by
  fun_induction attachDelaySlots insns with
  | case1 => rfl
  | case2 insn h => rfl
  | case3 insn h d insns ih =>
    rw [List.map_cons, List.map_cons, List.map_cons, List.map_cons, ih]
    rfl
  | case4 insn insns h ih =>
    rw [List.map_cons, List.map_cons, ih]
    rfl

/-- No instruction is attached to two branches. -/
theorem attachDelaySlots_delayed (insns : List Instruction) :
    ((attachDelaySlots insns).filterMap Entry.delayAddress).Sublist
      (insns.map Instruction.address) := by
  fun_induction attachDelaySlots insns with
  | case1 => exact .slnil
  | case2 insn h => exact List.nil_sublist _
  | case3 insn h d insns ih => exact .cons _ (.cons_cons _ ih)
  | case4 insn insns h ih => exact .cons _ ih

theorem mem_attachDelaySlots (h : e ∈ attachDelaySlots insns) :
    (e.insn ∈ insns ∨ e.IsDelaySlotNop) ∧ ∀ d ∈ e.delayed, d ∈ insns := by
  fun_induction attachDelaySlots insns with
  | case1 => cases h
  | case2 insn hb =>
    cases List.mem_singleton.mp h
    exact ⟨.inl (List.mem_singleton_self insn), fun d hd => by cases hd⟩
  | case3 insn hb d insns ih =>
    have hs {i : Instruction} (hi : i ∈ insns) : i ∈ insn :: d :: insns :=
      List.mem_cons_of_mem _ (List.mem_cons_of_mem _ hi)
    rcases List.mem_cons.mp h with rfl | h
    · refine ⟨.inl (List.mem_cons_self ..), fun d' hd => ?_⟩
      cases hd
      exact List.mem_cons_of_mem _ (List.mem_cons_self ..)
    · rcases List.mem_cons.mp h with rfl | h
      · exact ⟨.inr ⟨rfl, rfl⟩, fun d hd => by cases hd⟩
      · exact ⟨(ih h).1.imp_left hs, fun d hd => hs ((ih h).2 d hd)⟩
  | case4 insn insns hb ih =>
    rcases List.mem_cons.mp h with rfl | h
    · exact ⟨.inl (List.mem_cons_self ..), fun d hd => by cases hd⟩
    · exact ⟨(ih h).1.imp_left (List.mem_cons_of_mem _),
        fun d hd => List.mem_cons_of_mem _ ((ih h).2 d hd)⟩

end

theorem Controller.pass0_chain (h : pass0 base text = some array) :
    array.IsChain (fun e f => f.insn.address = e.insn.address + 4) := by
  obtain ⟨insns, hd, rfl⟩ := Option.map_eq_some_iff.mp h
  have hc := decode_chain hd
  rw [← attachDelaySlots_addresses] at hc
  exact (List.isChain_map (fun e : Entry => e.insn.address)).mp hc

theorem Controller.mem_pass0 (h : pass0 base text = some array) (he : e ∈ array) :
    ((∃ word ∈ text, create e.insn.address word = some e.insn) ∨ e.IsDelaySlotNop) ∧
      ∀ d ∈ e.delayed, ∃ word ∈ text, create d.address word = some d := by
  obtain ⟨insns, hd, rfl⟩ := Option.map_eq_some_iff.mp h
  obtain ⟨hi, hm⟩ := mem_attachDelaySlots he
  exact ⟨hi.imp_left (mem_decode hd), fun d h' => mem_decode hd (hm d h')⟩

namespace Entry

/-- What `pass1` may make of a slot. -/
inductive Replaced : Entry → Entry → Prop where
  | kept (e : Entry) : Replaced e e
  | tailCall (e : Entry) (h : e.insn.opcode = .j) : Replaced e
      ⟨InstructionFactory.createTailCallJump e.insn.address e.insn.extra, e.delayed, fun _ => rfl⟩
  | pruned (e : Entry) (h : e.insn.opcode = .sw ∨ e.insn.opcode = .lw) :
    Replaced e (.single (createNop e.insn.address))

theorem Replaced.address (h : Replaced e f) : f.insn.address = e.insn.address := by
  cases h <;> rfl

theorem Replaced.delayAddress (h : Replaced e f) :
    f.delayAddress = e.delayAddress ∨ f.delayAddress = none := by
  cases h with
  | kept => exact .inl rfl
  | tailCall => exact .inl rfl
  | pruned => exact .inr rfl

theorem Replaced.eq (h : Replaced e f) (hj : f.insn.opcode ≠ .jal) (hn : f.insn.opcode ≠ .none) :
    f = e := by
  cases h with
  | kept => rfl
  | tailCall => exact absurd rfl hj
  | pruned => exact absurd rfl hn

theorem filterMap_delayAddress (h : List.Forall₂ Replaced es fs) :
    (fs.filterMap delayAddress).Sublist (es.filterMap delayAddress) := by
  induction h with
  | nil => exact .slnil
  | @cons e f es fs h _ ih =>
    rcases h.delayAddress with hd | hd
    · cases he : e.delayAddress with
      | none => rwa [List.filterMap_cons_none (hd.trans he), List.filterMap_cons_none he]
      | some a =>
        rw [List.filterMap_cons_some (hd.trans he), List.filterMap_cons_some he]
        exact ih.cons_cons a
    · rw [List.filterMap_cons_none hd]
      exact ih.trans ((List.sublist_cons_self e es).filterMap _)

theorem replaceTailCall_replaced (env : Env) (e : Entry) : Replaced e (e.replaceTailCall env) := by
  rw [replaceTailCall]
  split
  · next h => exact .tailCall e h.1
  · exact .kept e

end Entry

theorem BasicBlock.isPruned_opcode {insn : Instruction}
    (h : isPruned env ty before insn = true) :
    insn.opcode = .sw ∨ insn.opcode = .lw := by
  rw [isPruned, Bool.and_eq_true, Bool.and_eq_true, Bool.and_eq_true, Bool.or_eq_true] at h
  rcases h.1.2.1 with h | h
  · exact .inl (eq_of_beq (Bool.and_eq_true .. ▸ h).2)
  · exact .inr (eq_of_beq (Bool.and_eq_true .. ▸ h).2)

theorem BasicBlock.pruneStackStores_replaced {es fs : List Entry}
    (h : List.Forall₂ Entry.Replaced es fs) (before : List Instruction) :
    List.Forall₂ Entry.Replaced es (pruneStackStores env ty before fs) := by
  induction h generalizing before with
  | nil => exact .nil
  | @cons e f es fs h _ ih =>
    rw [pruneStackStores]
    refine .cons ?_ (ih _)
    split
    · next hp =>
      cases h with
      | kept => exact .pruned e (isPruned_opcode hp)
      | tailCall => exact absurd (isPruned_opcode hp) (by exact fun h => h.elim nofun nofun)
      | pruned => exact absurd (isPruned_opcode hp) (by exact fun h => h.elim nofun nofun)
    · exact h

theorem BasicBlock.pass1_replaced (env : Env) (bb : BasicBlock) :
    List.Forall₂ Entry.Replaced bb.insns (bb.pass1 env) := by
  refine pruneStackStores_replaced ?_ []
  rw [List.forall₂_map_right_iff]
  exact List.forall₂_same.mpr fun e _ => e.replaceTailCall_replaced env

theorem Function.pass1_replaced (env : Env) (fn : Function) :
    List.Forall₂ Entry.Replaced fn.entries (fn.pass1 env) := by
  rw [entries, pass1]
  induction fn.bbs with
  | nil => exact .nil
  | cons bb bbs ih => exact List.rel_append (bb.pass1_replaced env) ih

namespace JavaMethod

/-- The slots of the method after `pass1`. -/
def slots (env : Env) (m : JavaMethod) : List Entry := m.functions.flatMap (Function.pass1 env)

/-- Each delay-slot instruction has an address of its own. -/
def OwnDelaySlots (env : Env) (m : JavaMethod) : Prop :=
  ((m.slots env).filterMap Entry.delayAddress).Nodup

/-- The functions of the method are disjoint parts of the instruction array. -/
structure Of (array : List Entry) (m : JavaMethod) : Prop where
  part : ∀ fn ∈ m.functions, fn.entries <:+: array
  disjoint : (m.functions.flatMap Function.entries).Subperm array

theorem slots_replaced (env : Env) (m : JavaMethod) :
    List.Forall₂ Entry.Replaced (m.functions.flatMap Function.entries) (m.slots env) := by
  rw [slots]
  induction m.functions with
  | nil => exact .nil
  | cons fn fns ih => exact List.rel_append (fn.pass1_replaced env) ih

/-- A branch of the method stands in the array as `pass0` has put it there, with its delay slot. -/
theorem Of.branch {m : JavaMethod} {array : List Entry} (hm : m.Of array)
    (hp : Controller.pass0 base text = some array) (hf : fn ∈ m.functions)
    (he : fn.pass1 env = es₁ ++ e :: n :: es) (hb : e.insn.isBranch = true)
    (hj : e.insn.opcode ≠ .jal) (hn : e.insn.opcode ≠ .none) :
    e ∈ array ∧ n.IsDelaySlotNop ∧ ∀ f ∈ es.head?, f.insn.address = e.insn.address + 8 := by
  obtain ⟨insns, hd, rfl⟩ := Option.map_eq_some_iff.mp hp
  have hr := (List.forall₂_drop es₁.length (fn.pass1_replaced env))
  rw [he, List.drop_left] at hr
  have hs : fn.entries.drop es₁.length <:+: attachDelaySlots insns :=
    (List.drop_suffix ..).isInfix.trans (hm.part fn hf)
  generalize fn.entries.drop es₁.length = fs at hr hs
  cases hr with
  | @cons e₀ _ fs _ he₀ hr =>
    cases hr with
    | @cons n₀ _ fs _ hn₀ hr =>
      cases he₀.eq hj hn
      have ha := attachDelaySlots_attached insns
      have hc := Controller.pass0_chain hp
      have hmem := hs.subset (List.mem_cons_self ..)
      obtain ⟨pre, post, hs⟩ := hs
      rw [← hs] at ha hc
      obtain ⟨hnop, -⟩ := List.isChain_cons_cons.mp ha.left_of_append.right_of_append
      obtain ⟨hnext, hc⟩ := List.isChain_cons_cons.mp hc.left_of_append.right_of_append
      obtain ⟨hk, ho⟩ := hnop hb
      refine ⟨hmem, ?_, ?_⟩
      · cases hn₀ with
        | kept => exact ⟨hk, ho⟩
        | tailCall h => exact absurd (ho.symm.trans h) nofun
        | pruned h =>
          rw [ho] at h
          exact absurd h (fun h => h.elim nofun nofun)
      · intro f hf
        cases hr with
        | nil => cases hf
        | @cons f₀ _ fs _ hf₀ hr =>
          cases hf
          rw [hf₀.address, (List.isChain_cons_cons.mp hc).1, hnext, BitVec.add_assoc]
          rfl

theorem Of.ownDelaySlots {m : JavaMethod} {array : List Entry} (hm : m.Of array)
    (hp : Controller.pass0 base text = some array) (hl : 4 * text.length ≤ 2 ^ 32) (env : Env) :
    m.OwnDelaySlots env := by
  obtain ⟨insns, hd, rfl⟩ := Option.map_eq_some_iff.mp hp
  refine (Entry.filterMap_delayAddress (m.slots_replaced env)).nodup ?_
  obtain ⟨es, hperm, hsub⟩ := hm.disjoint
  refine (hperm.filterMap Entry.delayAddress).nodup_iff.mp ?_
  refine (hsub.filterMap Entry.delayAddress).nodup ?_
  exact (attachDelaySlots_delayed insns).nodup (Controller.decode_nodup hd hl)

end JavaMethod

end Cibyl
