import Cibyl.Pass0
import Cibyl.Pass2

namespace Cibyl
set_option autoImplicit true

/-- The part of an array from index `a` up to `b`. -/
def slice (xs : List α) (a b : Nat) : List α := (xs.drop a).take (b - a)

section

variable {xs : List α}

theorem slice_self (xs : List α) (a : Nat) : slice xs a a = [] := by
  rw [slice, Nat.sub_self, List.take_zero]

theorem slice_cons (hab : a < b) (h : xs[a]? = some x) :
    slice xs a b = x :: slice xs (a + 1) b := by
  obtain ⟨hlt, rfl⟩ := List.getElem?_eq_some_iff.mp h
  have hb : b - a = b - (a + 1) + 1 := by omega
  rw [slice, slice, List.drop_eq_getElem_cons hlt, hb, List.take_succ_cons]

theorem slice_append (xs : List α) (hab : a ≤ b) (hbc : b ≤ c) :
    slice xs a b ++ slice xs b c = slice xs a c := by
  rw [slice, slice, slice, ← Nat.sub_add_sub_cancel hbc hab, Nat.add_comm (c - b),
    List.take_add, List.drop_drop, Nat.add_sub_cancel' hab]

theorem slice_ne_nil (hab : a < b) (hb : b ≤ xs.length) : slice xs a b ≠ [] := by
  rw [slice_cons hab (List.getElem?_eq_getElem (by omega))]
  exact List.cons_ne_nil _ _

theorem slice_length (hb : b ≤ xs.length) : (slice xs a b).length = b - a := by
  rw [slice, List.length_take, List.length_drop]
  omega

end

/-- The instructions `first .. last - 1` a basic block is made of. -/
structure BbRange where
  type : BbType
  first : Nat
  last : Nat
  deriving DecidableEq, Repr

namespace BbRange

/-- The `BasicBlock` constructor. -/
def block (insns : List Entry) (r : BbRange) : BasicBlock := ⟨r.type, slice insns r.first r.last⟩

/-- One range begins where the one before it ends. -/
def Consecutive : Nat → Nat → List BbRange → Prop
  | a, b, [] => a = b
  | a, b, r :: rs => r.first = a ∧ a < r.last ∧ Consecutive r.last b rs

end BbRange

/-- The loop of the `Function` constructor over the instruction array: `first` and `last` count
from `first_insn`, `i` is an index of the array. No branch targets are known at this time. -/
def blockRanges (insns : List Entry) (address : Word) (first_insn last_insn i first last : Nat)
    (type : BbType) : List BbRange :=
  if h : i < last_insn ∧ i < insns.length then
    let e := insns.get ⟨i, h.2⟩
    let last := last + 1
    let type := if e.insn.isReturnJump then .epilogue else type
    if e.insn.isBranch && e.insn.address != address then
      if e.insn.hasDelaySlot && i + 1 < last_insn then
        (if last + 1 ≠ first then [⟨type, first_insn + first, first_insn + (last + 1)⟩] else []) ++
          blockRanges insns address first_insn last_insn (i + 2) (last + 1) (last + 1) .normal
      else
        (if last ≠ first then [⟨type, first_insn + first, first_insn + last⟩] else []) ++
          blockRanges insns address first_insn last_insn (i + 1) last last .normal
    else blockRanges insns address first_insn last_insn (i + 1) first last type
  else if last ≠ first then [⟨.normal, first_insn + first, last_insn⟩]
  else []
termination_by last_insn - i

section

variable {insns : List Entry} {address : Word} {first_insn last_insn i first last : Nat}
  {type : BbType}

theorem slice_snoc (hab : a ≤ b) (h : insns[b]? = some e) :
    slice insns a (b + 1) = slice insns a b ++ [e] := by
  rw [← slice_append insns hab (Nat.le_succ b), slice_cons (Nat.lt_succ_self b) h, slice_self]

theorem blockRanges_end (h : last_insn ≤ i) :
    blockRanges insns address first_insn last_insn i first last type =
      if last ≠ first then [⟨.normal, first_insn + first, last_insn⟩] else [] := by
  rw [blockRanges, dif_neg (fun h' => Nat.not_lt.mpr h h'.1)]

theorem blockRanges_branch (h : i + 1 < last_insn) (he : insns[i]? = some e)
    (hb : (e.insn.isBranch && e.insn.address != address) = true) (hf : first ≤ last) :
    blockRanges insns address first_insn last_insn i first last type =
      ⟨if e.insn.isReturnJump then .epilogue else type, first_insn + first,
        first_insn + (last + 2)⟩ ::
        blockRanges insns address first_insn last_insn (i + 2) (last + 2) (last + 2) .normal := by
  obtain ⟨hlt, rfl⟩ := List.getElem?_eq_some_iff.mp he
  have hd : insns[i].insn.hasDelaySlot = true := (Bool.and_eq_true .. ▸ hb).1
  rw [blockRanges, dif_pos ⟨Nat.lt_of_succ_lt h, hlt⟩]
  simp only [List.get_eq_getElem, hb, hd, decide_eq_true h, Bool.and_self, if_true]
  rw [if_pos (by omega)]
  rfl

theorem blockRanges_branch_last (h : i + 1 = last_insn) (he : insns[i]? = some e)
    (hb : (e.insn.isBranch && e.insn.address != address) = true) (hf : first ≤ last) :
    blockRanges insns address first_insn last_insn i first last type =
      [⟨if e.insn.isReturnJump then .epilogue else type, first_insn + first,
        first_insn + (last + 1)⟩] := by
  obtain ⟨hlt, rfl⟩ := List.getElem?_eq_some_iff.mp he
  have hd : ¬ i + 1 < last_insn := by omega
  rw [blockRanges, dif_pos ⟨by omega, hlt⟩]
  simp only [List.get_eq_getElem, hb, decide_eq_false hd, Bool.and_false, Bool.false_eq_true,
    if_true, if_false]
  rw [if_pos (by omega), blockRanges_end (Nat.le_of_eq h.symm), if_neg (not_not.mpr rfl)]
  rfl

theorem blockRanges_next (h : i < last_insn) (he : insns[i]? = some e)
    (hb : (e.insn.isBranch && e.insn.address != address) = false) :
    blockRanges insns address first_insn last_insn i first last type =
      blockRanges insns address first_insn last_insn (i + 1) first (last + 1)
        (if e.insn.isReturnJump then .epilogue else type) := by
  obtain ⟨hlt, rfl⟩ := List.getElem?_eq_some_iff.mp he
  rw [blockRanges, dif_pos ⟨h, hlt⟩]
  simp only [List.get_eq_getElem, hb, Bool.false_eq_true, if_false]

theorem splitBlocks_next (hb : (e.insn.isBranch && e.insn.address != address) = false)
    {cur es : List Entry} : splitBlocks address type cur (e :: es) =
      splitBlocks address (if e.insn.isReturnJump then .epilogue else type) (cur ++ [e]) es := by
  rw [splitBlocks.eq_def]
  exact if_neg (by rw [hb]; exact Bool.false_ne_true)

/-- The ranges follow each other, and the blocks made of them are those of `splitBlocks`. -/
theorem blockRanges_spec (address : Word) (hn : last_insn ≤ insns.length) (i first last : Nat)
    (type : BbType)
    (hi : i = first_insn + last) (hle : i ≤ last_insn) (hf : first ≤ last) :
    BbRange.Consecutive (first_insn + first) last_insn
        (blockRanges insns address first_insn last_insn i first last type) ∧
      (blockRanges insns address first_insn last_insn i first last type).map
          (BbRange.block insns) =
        splitBlocks address type (slice insns (first_insn + first) i)
          (slice insns i last_insn) := by
  generalize hk : last_insn - i = k
  induction k using Nat.strongRecOn generalizing i first last type with
  | ind k ih =>
    rcases Nat.lt_or_ge i last_insn with hlt | hge
    · have he : insns[i]? = some insns[i] := List.getElem?_eq_getElem _
      generalize insns[i] = e at he
      have hcur : slice insns (first_insn + first) (i + 1) =
          slice insns (first_insn + first) i ++ [e] := slice_snoc (by omega) he
      rw [slice_cons hlt he]
      cases hb : e.insn.isBranch && e.insn.address != address with
      | true =>
        rcases Nat.lt_or_ge (i + 1) last_insn with hd | hd
        · have hd' : insns[i + 1]? = some insns[i + 1] := List.getElem?_eq_getElem _
          generalize insns[i + 1] = d at hd'
          have hcur' : slice insns (first_insn + first) (i + 2) =
              slice insns (first_insn + first) i ++ [e, d] := by
            rw [slice_snoc (by omega) hd', hcur, List.append_assoc]
            rfl
          obtain ⟨hc, hm⟩ := ih (last_insn - (i + 2)) (by omega) (i + 2) (last + 2) (last + 2)
            .normal (by omega) (by omega) (Nat.le_refl _) rfl
          have hend : first_insn + (last + 2) = i + 2 := by omega
          rw [blockRanges_branch hd he hb hf, slice_cons hd hd', splitBlocks, if_pos hb, ← hcur',
            List.map_cons, hm, hend, slice_self]
          exact ⟨⟨rfl, by dsimp only; omega, hend ▸ hc⟩, rfl⟩
        · have hend : first_insn + (last + 1) = i + 1 := by omega
          have hlast : i + 1 = last_insn := by omega
          rw [blockRanges_branch_last hlast he hb hf, hlast, slice_self, splitBlocks, if_pos hb,
            ← hcur, hend]
          exact ⟨⟨rfl, by dsimp only; omega, hlast⟩, rfl⟩
      | false =>
        obtain ⟨hc, hm⟩ := ih (last_insn - (i + 1)) (by omega) (i + 1) first (last + 1)
          (if e.insn.isReturnJump then .epilogue else type) (by omega) (by omega) (by omega) rfl
        rw [blockRanges_next hlt he hb]
        refine ⟨hc, hm.trans ?_⟩
        rw [hcur, splitBlocks_next hb]
    · have he : i = last_insn := Nat.le_antisymm hle hge
      subst he
      rw [blockRanges_end (Nat.le_refl _), slice_self]
      by_cases h : last = first
      · subst h
        rw [if_neg (not_not.mpr rfl), hi]
        refine ⟨rfl, ?_⟩
        rw [slice_self]
        rfl
      · rw [if_pos h, splitBlocks]
        refine ⟨⟨rfl, by dsimp only; omega, rfl⟩, ?_⟩
        rw [if_neg]
        · rfl
        · intro hnil
          exact slice_ne_nil (by omega) hn (List.isEmpty_iff.mp hnil)

end

theorem Attached.slice (h : Attached es) (a b : Nat) : Attached (slice es a b) :=
  (List.IsChain.drop h a).take (b - a)

namespace Function

/-- The function of a symbol: `last_insn` is its last word, which the constructor leaves out. -/
def ofSymbol (realName : String) (isStart : Bool) (insns : List Entry) (ha : Attached insns)
    (first_insn last_insn : Nat) : Option Function :=
  match h : slice insns first_insn last_insn with
  | [] => none
  | e :: es =>
    some (Function.create realName isStart e es (h ▸ ha.slice first_insn last_insn))

theorem ofSymbol_eq {n : String} {start : Bool} {ha : Attached insns}
    (h : ofSymbol n start insns ha a b = some fn) :
    ∃ e es, slice insns a b = e :: es ∧ fn.address = e.insn.address ∧
      fn.bbs = splitBlocks e.insn.address .prologue [] (slice insns a b) := by
  rw [ofSymbol] at h
  split at h
  · cases h
  · next e es hs =>
    cases h
    exact ⟨e, es, hs, rfl, congrArg (splitBlocks _ _ _) hs.symm⟩

end Function

/-- The blocks take up the slots of a function one after the other. -/
theorem consecutive_flatMap {rs : List BbRange} (insns : List Entry)
    (h : BbRange.Consecutive a b rs) :
    a ≤ b ∧ (rs.map (BbRange.block insns)).flatMap BasicBlock.insns = slice insns a b := by
  induction rs generalizing a with
  | nil =>
    cases h
    exact ⟨Nat.le_refl _, (slice_self insns _).symm⟩
  | cons r rs ih =>
    obtain ⟨rfl, hlt, hr⟩ := h
    obtain ⟨hle, hs⟩ := ih hr
    refine ⟨by omega, ?_⟩
    rw [List.map_cons, List.flatMap_cons, hs]
    exact slice_append insns (Nat.le_of_lt hlt) hle

/-- The instructions that `pass2` of a slot emits: its own and the one in the delay slot. -/
def Entry.emitted (e : Entry) : List Instruction :=
  e.insns.filter (fun insn => insn.kind != .delaySlotNop)

section

variable {insns : List Instruction}

theorem attachDelaySlots_next {insn : Instruction} (h : ¬ insn.hasDelaySlot = true) :
    attachDelaySlots (insn :: insns) = .single insn :: attachDelaySlots insns := by
  rw [attachDelaySlots.eq_def]
  exact dif_neg h

/-- Behind any point of the array the slots are those of the instructions there, but for the nop
of a delay slot whose branch lies before it. -/
theorem drop_attachDelaySlots (insns : List Instruction) (a : Nat) :
    (attachDelaySlots insns).drop a = attachDelaySlots (insns.drop a) ∨
      ∃ d, (attachDelaySlots insns).drop a =
        .single (InstructionFactory.createDelaySlotNop d) ::
          attachDelaySlots (insns.drop (a + 1)) := by
  fun_induction attachDelaySlots insns generalizing a with
  | case1 =>
    left
    rw [List.drop_nil, List.drop_nil]
    rfl
  | case2 insn h =>
    left
    cases a with
    | zero =>
      rw [List.drop_zero, List.drop_zero, attachDelaySlots, dif_pos h]
    | succ a =>
      rw [List.drop_succ_cons, List.drop_succ_cons, List.drop_nil, List.drop_nil]
      rfl
  | case3 insn h d insns ih =>
    rcases a with _ | _ | a
    · left
      rw [List.drop_zero, List.drop_zero, attachDelaySlots, dif_pos h]
    · exact .inr ⟨d.address, rfl⟩
    · exact ih a
  | case4 insn insns h ih =>
    cases a with
    | zero =>
      left
      rw [List.drop_zero, List.drop_zero, attachDelaySlots_next h]
    | succ a => exact ih a

theorem emitted_single {insn : Instruction} (h : insn.kind ≠ .delaySlotNop) :
    (Entry.single insn).emitted = [insn] := by
  rw [Entry.emitted, Entry.insns, Entry.single]
  simp [h]

/-- The slots up to a branch emit the instructions up to its delay slot. -/
theorem emitted_take (hk : ∀ i ∈ insns, i.kind ≠ .delaySlotNop)
    (he : (attachDelaySlots insns)[n]? = some e) (hd : e.delayed.isSome = true) :
    ((attachDelaySlots insns).take (n + 1)).flatMap Entry.emitted = insns.take (n + 2) := by
  fun_induction attachDelaySlots insns generalizing n with
  | case1 => cases he
  | case2 insn h =>
    cases n with
    | zero =>
      cases he
      cases hd
    | succ n => cases he
  | case3 insn h d insns ih =>
    have hi : insn.kind ≠ .delaySlotNop := hk _ (List.mem_cons_self ..)
    have hd' : d.kind ≠ .delaySlotNop := hk _ (List.mem_cons_of_mem _ (List.mem_cons_self ..))
    have hem : Entry.emitted ⟨insn, some d, fun _ => h⟩ = [insn, d] := by
      rw [Entry.emitted, Entry.insns]
      simp [hi, hd']
    rcases n with _ | _ | n
    · rw [List.take_succ_cons, List.take_zero, List.flatMap_cons, hem]
      rfl
    · cases he
      cases hd
    · have hih := ih (fun i hi => hk i (List.mem_cons_of_mem _ (List.mem_cons_of_mem _ hi))) he
      rw [List.take_succ_cons, List.take_succ_cons, List.flatMap_cons, List.flatMap_cons, hem, hih]
      rfl
  | case4 insn insns h ih =>
    cases n with
    | zero =>
      cases he
      cases hd
    | succ n =>
      have hih := ih (fun i hi => hk i (List.mem_cons_of_mem _ hi)) he
      rw [List.take_succ_cons, List.flatMap_cons, hih,
        emitted_single (hk _ (List.mem_cons_self ..))]
      rfl

/-- The first instruction that the slots from `a` on emit. -/
def firstEmitted (slots : List Entry) (a : Nat) : Nat :=
  if (slots[a]?).any (fun e => e.insn.kind == .delaySlotNop) then a + 1 else a

theorem attachDelaySlots_head {f : Entry} (h : (attachDelaySlots insns)[0]? = some f) :
    f.insn ∈ insns := by
  fun_cases attachDelaySlots insns with
  | case1 => cases h
  | case2 insn hb =>
    rw [attachDelaySlots, dif_pos hb] at h
    cases h
    exact List.mem_cons_self ..
  | case3 insn hb d insns =>
    rw [attachDelaySlots, dif_pos hb] at h
    cases h
    exact List.mem_cons_self ..
  | case4 insn insns hb =>
    rw [attachDelaySlots_next hb] at h
    cases h
    exact List.mem_cons_self ..

theorem emitted_slice (hk : ∀ i ∈ insns, i.kind ≠ .delaySlotNop) (hab : a < b)
    (he : (attachDelaySlots insns)[b - 1]? = some e) (hd : e.delayed.isSome = true) :
    (slice (attachDelaySlots insns) a b).flatMap Entry.emitted =
      slice insns (firstEmitted (attachDelaySlots insns) a) (b + 1) := by
  have hkd (k : Nat) : ∀ i ∈ insns.drop k, i.kind ≠ .delaySlotNop :=
    fun i hi => hk i (List.mem_of_mem_drop hi)
  have hidx : (attachDelaySlots insns)[b - 1]? = ((attachDelaySlots insns).drop a)[b - 1 - a]? := by
    rw [List.getElem?_drop, Nat.add_sub_cancel' (by omega)]
  have hhead : (attachDelaySlots insns)[a]? = ((attachDelaySlots insns).drop a)[0]? := by
    rw [List.getElem?_drop, Nat.add_zero]
  rw [hidx] at he
  rw [slice, slice]
  rcases drop_attachDelaySlots insns a with h | ⟨d, h⟩
  · have hfirst : firstEmitted (attachDelaySlots insns) a = a := by
      rw [firstEmitted, hhead, h, if_neg]
      intro hnop
      obtain ⟨f, hf, hf'⟩ := (Option.any_eq_true _ _).mp hnop
      exact hkd a _ (attachDelaySlots_head hf) (eq_of_beq hf')
    have hlen : b - a = b - 1 - a + 1 := by omega
    have hlen' : b + 1 - a = b - 1 - a + 2 := by omega
    rw [h] at he ⊢
    rw [hfirst, hlen, hlen']
    exact emitted_take (hkd a) he hd
  · have hfirst : firstEmitted (attachDelaySlots insns) a = a + 1 := by
      rw [firstEmitted, hhead, h]
      rfl
    rw [h] at he ⊢
    rw [hfirst]
    rcases Nat.lt_or_ge (a + 1) b with hlt | hge
    · have hlen : b - a = b - 1 - (a + 1) + 1 + 1 := by omega
      have hlen' : b + 1 - (a + 1) = b - 1 - (a + 1) + 2 := by omega
      have hidx' : b - 1 - a = b - 1 - (a + 1) + 1 := by omega
      rw [hidx', List.getElem?_cons_succ] at he
      rw [hlen, hlen', List.take_succ_cons, List.flatMap_cons, emitted_take (hkd (a + 1)) he hd]
      rfl
    · have hb : b - 1 - a = 0 := by omega
      rw [hb] at he
      cases he
      cases hd

end

theorem Controller.pass0_attached (hp : Controller.pass0 base text = some array) :
    Attached array := by
  obtain ⟨insns, -, rfl⟩ := Option.map_eq_some_iff.mp hp
  exact attachDelaySlots_attached insns

namespace Entry

/-- `pass1` keeps the addresses of what a slot emits. -/
theorem Replaced.emitted (h : Replaced e f)
    (hk : e.insn.opcode ≠ .none → e.insn.kind ≠ .delaySlotNop)
    (hd : e.insn.opcode = .sw ∨ e.insn.opcode = .lw → e.delayed = none) :
    f.emitted.map Instruction.address = e.emitted.map Instruction.address := by
  cases h with
  | kept => rfl
  | tailCall h =>
    have hne := hk (by rw [h]; exact Opcode.noConfusion)
    rw [Entry.emitted, Entry.emitted, insns, insns, List.filter_cons_of_pos (by rfl),
      List.filter_cons_of_pos (by simpa using hne)]
    rfl
  | pruned h =>
    have hne := hk (by rcases h with h | h <;> rw [h] <;> exact Opcode.noConfusion)
    rw [Entry.emitted, Entry.emitted, insns, insns, hd h, List.filter_cons_of_pos (by rfl),
      List.filter_cons_of_pos (by simpa using hne)]
    rfl

theorem flatMap_emitted (h : List.Forall₂ Replaced es fs)
    (hk : ∀ e ∈ es, (e.insn.opcode ≠ .none → e.insn.kind ≠ .delaySlotNop) ∧
      (e.insn.opcode = .sw ∨ e.insn.opcode = .lw → e.delayed = none)) :
    (fs.flatMap emitted).map Instruction.address =
    (es.flatMap emitted).map Instruction.address := by
  induction h with
  | nil => rfl
  | @cons e f es fs h _ ih =>
    obtain ⟨h₁, h₂⟩ := hk e (List.mem_cons_self ..)
    rw [List.flatMap_cons, List.flatMap_cons, List.map_append, List.map_append, h.emitted h₁ h₂,
      ih (fun e he => hk e (List.mem_cons_of_mem _ he))]

end Entry

/-- The code of a branch runs the emission of its delay slot once, whatever that emits. -/
theorem Instruction.pass2_branch (env : Env) {insn : Instruction} (hb : insn.isBranch = true) :
    ∃ before after : Emission, ∀ delayed, insn.pass2 env delayed =
      before.seq (delayed.seq after) := by
  have hn (after : Emission) : ∃ before after' : Emission, ∀ delayed : Emission,
      delayed.seq after = before.seq (delayed.seq after') :=
    ⟨.nothing, after, fun _ => rfl⟩
  obtain ⟨kind, address, opcode, rs, rt, rd, extra⟩ := insn
  cases kind <;> simp only [pass2]
  case jump | jal | jalReturn => exact hn _
  case jr =>
    split
    · exact hn _
    · exact ⟨_, _, fun _ => rfl⟩
  case jalr | oneRegisterConditionalJump | twoRegisterConditionalJump =>
    exact ⟨_, _, fun _ => rfl⟩
  all_goals cases hb

theorem create_not_branch (hc : InstructionFactory.create address word = some insn)
    (ho : insn.opcode = .sw ∨ insn.opcode = .lw) : insn.isBranch = false := by
  have hne (op : Opcode) (h : op ≠ .sw) (h' : op ≠ .lw) : insn.opcode ≠ op := by
    rintro rfl
    exact ho.elim h h'
  obtain ⟨-, h⟩ := create_ofOpcode hc (hne _ Opcode.noConfusion Opcode.noConfusion)
    (hne _ Opcode.noConfusion Opcode.noConfusion) (hne _ Opcode.noConfusion Opcode.noConfusion)
  rcases ho with ho | ho <;>
  · rw [ho] at h
    cases h
    rfl

/-- Only a created instruction has an opcode, and stores and loads have no delay slot. -/
theorem Controller.pass0_slot (hp : Controller.pass0 base text = some array) (he : e ∈ array) :
    (e.insn.opcode ≠ .none → e.insn.kind ≠ .delaySlotNop) ∧
      (e.insn.opcode = .sw ∨ e.insn.opcode = .lw → e.delayed = none) := by
  rcases (mem_pass0 hp he).1 with ⟨word, -, hc⟩ | ⟨-, ho⟩
  · refine ⟨fun _ => create_not_delaySlotNop hc, fun h => ?_⟩
    have hb := create_not_branch hc h
    cases hd : e.delayed with
    | none => rfl
    | some d =>
      have hs := e.attached (by rw [hd]; rfl)
      rw [Instruction.hasDelaySlot, hb] at hs
      cases hs
  · refine ⟨fun h => absurd ho h, fun h => ?_⟩
    rw [ho] at h
    exact absurd h (fun h => h.elim Opcode.noConfusion Opcode.noConfusion)

theorem Function.size_eq (fn : Function) : fn.size = 4 * fn.entries.length := by
  rw [size, entries]
  induction fn.bbs with
  | nil => rfl
  | cons bb bbs ih =>
    rw [List.map_cons, List.sum_cons, ih, List.flatMap_cons, List.length_append, Nat.mul_add,
      BasicBlock.size, Nat.mul_comm]

/-- An address of the text section lies in the range of a function iff it is one of its own
words, the last delay slot included. -/
theorem Function.covers_iff {fn : Function} (ha : fn.address = base + BitVec.ofNat 32 (4 * a))
    (hs : fn.entries.length = b - a) (hab : a ≤ b) (hw : base.toNat + 4 * n ≤ 2 ^ 32) (hb : b < n)
    (hi : i < n) : fn.covers (base + BitVec.ofNat 32 (4 * i)) = true ↔ a ≤ i ∧ i ≤ b := by
  have hn {j : Nat} (hj : j < n) : (base + BitVec.ofNat 32 (4 * j)).toNat = base.toNat + 4 * j := by
    rw [BitVec.toNat_add, BitVec.toNat_ofNat]
    omega
  rw [covers, Bool.and_eq_true, decide_eq_true_iff, decide_eq_true_iff, ha, hn hi,
    hn (Nat.lt_of_le_of_lt hab hb), size_eq, hs]
  omega

/-- Two functions `jr $ra` with their delay slots. -/
def twoReturns : List Word := [0x03e00008, 0, 0x03e00008, 0]

end Cibyl
