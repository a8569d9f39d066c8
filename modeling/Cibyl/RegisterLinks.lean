import Cibyl.Library.LastMatch
import Cibyl.RegisterWrites

namespace Cibyl
set_option autoImplicit true

/-- `mips_register_type_t`. -/
inductive RegisterType where
  | rs | rt | rd
  deriving DecidableEq, Repr

/-- The table has an entry after `addToRegisterUsage` for each of `regs`, which leaves out zero. -/
def filledIn (regs : List Reg) (reg : Reg) : Bool := reg != Reg.zero && regs.contains reg

namespace Instruction

def getRegister (insn : Instruction) : RegisterType → Reg
  | .rs => insn.rs
  | .rt => insn.rt
  | .rd => insn.rd

/-- `uses[reg]` in `fillInstructionReadsAndWrites`. -/
def uses (env : Env) (insn : Instruction) (reg : Reg) : Bool :=
  filledIn (insn.fillDestinations env ++ insn.fillSources env) reg

/-- A destination that one of the fields names. -/
def namesDestination (env : Env) (insn : Instruction) (reg : Reg) : Bool :=
  (reg == insn.rs || reg == insn.rt || reg == insn.rd) && filledIn (insn.fillDestinations env) reg

/-- The registers that the instruction writes: `mthi` and `mtlo` count another one. -/
def writes (env : Env) (insn : Instruction) : List Reg :=
  match insn.kind with
  | .mtxx dst => [dst]
  | _ => insn.fillDestinations env

/-- The code of an instruction changes no register that it does not write. -/
theorem code_writes (env : Env) (insn : Instruction) :
    Bc.Sets (· ∈ insn.writes env) (insn.code env) := by
  refine (code_changes env insn).mono fun r hr => ?_
  cases hk : insn.kind <;> simp only [changes, hk] at hr <;>
    simp only [writes, fillDestinations, hk]
  case loadXX | lw | partialLoad =>
    split
    · exact List.mem_cons.mpr (.inl (List.mem_singleton.mp hr))
    · exact hr
  case mulDiv | mult | div | syscallInsn => simpa only [fillDestinations, hk] using hr
  all_goals first | exact hr | cases hr

theorem jalCode_writes (env : Env) {insn : Instruction} (hk : insn.isCall = true)
    (st : MethodState) : Bc.Sets (· ∈ insn.writes env) (insn.jalCode env st).1 := by
  have hw : insn.writes env = insn.fillDestinations env := by
    rw [writes]
    split
    · next hd =>
      rw [isCall, hd] at hk
      cases hk
    · rfl
  rw [hw]
  exact jalCode_changes env hk st

end Instruction

/-- A slot of a basic block with the prefix of its instruction. -/
structure BlockSlot extends Entry where
  prefixInsn : Option Instruction
  deriving DecidableEq, Repr

/-- Which of the instructions of a slot. -/
inductive NodePart where
  | prefixInsn | insn | delayed
  deriving DecidableEq, Repr

/-- An instruction object of a basic block. -/
structure Node where
  slot : Nat
  part : NodePart
  insn : Instruction
  deriving DecidableEq, Repr

namespace BlockSlot

/-- The instructions in the order of the tables. -/
def nodes (i : Nat) (s : BlockSlot) : List Node :=
  s.prefixInsn.toList.map (Node.mk i .prefixInsn) ++
    ⟨i, .insn, s.insn⟩ :: s.delayed.toList.map (Node.mk i .delayed)

/-- The new instruction gets the delay slot and no prefix. -/
def replaceTailCall (env : Env) (s : BlockSlot) : BlockSlot :=
  if s.insn.opcode = .j ∧
      env.getMethodByAddress s.insn.address ≠ env.getMethodByAddress (s.insn.extra <<< 2) then
    ⟨s.toEntry.replaceTailCall env, none⟩
  else s

/-- What pruning leaves of a slot. -/
def pruned (s : BlockSlot) : BlockSlot :=
  ⟨.single (InstructionFactory.createNop s.insn.address), none⟩

end BlockSlot

/-- The instructions of the slots from number `i` on. -/
def nodesFrom (i : Nat) : List BlockSlot → List Node
  | [] => []
  | s :: ss => s.nodes i ++ nodesFrom (i + 1) ss

/-- `read_table` and `write_table`. -/
structure Tables where
  read : Reg → Option Node
  write : Reg → Option Node

/-- `prev_register_reads` and the other arrays of the instructions. -/
structure Links where
  prevReads : Node → RegisterType → Option Node
  prevWrites : Node → RegisterType → Option Node
  nextReads : Node → RegisterType → Option Node
  nextWrites : Node → RegisterType → Option Node

def Tables.empty : Tables := ⟨fun _ => none, fun _ => none⟩

def Links.empty : Links := ⟨fun _ _ => none, fun _ _ => none, fun _ _ => none, fun _ _ => none⟩

/-- `table[which] = insn` for the instruction `n`. -/
def setPrevNextRegisterGeneric (table : Node → RegisterType → Option Node) (n : Node)
    (which : RegisterType) (insn : Option Node) : Node → RegisterType → Option Node :=
  fun m w => if m = n ∧ w = which then insn else table m w

namespace Links

def setPrevRegisterReadAndWrite (l : Links) (n : Node) (rinsn winsn : Option Node)
    (which : RegisterType) : Links :=
  { l with
    prevReads := setPrevNextRegisterGeneric l.prevReads n which rinsn
    prevWrites := setPrevNextRegisterGeneric l.prevWrites n which winsn }

def setNextRegisterReadAndWrite (l : Links) (n : Node) (rinsn winsn : Option Node)
    (which : RegisterType) : Links :=
  { l with
    nextReads := setPrevNextRegisterGeneric l.nextReads n which rinsn
    nextWrites := setPrevNextRegisterGeneric l.nextWrites n which winsn }

end Links

namespace BasicBlock

/-- The body of the loop over the fields in `fillInstructionReadsAndWrites`. -/
def linkField (env : Env) (before : Bool) (t : Tables) (n : Node) (l : Links)
    (which : RegisterType) : Links :=
  let reg := n.insn.getRegister which
  if n.insn.uses env reg then
    if before then l.setPrevRegisterReadAndWrite n (t.read reg) (t.write reg) which
    else l.setNextRegisterReadAndWrite n (t.read reg) (t.write reg) which
  else l

def fillInstructionReadsAndWrites (env : Env) (before : Bool) (t : Tables) (n : Node) (l : Links) :
    Links :=
  [.rs, .rt, .rd].foldl (linkField env before t n) l

/-- `table[reg] = insn` for a field that names a register of `regs`. -/
def enterField (regs : List Reg) (n : Node) (table : Reg → Option Node) (which : RegisterType) :
    Reg → Option Node :=
  let reg := n.insn.getRegister which
  if filledIn regs reg then fun r => if r = reg then some n else table r else table

/-- The three tests of `fillWriteTable` and `fillReadTable`. -/
def fillTable (regs : List Reg) (table : Reg → Option Node) (n : Node) : Reg → Option Node :=
  [.rs, .rt, .rd].foldl (enterField regs n) table

def fillWriteTable (env : Env) (table : Reg → Option Node) (n : Node) : Reg → Option Node :=
  fillTable (n.insn.fillDestinations env) table n

def fillReadTable (env : Env) (table : Reg → Option Node) (n : Node) : Reg → Option Node :=
  fillTable (n.insn.fillSources env) table n

/-- First update the instruction and then the tables. -/
def handleTables (env : Env) (before : Bool) (x : Tables × Links) (n : Node) : Tables × Links :=
  (⟨fillReadTable env x.1.read n, fillWriteTable env x.1.write n⟩,
    fillInstructionReadsAndWrites env before x.1 n x.2)

/-- The instructions in the order of the second loop, which takes the slots in reverse. -/
def nodesBackFrom (i : Nat) : List BlockSlot → List Node
  | [] => []
  | s :: ss => nodesBackFrom (i + 1) ss ++ s.nodes i

/-- The links after the two loops over the slots. -/
def fillTables (env : Env) (slots : List BlockSlot) : Links :=
  let l := ((nodesFrom 0 slots).foldl (handleTables env true) (.empty, .empty)).2
  ((nodesBackFrom 0 slots).foldl (handleTables env false) (.empty, l)).2

/-- The test of the third loop, where `written` says whether the field `rt` has a previous write. -/
def prunes (env : Env) (type : BbType) (written : Bool) (insn : Instruction) : Bool :=
  env.config.optimizePruneStackStores &&
    ((type == .prologue && insn.opcode == .sw || type == .epilogue && insn.opcode == .lw) &&
      insn.rs == Reg.sp) &&
    mipsCallerSaved.any (fun reg =>
      (type == .prologue && filledIn (insn.fillSources env) reg && !written) ||
        (type == .epilogue && filledIn (insn.fillDestinations env) reg))

/-- The third loop. -/
def pruneSlots (env : Env) (type : BbType) (l : Links) : Nat → List BlockSlot → List BlockSlot
  | _, [] => []
  | i, s :: ss =>
    (if prunes env type (l.prevWrites ⟨i, .insn, s.insn⟩ .rt).isSome s.insn then s.pruned else s) ::
      pruneSlots env type l (i + 1) ss

/-- A basic block after `pass1`, with the links of its instructions. -/
structure Linked where
  slots : List BlockSlot
  links : Links

def linkedPass1 (env : Env) (type : BbType) (slots : List BlockSlot) : Linked :=
  let slots := slots.map (BlockSlot.replaceTailCall env)
  let links := fillTables env slots
  ⟨pruneSlots env type links 0 slots, links⟩

namespace Linked

def nodes (b : Linked) : List Node := nodesFrom 0 b.slots

def getPrevRegisterWrite (b : Linked) (n : Node) (which : RegisterType) : Option Node :=
  b.links.prevWrites n which

end Linked

/-- The slots that pruning leaves out, from number `i` on behind `before`: it needs to know whether
an earlier instruction names the register that a store puts away. -/
def leftOut (env : Env) (type : BbType) (before : List Node) (i : Nat) : List BlockSlot → List Nat
  | [] => []
  | s :: ss =>
    let earlier := before ++ s.prefixInsn.toList.map (Node.mk i .prefixInsn)
    let written := s.insn.uses env s.insn.rt &&
      earlier.any (fun m => m.insn.namesDestination env s.insn.rt)
    (if prunes env type written s.insn then [i] else []) ++
      leftOut env type (before ++ s.nodes i) (i + 1) ss

/-- The instruction stays in the block and writes the register. -/
def writesIn (env : Env) (out : List Nat) (reg : Reg) (m : Node) : Bool :=
  (m.insn.writes env).contains reg && !out.contains m.slot

/-- Before an instruction uses a register, each one that writes it without naming it, or that names
it and does not write it in the block, is followed by one that names it and writes it. -/
def WritesNamed (env : Env) (type : BbType) (slots : List BlockSlot) : Prop :=
  let slots := slots.map (BlockSlot.replaceTailCall env)
  let out := leftOut env type [] 0 slots
  ∀ pre n post, nodesFrom 0 slots = pre ++ n :: post → n.slot ∉ out → ∀ which,
    let reg := n.insn.getRegister which
    n.insn.uses env reg = true → ∀ as m bs, pre = as ++ m :: bs →
      m.insn.namesDestination env reg ≠ writesIn env out reg m →
      ∃ k ∈ bs, k.insn.namesDestination env reg = true ∧ writesIn env out reg k = true

/-- Each register that a field of an instruction uses is linked to the last earlier write of it. -/
def LinksExact (env : Env) (type : BbType) (slots : List BlockSlot) : Prop :=
  let b := linkedPass1 env type slots
  ∀ pre n post, b.nodes = pre ++ n :: post → ∀ which,
    n.insn.uses env (n.insn.getRegister which) = true →
      b.getPrevRegisterWrite n which =
        lastMatch (fun m => (m.insn.writes env).contains (n.insn.getRegister which)) pre

section

variable {env : Env} {before : Bool} {t : Tables} {n m : Node} {l : Links}

theorem enterField_eq (regs : List Reg) (n : Node) (table : Reg → Option Node)
    (which : RegisterType) (r : Reg) : enterField regs n table which r =
      if r = n.insn.getRegister which ∧ filledIn regs r = true then some n else table r := by
  by_cases hr : r = n.insn.getRegister which
  · subst hr
    by_cases hf : filledIn regs (n.insn.getRegister which) = true
    · exact (congrFun (if_pos hf) _).trans ((if_pos rfl).trans (if_pos ⟨rfl, hf⟩).symm)
    · exact (congrFun (if_neg hf) _).trans (if_neg fun h => hf h.2).symm
  · refine Eq.trans ?_ (if_neg fun h => hr h.1).symm
    rw [enterField]
    split
    · exact if_neg hr
    · rfl

theorem fillTable_eq (regs : List Reg) (table : Reg → Option Node) (n : Node) (r : Reg) :
    fillTable regs table n r =
      if (r == n.insn.rs || r == n.insn.rt || r == n.insn.rd) && filledIn regs r then some n
      else table r := by
  simp only [fillTable, List.foldl_cons, List.foldl_nil, enterField_eq, Instruction.getRegister,
    Bool.and_eq_true, Bool.or_eq_true, beq_iff_eq]
  by_cases hf : filledIn regs r = true
  · simp only [hf, and_true]
    by_cases hd : r = n.insn.rd
    · rw [if_pos hd, if_pos (.inr hd)]
    · by_cases ht : r = n.insn.rt
      · rw [if_neg hd, if_pos ht, if_pos (.inl (.inr ht))]
      · rw [if_neg hd, if_neg ht]
        simp only [hd, ht, or_false]
  · simp only [hf, and_false, if_false, Bool.false_eq_true]

/-- The write table holds the last instruction that names a destination. -/
theorem foldl_write (env : Env) (before : Bool) (l : Links) (ns : List Node) (r : Reg) :
    (ns.foldl (handleTables env before) (.empty, l)).1.write r =
      lastMatch (fun n => n.insn.namesDestination env r) ns := by
  have hfold (x : Tables × Links) : (ns.foldl (handleTables env before) x).1.write =
      ns.foldl (fun table n r => if n.insn.namesDestination env r then some n else table r)
        x.1.write := by
    induction ns generalizing x with
    | nil => rfl
    | cons n ns ih =>
      rw [List.foldl_cons, List.foldl_cons, ih]
      congr 1
      funext r
      exact fillTable_eq _ _ n r
  rw [hfold]
  exact foldl_table (fun n r => n.insn.namesDestination env r) ns r

/-- Another instruction keeps its links. -/
theorem fill_other (h : m ≠ n) (which : RegisterType) :
    (fillInstructionReadsAndWrites env before t n l).prevWrites m which = l.prevWrites m which := by
  have hfield (l : Links) (w : RegisterType) :
      (linkField env before t n l w).prevWrites m which = l.prevWrites m which := by
    rw [linkField]
    split
    · split
      · exact if_neg fun hw => h hw.1
      · rfl
    · rfl
  rw [fillInstructionReadsAndWrites, List.foldl_cons, List.foldl_cons, List.foldl_cons,
    List.foldl_nil, hfield, hfield, hfield]

/-- The second loop sets other links. -/
theorem fill_after (which : RegisterType) :
    (fillInstructionReadsAndWrites env false t n l).prevWrites m which = l.prevWrites m which := by
  have hfield (l : Links) (w : RegisterType) :
      (linkField env false t n l w).prevWrites m which = l.prevWrites m which := by
    rw [linkField]
    split <;> rfl
  rw [fillInstructionReadsAndWrites, List.foldl_cons, List.foldl_cons, List.foldl_cons,
    List.foldl_nil, hfield, hfield, hfield]

/-- An instruction is linked to what the table holds for the registers it uses. -/
theorem fill_self (which : RegisterType) :
    (fillInstructionReadsAndWrites env true t n l).prevWrites n which =
      if n.insn.uses env (n.insn.getRegister which) then t.write (n.insn.getRegister which)
      else l.prevWrites n which := by
  have hfield (l : Links) (w : RegisterType) : (linkField env true t n l w).prevWrites n which =
      if which = w ∧ n.insn.uses env (n.insn.getRegister w) = true then
        t.write (n.insn.getRegister w)
      else l.prevWrites n which := by
    rw [linkField]
    by_cases hu : n.insn.uses env (n.insn.getRegister w) = true
    · rw [if_pos hu, if_pos rfl]
      by_cases hw : which = w
      · exact (if_pos ⟨rfl, hw⟩).trans (if_pos ⟨hw, hu⟩).symm
      · exact (if_neg fun h => hw h.2).trans (if_neg fun h => hw h.1).symm
    · rw [if_neg hu]
      exact (if_neg fun h => hu h.2).symm
  rw [fillInstructionReadsAndWrites, List.foldl_cons, List.foldl_cons, List.foldl_cons,
    List.foldl_nil, hfield, hfield, hfield]
  cases which <;> simp

theorem foldl_other (ns : List Node) (h : m ∉ ns) (x : Tables × Links) (which : RegisterType) :
    (ns.foldl (handleTables env before) x).2.prevWrites m which = x.2.prevWrites m which := by
  induction ns generalizing x with
  | nil => rfl
  | cons n ns ih =>
    rw [List.foldl_cons, ih fun hm => h (List.mem_cons_of_mem _ hm)]
    exact fill_other (fun hm => h (List.mem_cons.mpr (.inl hm))) which

theorem foldl_after (ns : List Node) (x : Tables × Links) (m : Node) (which : RegisterType) :
    (ns.foldl (handleTables env false) x).2.prevWrites m which = x.2.prevWrites m which := by
  induction ns generalizing x with
  | nil => rfl
  | cons n ns ih =>
    rw [List.foldl_cons, ih]
    exact fill_after which

end

end BasicBlock

theorem mem_nodes {s : BlockSlot} {i : Nat} {n : Node} (h : n ∈ s.nodes i) : n.slot = i := by
  simp only [BlockSlot.nodes, List.mem_append, List.mem_cons, List.mem_map] at h
  rcases h with ⟨_, -, rfl⟩ | rfl | ⟨_, -, rfl⟩ <;> rfl

theorem mem_nodesFrom {slots : List BlockSlot} {i : Nat} {n : Node} (h : n ∈ nodesFrom i slots) :
    i ≤ n.slot := by
  induction slots generalizing i with
  | nil => cases h
  | cons s ss ih =>
    rcases List.mem_append.mp h with h | h
    · exact Nat.le_of_eq (mem_nodes h).symm
    · exact Nat.le_of_succ_le (ih h)

theorem nodup_nodes (s : BlockSlot) (i : Nat) : (s.nodes i).Nodup := by
  cases hp : s.prefixInsn <;> cases hd : s.delayed <;> simp [BlockSlot.nodes, hp, hd]

/-- Each instruction object is there once. -/
theorem nodup_nodesFrom (slots : List BlockSlot) (i : Nat) : (nodesFrom i slots).Nodup := by
  induction slots generalizing i with
  | nil => exact .nil
  | cons s ss ih =>
    refine List.nodup_append'.mpr ⟨nodup_nodes s i, ih (i + 1), fun n hn hm => ?_⟩
    have hle := mem_nodesFrom hm
    rw [mem_nodes hn] at hle
    exact Nat.not_succ_le_self i hle

namespace BasicBlock

/-- The first loop links an instruction to the last earlier one that names the register. -/
theorem fillTables_prevWrites (env : Env) {slots : List BlockSlot}
    (h : nodesFrom 0 slots = pre ++ n :: post) (which : RegisterType) :
    (fillTables env slots).prevWrites n which =
      if n.insn.uses env (n.insn.getRegister which) then
        lastMatch (fun m => m.insn.namesDestination env (n.insn.getRegister which)) pre
      else none := by
  have hd := nodup_nodesFrom slots 0
  rw [h] at hd
  have hpost : n ∉ post := (List.nodup_cons.mp (List.nodup_append'.mp hd).2.1).1
  have hpre : n ∉ pre := fun hn => (List.nodup_append'.mp hd).2.2 hn (List.mem_cons_self ..)
  rw [fillTables, foldl_after, h, List.foldl_append, List.foldl_cons, foldl_other post hpost]
  refine (fill_self which).trans ?_
  rw [foldl_write, foldl_other pre hpre]
  rfl

theorem isSome_prevWrites (env : Env) {slots : List BlockSlot}
    (h : nodesFrom 0 slots = pre ++ n :: post) (which : RegisterType) :
    ((fillTables env slots).prevWrites n which).isSome =
      (n.insn.uses env (n.insn.getRegister which) &&
        pre.any (fun m => m.insn.namesDestination env (n.insn.getRegister which))) := by
  rw [fillTables_prevWrites env h, ← lastMatch_isSome]
  split
  · next hu => rw [hu, Bool.true_and]
  · next hu => rw [Bool.eq_false_iff.mpr hu, Bool.false_and, Option.isSome_none]

/-- What the block has in the place of an instruction after pruning. -/
def left (out : List Nat) (n : Node) : List Node :=
  if n.slot ∈ out then
    if n.part = .insn then [⟨n.slot, .insn, InstructionFactory.createNop n.insn.address⟩] else []
  else [n]

theorem le_of_leftOut {type : BbType} {slots : List BlockSlot} {i j : Nat}
    (h : j ∈ leftOut env type before i slots) : i ≤ j := by
  induction slots generalizing before i with
  | nil => cases h
  | cons s ss ih =>
    rcases List.mem_append.mp h with h | h
    · split at h
      · exact Nat.le_of_eq (List.mem_singleton.mp h).symm
      · cases h
    · exact Nat.le_of_succ_le (ih h)

theorem flatMap_left_of_not_mem {ns : List Node} (h : ∀ n ∈ ns, n.slot ∉ out) :
    ns.flatMap (left out) = ns := by
  induction ns with
  | nil => rfl
  | cons n ns ih =>
    rw [List.flatMap_cons, ih fun m hm => h m (List.mem_cons_of_mem _ hm), left,
      if_neg (h n (List.mem_cons_self ..))]
    rfl

theorem flatMap_left_of_mem {s : BlockSlot} (h : i ∈ out) :
    (s.nodes i).flatMap (left out) = s.pruned.nodes i := by
  have hp (insn : Instruction) : left out ⟨i, .prefixInsn, insn⟩ = [] := by
    rw [left, if_pos h, if_neg nofun]
  have hd (insn : Instruction) : left out ⟨i, .delayed, insn⟩ = [] := by
    rw [left, if_pos h, if_neg nofun]
  have hi : left out ⟨i, .insn, s.insn⟩ = s.pruned.nodes i := by
    rw [left, if_pos h, if_pos rfl]
    rfl
  rw [BlockSlot.nodes, List.flatMap_append, List.flatMap_cons, hi]
  cases s.prefixInsn <;> cases s.delayed <;> simp [hp, hd]

/-- The third loop leaves out these slots. -/
theorem nodes_pruneSlots (env : Env) (type : BbType) {all : List BlockSlot} (slots : List BlockSlot)
    (before : List Node) (i : Nat) (h : nodesFrom 0 all = before ++ nodesFrom i slots) :
    nodesFrom i (pruneSlots env type (fillTables env all) i slots) =
      (nodesFrom i slots).flatMap (left (leftOut env type before i slots)) := by
  induction slots generalizing before i with
  | nil => rfl
  | cons s ss ih =>
    have hsplit : nodesFrom 0 all = before ++ s.prefixInsn.toList.map (Node.mk i .prefixInsn) ++
        ⟨i, .insn, s.insn⟩ :: (s.delayed.toList.map (Node.mk i .delayed) ++
          nodesFrom (i + 1) ss) := by
      rw [h, nodesFrom, BlockSlot.nodes]
      simp only [List.append_assoc, List.cons_append]
    have hlink : ((fillTables env all).prevWrites ⟨i, .insn, s.insn⟩ .rt).isSome =
        (s.insn.uses env s.insn.rt &&
          (before ++ s.prefixInsn.toList.map (Node.mk i .prefixInsn)).any
            (fun m => m.insn.namesDestination env s.insn.rt)) := isSome_prevWrites env hsplit .rt
    have htail := ih (before ++ s.nodes i) (i + 1) (by rw [h, nodesFrom, List.append_assoc])
    rw [pruneSlots, nodesFrom, nodesFrom, List.flatMap_append, hlink, htail]
    have hout (n : Node) (hn : n ∈ nodesFrom (i + 1) ss) (out : List Nat) :
        n.slot ∈ [i] ++ out ↔ n.slot ∈ out := by
      refine List.mem_cons.trans (or_iff_right fun hs => ?_)
      have hle := mem_nodesFrom hn
      rw [hs] at hle
      exact Nat.not_succ_le_self i hle
    rw [leftOut]
    split
    · congr 1
      · exact (flatMap_left_of_mem (List.mem_append_left _ (List.mem_singleton_self i))).symm
      · refine List.flatMap_congr fun n hn => ?_
        simp only [left, hout n hn]
    · rw [List.nil_append]
      congr 1
      refine (flatMap_left_of_not_mem fun n hn hm => ?_).symm
      have hle := le_of_leftOut hm
      rw [mem_nodes hn] at hle
      exact Nat.not_succ_le_self i hle

theorem left_length (out : List Nat) (n : Node) : (left out n).length ≤ 1 := by
  rw [left]
  repeat' split
  all_goals simp

/-- What pruning leaves writes what stays in the block. -/
theorem lastMatch_left (env : Env) (out : List Nat) (reg : Reg) (pre : List Node) :
    lastMatch (fun m => (m.insn.writes env).contains reg) (pre.flatMap (left out)) =
      lastMatch (writesIn env out reg) pre := by
  refine lastMatch_flatMap fun m _ => ?_
  by_cases hm : m.slot ∈ out
  · refine .inr ⟨?_, fun k hk => ?_⟩
    · rw [writesIn, List.contains_iff_mem.mpr hm, Bool.not_true, Bool.and_false]
    · rw [left, if_pos hm] at hk
      split at hk
      · cases List.mem_singleton.mp hk
        rfl
      · cases hk
  · refine .inl ⟨if_neg hm, ?_⟩
    rw [writesIn, Bool.eq_false_iff.mpr fun h => hm (List.contains_iff_mem.mp h), Bool.not_false,
      Bool.and_true]

theorem prevWrites_exact_iff (env : Env) {slots : List BlockSlot}
    (hl : nodesFrom 0 slots = pre ++ n :: post) (which : RegisterType)
    (hu : n.insn.uses env (n.insn.getRegister which) = true) (out : List Nat) :
    (fillTables env slots).prevWrites n which =
        lastMatch (fun m => (m.insn.writes env).contains (n.insn.getRegister which))
          (pre.flatMap (left out)) ↔
      ∀ as m bs, pre = as ++ m :: bs → m.insn.namesDestination env (n.insn.getRegister which) ≠
          writesIn env out (n.insn.getRegister which) m →
        ∃ k ∈ bs, k.insn.namesDestination env (n.insn.getRegister which) = true ∧
          writesIn env out (n.insn.getRegister which) k = true := by
  rw [fillTables_prevWrites env hl, if_pos hu, lastMatch_left, lastMatch_eq_iff]

/-- The links are exact in the blocks whose hidden writes are followed by named ones. -/
theorem links_exact_iff (env : Env) (type : BbType) (slots : List BlockSlot) :
    LinksExact env type slots ↔ WritesNamed env type slots := by
  have hnodes := nodes_pruneSlots env type (slots.map (BlockSlot.replaceTailCall env)) [] 0 rfl
  rw [LinksExact, WritesNamed, linkedPass1]
  simp only [Linked.nodes, Linked.getPrevRegisterWrite]
  generalize slots.map (BlockSlot.replaceTailCall env) = slots at hnodes ⊢
  generalize leftOut env type [] 0 slots = out at hnodes ⊢
  rw [hnodes]
  constructor
  · intro h pre n post hl hn which hu
    refine (prevWrites_exact_iff env hl which hu out).mp ?_
    refine h (pre.flatMap (left out)) n (post.flatMap (left out)) ?_ which hu
    rw [hl, List.flatMap_append, List.flatMap_cons, left, if_neg hn]
    rfl
  · intro h pre' n post' hf which hu
    obtain ⟨pre, m, post, hl, rfl, hm⟩ := flatMap_split (left_length out) hf
    rw [left] at hm
    split at hm
    · split at hm
      · cases hm
        cases which <;> cases hu
      · cases hm
    · next hout =>
      cases hm
      exact (prevWrites_exact_iff env hl which hu out).mpr (h pre n post hl hout which hu)

/-- The slots of a block whose instructions have no prefix. -/
def slots (bb : BasicBlock) : List BlockSlot := bb.insns.map (fun e => ⟨e, none⟩)

theorem filledIn_saved (regs : List Reg) (h : reg ∈ mipsCallerSaved) :
    filledIn regs reg = regs.contains reg := by
  have hz : (reg != Reg.zero) = true := by
    revert reg
    decide
  rw [filledIn, hz, Bool.true_and]

/-- A store of a saved register to the stack has it in the field `rt`. -/
theorem written_store {insn : Instruction} (env : Env) (hk : insn.kind = .sw)
    (hs : insn.rs = Reg.sp) (hreg : reg ∈ mipsCallerSaved)
    (hc : (insn.fillSources env).contains reg = true) (before : List Node) :
    (insn.uses env insn.rt && before.any (fun m => m.insn.namesDestination env insn.rt)) =
      written env (before.map Node.insn) insn.rt := by
  have hrt : insn.rt = reg := by
    rw [Instruction.fillSources, hk, hs, List.contains_iff_mem] at hc
    rcases List.mem_cons.mp hc with rfl | hc
    · exact absurd hreg (by decide)
    · rcases List.mem_cons.mp hc with rfl | hc
      · rfl
      · cases List.mem_singleton.mp hc
        exact absurd hreg (by decide)
  have hu : insn.uses env insn.rt = true := by
    rw [Instruction.uses, hrt, filledIn_saved _ hreg, List.contains_iff_mem]
    exact List.mem_append_right _ (List.contains_iff_mem.mp hc)
  rw [hu, Bool.true_and, written, List.any_map]
  refine congrArg (before.any ·) (funext fun m => ?_)
  rw [Instruction.namesDestination, hrt, filledIn_saved _ hreg]
  rfl

theorem prunes_eq {insn : Instruction} (env : Env) (type : BbType)
    (hk : insn.opcode = .sw → insn.kind = .sw) (before : List Node) :
    prunes env type (insn.uses env insn.rt &&
        before.any (fun m => m.insn.namesDestination env insn.rt)) insn =
      isPruned env type (before.map Node.insn) insn := by
  have hany (p q : Reg → Bool) (h : ∀ reg ∈ mipsCallerSaved, p reg = q reg) :
      mipsCallerSaved.any p = mipsCallerSaved.any q := by
    rw [Bool.eq_iff_iff, List.any_eq_true, List.any_eq_true]
    exact exists_congr fun reg => and_congr_right fun hreg => by rw [h reg hreg]
  rw [prunes, isPruned]
  cases type with
  | prologue =>
    by_cases hs : insn.opcode = .sw ∧ insn.rs = Reg.sp
    · refine congrArg _ (hany _ _ fun reg hreg => ?_)
      rw [filledIn_saved _ hreg, filledIn_saved _ hreg]
      by_cases hc : (insn.fillSources env).contains reg = true
      · rw [written_store env (hk hs.1) hs.2 hreg hc]
      · rw [Bool.eq_false_iff.mpr hc]
        rfl
    · have hf : ((BbType.prologue == .prologue && insn.opcode == .sw ||
          BbType.prologue == .epilogue && insn.opcode == .lw) && insn.rs == Reg.sp) = false := by
        rw [Bool.eq_false_iff]
        intro h
        rw [Bool.and_eq_true, Bool.or_eq_true] at h
        exact hs ⟨h.1.elim eq_of_beq (fun h => by cases h), eq_of_beq h.2⟩
      rw [hf, Bool.and_false, Bool.false_and, Bool.false_and]
  | normal | epilogue =>
    refine congrArg _ (hany _ _ fun reg hreg => ?_)
    rw [filledIn_saved _ hreg, filledIn_saved _ hreg]
    rfl

theorem nodes_insns (e : Entry) (i : Nat) :
    (BlockSlot.nodes i ⟨e, none⟩).map Node.insn = e.insns := by
  rw [BlockSlot.nodes, Entry.insns]
  cases e.delayed <;> rfl

theorem pruneSlots_eq (env : Env) (type : BbType) {all : List BlockSlot} {es : List Entry}
    (hk : ∀ e ∈ es, e.insn.opcode = .sw → e.insn.kind = .sw) (before : List Node) (i : Nat)
    (h : nodesFrom 0 all = before ++ nodesFrom i (es.map (fun e => ⟨e, none⟩))) :
    (pruneSlots env type (fillTables env all) i (es.map (fun e => ⟨e, none⟩))).map
        BlockSlot.toEntry =
      pruneStackStores env type (before.map Node.insn) es := by
  induction es generalizing before i with
  | nil => rfl
  | cons e es ih =>
    have hprunes : prunes env type ((fillTables env all).prevWrites ⟨i, .insn, e.insn⟩ .rt).isSome
        e.insn = isPruned env type (before.map Node.insn) e.insn :=
      (congrArg (prunes env type · e.insn) (isSome_prevWrites env h .rt)).trans
        (prunes_eq env type (hk e (List.mem_cons_self ..)) before)
    have hrest : nodesFrom 0 all = (before ++ BlockSlot.nodes i ⟨e, none⟩) ++
        nodesFrom (i + 1) (es.map (fun e => ⟨e, none⟩)) := by
      rw [h, List.map_cons, nodesFrom, List.append_assoc]
    have htail := ih (fun d hd => hk d (List.mem_cons_of_mem _ hd)) _ (i + 1) hrest
    rw [List.map_append, nodes_insns] at htail
    rw [List.map_cons, pruneSlots, List.map_cons, htail, pruneStackStores]
    refine congrArg (· :: _) ?_
    change (if prunes env type ((fillTables env all).prevWrites ⟨i, .insn, e.insn⟩ .rt).isSome
      e.insn = true then BlockSlot.pruned ⟨e, none⟩ else ⟨e, none⟩ : BlockSlot).toEntry = _
    rw [hprunes]
    split <;> rfl

/-- The links do what the pass without them asks about the instructions before a store. -/
theorem linkedPass1_slots (env : Env) (bb : BasicBlock)
    (hk : ∀ e ∈ bb.insns, e.insn.opcode = .sw → e.insn.kind = .sw) :
    (linkedPass1 env bb.type bb.slots).slots.map BlockSlot.toEntry = bb.pass1 env := by
  have hslots : bb.slots.map (BlockSlot.replaceTailCall env) =
      (bb.insns.map (Entry.replaceTailCall env)).map (fun e => ⟨e, none⟩) := by
    rw [slots, List.map_map, List.map_map]
    refine List.map_congr_left fun e _ => ?_
    rw [Function.comp_apply, BlockSlot.replaceTailCall]
    split
    · rfl
    · next hj => rw [Function.comp_apply, Entry.replaceTailCall, if_neg hj]
  rw [linkedPass1, hslots]
  refine pruneSlots_eq env bb.type (fun e he ho => ?_) [] 0 rfl
  obtain ⟨d, hd, rfl⟩ := List.mem_map.mp he
  rw [Entry.replaceTailCall] at ho ⊢
  split
  · next hj =>
    rw [if_pos hj] at ho
    cases ho
  · next hj =>
    rw [if_neg hj] at ho
    exact hk d hd ho

end BasicBlock

theorem store_kind {address word : Word} {insn : Instruction}
    (hc : InstructionFactory.create address word = some insn) (ho : insn.opcode = .sw) :
    insn.kind = .sw := by
  obtain ⟨-, -, -, -, hof⟩ := create_access hc (by rw [ho]; decide)
  have hk := memoryKind_of_create hof (by rw [ho]; decide)
  generalize insn.opcode = o at ho hk
  generalize insn.kind = k at hk ⊢
  cases hk with
  | lw => cases ho
  | sw => rfl
  | load z isSigned => cases z <;> cases isSigned <;> cases ho
  | store z => cases z <;> cases ho

/-- With the links or without them, the blocks of a method are the same after the first pass. -/
theorem JavaMethod.Made.linkedPass1 {m : JavaMethod} (hm : m.Made array)
    (hp : Controller.pass0 base text = some array) (env : Env) {fn : Function}
    (hf : fn ∈ m.functions) {bb : BasicBlock} (hb : bb ∈ fn.bbs) :
    (BasicBlock.linkedPass1 env bb.type bb.slots).slots.map BlockSlot.toEntry = bb.pass1 env := by
  refine BasicBlock.linkedPass1_slots env bb fun e he ho => ?_
  obtain ⟨_, hm⟩ := hm
  obtain ⟨n, start, a, b, hs⟩ := hm fn hf
  have hmem : e ∈ fn.entries := List.mem_flatMap.mpr ⟨bb, hb, he⟩
  rw [(Function.ofSymbol_slots hs).1] at hmem
  rcases (Controller.mem_pass0 hp (List.mem_of_mem_drop (List.mem_of_mem_take hmem))).1 with
    ⟨word, -, hc⟩ | hnop
  · exact store_kind hc ho
  · rw [hnop.2] at ho
    cases ho

/-- A product and the register that its low half goes to. -/
def productWords : List Word := [0x00850018, 0x00001012, 0x03e00008, 0]

def productArray : List Entry := (Controller.pass0 0x1000 productWords).getD []

theorem product_pass0 : Controller.pass0 0x1000 productWords = some productArray := rfl

def productFunction : Option Function :=
  Function.ofSymbol "f" false productArray (Controller.pass0_attached product_pass0) 0 3

def productMethod : JavaMethod := ⟨productFunction.toList, by decide⟩

theorem product_bbs : (productMethod.functions.head productMethod.nonempty).bbs ≠ [] := by decide

/-- `mflo` is linked to nothing, although `mult` has written LO. -/
theorem product_unlinked : Controller.pass0 0x1000 productWords = some productArray ∧
    productMethod.Made productArray ∧ ∃ fn ∈ productMethod.functions, ∃ bb ∈ fn.bbs,
      ¬ BasicBlock.LinksExact (Env.single {} productMethod) bb.type bb.slots := by
  refine ⟨product_pass0, ⟨Controller.pass0_attached product_pass0, fun fn hf => ?_⟩,
    _, List.head_mem productMethod.nonempty, _, List.head_mem product_bbs, fun h => ?_⟩
  · have hf : fn ∈ productFunction.toList := hf
    exact ⟨_, _, _, _, Option.mem_toList.mp hf⟩
  · have hlink := h [⟨0, .insn, ⟨.mult, 0x1000, .mult, 4, 5, 0, 0⟩⟩]
      ⟨1, .insn, ⟨.mfxx, 0x1004, .mflo, Reg.lo, 0, 2, 0⟩⟩ _ rfl .rs (by decide)
    exact absurd hlink (by decide)

end Cibyl
