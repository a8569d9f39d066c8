import Cibyl.LabelCount

namespace Cibyl
set_option autoImplicit true

open Jvm (Label)
open Mark (defined named)
open Bc (allMarks)

/-- The loads that may call a subroutine. -/
theorem create_reads (hc : InstructionFactory.create address word = some i) :
    (∀ bc, i.kind = .loadXX bc → i.opcode = .lwl) ∧
      ∀ z isSigned, i.kind = .partialLoad z isSigned → i.opcode = z.loadOpcode isSigned := by
  have hk {k : Kind} {o : Opcode} (hl : ∀ bc, k ≠ .loadXX bc)
      (hp : ∀ z isSigned, k ≠ .partialLoad z isSigned) : (∀ bc, k = .loadXX bc → o = .lwl) ∧
      ∀ z isSigned, k = .partialLoad z isSigned → o = WordSize.loadOpcode z isSigned :=
    ⟨fun bc h => absurd h (hl bc), fun z isSigned h => absurd h (hp z isSigned)⟩
  rw [InstructionFactory.create] at hc
  split at hc
  · cases hc
    exact hk (fun _ => Kind.noConfusion) (fun _ _ => Kind.noConfusion)
  · split at hc
    · cases hc
      exact hk (fun _ => Kind.noConfusion) (fun _ _ => Kind.noConfusion)
    · split at hc
      · cases hc
        exact hk (fun _ => Kind.noConfusion) (fun _ _ => Kind.noConfusion)
      · generalize InstructionFactory.decodeOpcode word = o at hc
        cases o
        case lb | lbu | lh | lhu =>
          cases hc
          refine ⟨fun bc h => (by cases h), fun z isSigned h => ?_⟩
          cases h
          rfl
        case lwl =>
          cases hc
          exact ⟨fun _ _ => rfl, fun z isSigned h => by cases h⟩
        case beq | bne =>
          rw [InstructionFactory.ofOpcode] at hc
          split at hc <;> cases hc <;>
            exact hk (fun _ => Kind.noConfusion) (fun _ _ => Kind.noConfusion)
        all_goals first
          | (cases hc; exact hk (fun _ => Kind.noConfusion) (fun _ _ => Kind.noConfusion))
          | (cases hc; exact hk (fun _ => by split <;> exact Kind.noConfusion)
              (fun _ _ => by split <;> exact Kind.noConfusion))
          | cases hc

namespace JavaMethod

/-- Every label that a line of the body names is defined by one line of it. -/
def LabelsOnce (env : Env) (m : JavaMethod) : Prop :=
  ∀ l ∈ named (allMarks (m.pass2Lines env)), (defined (allMarks (m.pass2Lines env))).count l = 1

/-- The addresses that the body goes to or protects. -/
def targets (env : Env) (m : JavaMethod) : List Word :=
  (m.insns env).flatMap (Instruction.targets env) ++
    ((if m.hasMultipleFunctions then (m.insns env).flatMap (Instruction.ownReturns env) else []) ++
      if m.hasIndirectJumps then env.jumptabLabels m else [])

/-- Every target is a function of a method with several, a slot with a label, a delay slot that
the data points to, a catch or a call of `__NOPH_setjmp`, and none of these is another one of
them. No two handlers have the range of the same try or the same method, and the jump of a `jr`
is seen by the constructor of its function. -/
structure LabelsHold (env : Env) (m : JavaMethod) : Prop where
  targets : ∀ a ∈ m.targets env,
    a ∈ m.entryPoints ++ (m.labelled env ++ (m.sites env ++ m.againAddresses env))
  entries : m.entryPoints.Disjoint (m.labelled env ++ (m.sites env ++ m.againAddresses env))
  sites : (m.sites env).Disjoint (m.labelled env ++ m.againAddresses env)
  handlers : ((m.handlers env).map ExceptionHandler.label).Nodup
  jumps : (∃ i ∈ m.insns env, i.isRegisterIndirectJump = true) → m.hasIndirectJumps = true

variable {m : JavaMethod} {array : List Entry}

/-- The functions name what their instructions name, and the labels after what is emitted again. -/
theorem mem_functionsNamed : l ∈ named (allMarks (m.functionsCode env).1) ↔
    (∃ i ∈ m.insns env, l ∈ named (i.marks env)) ∨ ∃ d ∈ m.agains env, l = .out d.address := by
  have hf (fn : Function) : named
      (if m.hasMultipleFunctions then [.defines (.addr fn.address)] else []) = [] := by
    split <;> rfl
  have he (e : Entry) : l ∈ named (e.marks env) ↔
      (∃ i ∈ e.insns, l ∈ named (i.marks env)) ∨ ∃ d ∈ e.again env, l = .out d.address := by
    have hl : named (if e.hasLabel env then [.defines (.addr e.insn.address)] else []) = [] := by
      split <;> rfl
    have hsub : ∀ d ∈ e.again env, d ∈ e.insns := fun d hd =>
      List.mem_cons_of_mem _ (List.mem_of_mem_filter hd)
    simp only [Entry.marks, Entry.againMarks, Mark.named_append, Mark.named_flatMap, hl,
      List.nil_append, List.mem_append, List.mem_flatMap, Mark.named_names, Mark.named_defines,
      Mark.named_nil, List.mem_singleton, List.not_mem_nil, or_false]
    constructor
    · rintro ((⟨d, hd, h⟩ | h) | ⟨d, hd, h | h⟩)
      · exact .inl ⟨d, List.mem_cons_of_mem _ hd, h⟩
      · exact .inl ⟨_, List.mem_cons_self .., h⟩
      · exact .inr ⟨d, hd, h⟩
      · exact .inl ⟨d, hsub d hd, h⟩
    · rintro (⟨i, hi, h⟩ | ⟨d, hd, h⟩)
      · rcases List.mem_cons.mp hi with rfl | hi
        · exact .inl (.inr h)
        · exact .inl (.inl ⟨i, hi, h⟩)
      · exact .inr ⟨d, hd, .inl h⟩
  rw [functionsCode_marks, Mark.named_flatMap]
  simp only [Mark.named_append, hf, List.nil_append, Mark.named_flatMap]
  rw [← List.flatMap_assoc]
  change l ∈ (m.slots env).flatMap _ ↔ _
  simp only [List.mem_flatMap, he, mem_insns_slot, agains]
  constructor
  · rintro ⟨e, hs, ⟨i, hi, h⟩ | ⟨d, hd, h⟩⟩
    · exact .inl ⟨i, ⟨e, hs, hi⟩, h⟩
    · exact .inr ⟨d, ⟨e, hs, hd⟩, h⟩
  · rintro (⟨i, ⟨e, hs, hi⟩, h⟩ | ⟨d, ⟨e, hs, hd⟩, h⟩)
    · exact ⟨e, hs, .inl ⟨i, hi, h⟩⟩
    · exact ⟨e, hs, .inr ⟨d, hd, h⟩⟩

theorem mem_handlers_iff :
    x ∈ m.handlers env ↔ ∃ i ∈ m.insns env, x ∈ i.handlers env := by
  rw [handlers, ← functionsCode_handlers]
  constructor
  · intro h
    rcases mem_handlers h with ⟨i, hi, hk, rfl⟩ | ⟨i, hi, hb, rfl⟩
    · refine ⟨i, hi, ?_⟩
      rw [Instruction.handlers, if_pos hk]
      exact List.mem_singleton_self _
    · refine ⟨i, hi, ?_⟩
      have hk : i.kind ≠ .catchInsn := by
        rcases Instruction.kind_of_builtin hb with hk | hk | hk <;> rw [hk] <;>
          exact Kind.noConfusion
      rw [Instruction.handlers, if_neg hk, Instruction.setjmpHandlers, if_pos hb]
      exact List.mem_singleton_self _
  · rintro ⟨i, hi, h⟩
    rw [Instruction.handlers] at h
    split at h
    · next hk =>
      cases List.mem_singleton.mp h
      exact catch_handler hi hk
    · rw [Instruction.setjmpHandlers] at h
      split at h
      · next hb =>
        cases List.mem_singleton.mp h
        exact setjmp_handler hi hb
      · cases h

theorem mem_returnLocations : a ∈ (m.functionsCode env).2.returnLocations ↔
    a ∈ (m.insns env).flatMap (Instruction.ownReturns env) := by
  rw [functionsCode_returnLocations]
  simp only [List.mem_flatMap, Entry.mem_gather, mem_insns_slot]
  constructor
  · rintro ⟨e, he, i, hi, h⟩
    exact ⟨i, ⟨e, he, hi⟩, h⟩
  · rintro ⟨i, ⟨e, he, hi⟩, h⟩
    exact ⟨e, he, i, hi, h⟩

/-- The handler of a site goes to the site. -/
theorem site_of_handler {i : Instruction} (hx : x ∈ i.handlers env) (h : .addr a ∈ x.named) :
    i.isSite env = true ∧ a = i.address := by
  rw [Instruction.handlers] at hx
  split at hx
  · next hk =>
    cases List.mem_singleton.mp hx
    refine ⟨by simp [Instruction.isSite, hk], ?_⟩
    simpa [ExceptionHandler.named] using h
  · rw [Instruction.setjmpHandlers] at hx
    split at hx
    · next hb =>
      cases List.mem_singleton.mp hx
      refine ⟨by simp [Instruction.isSite, hb], ?_⟩
      simpa [ExceptionHandler.named] using h
    · cases hx

theorem handler_of_site {i : Instruction} (h : i.isSite env = true) :
    ∃ x ∈ i.handlers env, .addr i.address ∈ x.named := by
  rw [Instruction.handlers]
  by_cases hk : i.kind = .catchInsn
  · rw [if_pos hk]
    exact ⟨_, List.mem_singleton_self _, List.mem_singleton_self _⟩
  · have hb : i.builtin env = some .setjmp := by
      simpa [Instruction.isSite, hk] using h
    rw [if_neg hk, Instruction.setjmpHandlers, if_pos hb]
    exact ⟨_, List.mem_singleton_self _, List.mem_cons_of_mem _ (List.mem_singleton_self _)⟩

theorem isSite_emitted {i : Instruction} (h : i.isSite env = true) :
    i.kind ≠ .delaySlotNop := by
  intro hk
  rw [Instruction.isSite, Instruction.builtin_none (by rw [hk]; exact Kind.noConfusion)
    (by rw [hk]; exact Kind.noConfusion), hk] at h
  cases h

theorem sites_nodup (hm : m.Of array) (hp : Controller.pass0 base text = some array)
    (hl : 4 * text.length ≤ 2 ^ 32) (env : Env) : (m.sites env).Nodup := by
  have hs : (m.slots env).flatMap Entry.emitted =
      (m.insns env).filter (fun i => i.kind != .delaySlotNop) :=
    List.filter_flatMap.symm
  have hn := hm.emitted_nodup hp hl env
  rw [hs] at hn
  refine (List.Sublist.map _ ?_).nodup hn
  refine List.monotone_filter_right _ fun i hi => ?_
  simpa using isSite_emitted hi

theorem labelled_nodup (hm : m.Of array) (hp : Controller.pass0 base text = some array)
    (hl : 4 * text.length ≤ 2 ^ 32) (env : Env) : (m.labelled env).Nodup :=
  (List.filter_sublist.map _).nodup (hm.slot_nodup hp hl env)

theorem agains_nodup (hm : m.Of array) (hp : Controller.pass0 base text = some array)
    (hl : 4 * text.length ≤ 2 ^ 32) (env : Env) : (m.againAddresses env).Nodup := by
  refine List.Sublist.nodup ?_ (hm.ownDelaySlots hp hl env)
  rw [againAddresses, agains]
  generalize m.slots env = es
  induction es with
  | nil => exact .slnil
  | cons e es ih =>
    rw [List.flatMap_cons, List.map_append, List.filterMap_cons, Entry.again, Entry.delayAddress]
    cases e.delayed with
    | none => exact ih
    | some d =>
      refine (List.Sublist.append (List.filter_sublist.map _) ih).trans ?_
      exact List.Sublist.refl _

/-- A function begins at its first slot. -/
theorem entryPoints_nodup (hmade : m.Made array) (hm : m.Of array)
    (hp : Controller.pass0 base text = some array) (hl : 4 * text.length ≤ 2 ^ 32) :
    m.entryPoints.Nodup := by
  obtain ⟨ha, hmade⟩ := hmade
  have hn := nodup_map_of_subperm hm.disjoint (fun e => e.insn.address) <| by
    obtain ⟨insns, hd, rfl⟩ := Option.map_eq_some_iff.mp hp
    rw [attachDelaySlots_addresses]
    exact Controller.decode_nodup hd hl
  rw [entryPoints]
  split
  · refine List.Sublist.nodup ?_ hn
    clear hn
    generalize m.functions = fns at hmade ⊢
    induction fns with
    | nil => exact .slnil
    | cons fn fns ih =>
      obtain ⟨name, start, a, b, hs⟩ := hmade fn (List.mem_cons_self ..)
      obtain ⟨e, es, hsl, haddr, -⟩ := Function.ofSymbol_eq hs
      rw [List.flatMap_cons, List.map_append, (Function.ofSymbol_slots hs).1, hsl, List.map_cons,
        List.map_cons, ← haddr]
      refine .cons_cons _ ((ih fun fn h => hmade fn (List.mem_cons_of_mem _ h)).trans ?_)
      exact List.sublist_append_right ..
  · exact .nil

/-- The slot of a delay-slot instruction has no label. -/
theorem labelled_disjoint (hm : m.Of array) (hp : Controller.pass0 base text = some array)
    (hl : 4 * text.length ≤ 2 ^ 32) (env : Env) :
    (m.labelled env).Disjoint (m.againAddresses env) := by
  intro a hla haa
  obtain ⟨f, hf, rfl⟩ := List.mem_map.mp hla
  obtain ⟨hf, hlab⟩ := List.mem_filter.mp hf
  obtain ⟨d, hd, hda⟩ := List.mem_map.mp haa
  obtain ⟨g, hg, hd⟩ := List.mem_flatMap.mp hd
  have hd := Option.mem_toList.mp (List.mem_of_mem_filter hd)
  obtain ⟨insns, hdec, rfl⟩ := Option.map_eq_some_iff.mp hp
  have hslot {s : Entry} (hs : s ∈ m.slots env) :
      ∃ e ∈ attachDelaySlots insns, Entry.Replaced e s := by
    obtain ⟨e, he, hr⟩ := exists_of_forall₂ (m.slots_replaced env) hs
    exact ⟨e, hm.disjoint.subset he, hr⟩
  obtain ⟨e, he, hef⟩ := hslot hf
  obtain ⟨e', he', heg⟩ := hslot hg
  have hde : e'.delayed = some d := by
    cases heg with
    | kept => exact hd
    | tailCall => exact hd
    | pruned => cases hd
  have hn := Controller.decode_nodup hdec hl
  rw [← attachDelaySlots_addresses] at hn
  have hnop : e = .single (InstructionFactory.createDelaySlotNop d.address) :=
    List.inj_on_of_nodup_map hn he (nop_of_delayed he' hde) (hef.address.symm.trans hda.symm)
  subst hnop
  cases hef with
  | kept => exact absurd hlab (by simp [Entry.hasLabel, Entry.single,
      InstructionFactory.createDelaySlotNop])
  | tailCall h => cases h
  | pruned h => exact absurd h (fun h => h.elim Opcode.noConfusion Opcode.noConfusion)

theorem againSites_subset (env : Env) (m : JavaMethod) :
    m.againSites env ⊆ m.againAddresses env ∧ m.againSites env ⊆ m.sites env := by
  have ha : ∀ d ∈ m.agains env, d ∈ m.insns env := by
    intro d hd
    obtain ⟨e, he, hd⟩ := List.mem_flatMap.mp hd
    exact mem_insns_slot.mpr ⟨e, he, List.mem_cons_of_mem _ (List.mem_of_mem_filter hd)⟩
  constructor
  · intro a h
    obtain ⟨d, hd, rfl⟩ := List.mem_map.mp h
    exact List.mem_map.mpr ⟨d, List.mem_of_mem_filter hd, rfl⟩
  · intro a h
    obtain ⟨d, hd, rfl⟩ := List.mem_map.mp h
    obtain ⟨hd, hs⟩ := List.mem_filter.mp hd
    exact List.mem_map.mpr ⟨d, List.mem_filter.mpr ⟨ha d hd, hs⟩, rfl⟩

/-- Under the condition the places of labels are all different. -/
theorem LabelsHold.count (h : m.LabelsHold env) (hmade : m.Made array) (hm : m.Of array)
    (hp : Controller.pass0 base text = some array) (hl : 4 * text.length ≤ 2 ^ 32)
    (ha : a ∈ m.entryPoints ++ (m.labelled env ++ (m.sites env ++ m.againAddresses env))) :
    (defined (allMarks (m.pass2Lines env))).count (.addr a) = 1 := by
  obtain ⟨-, hentries, hsites, -, -⟩ := h
  obtain ⟨hsa, hss⟩ := againSites_subset env m
  have hnil : m.againSites env = [] := by
    refine List.eq_nil_iff_forall_not_mem.mpr fun b hb => ?_
    exact hsites (hss hb) (List.mem_append_right _ (hsa hb))
  rw [count_addr, hnil, List.append_nil]
  refine List.count_eq_one_of_mem ?_ ha
  obtain ⟨hsl, hsag⟩ := List.disjoint_append_right.mp hsites
  refine (entryPoints_nodup hmade hm hp hl).append ?_ hentries
  refine (labelled_nodup hm hp hl env).append ?_ ?_
  · exact (sites_nodup hm hp hl env).append (agains_nodup hm hp hl env) hsag
  · exact List.disjoint_append_right.mpr ⟨hsl.symm, labelled_disjoint hm hp hl env⟩

/-- A load that calls a subroutine is one of the loads that `emitSubroutines` looks for. -/
theorem Made.reads (hmade : m.Made array) (hp : Controller.pass0 base text = some array)
    (hi : i ∈ m.insns env) (h : i.Reads env bc) :
    ∃ z isSigned, bc = WordSize.readWhat z isSigned ∧ i.opcode = z.loadOpcode isSigned ∧
      ∃ fn ∈ m.functions, fn.opcodeIsUsed (z.loadOpcode isSigned) = true := by
  obtain ⟨-, h⟩ := h
  have hread : ∃ z isSigned, i.kind = .partialLoad z isSigned ∧ bc = z.readWhat isSigned ∧
      i.opcode = z.loadOpcode isSigned := by
    have hk := hmade.insn hp hi
    rcases h with ⟨hload, hne⟩ | ⟨z, isSigned, hload, rfl⟩
    · rcases hk with ⟨a, word, hc⟩ | hk | hk | ⟨a, extra, rfl⟩
      · exact absurd ((create_reads hc).1 _ hload) hne
      · exact nomatch hload.symm.trans hk
      · exact nomatch hload.symm.trans hk
      · cases hload
    · rcases hk with ⟨a, word, hc⟩ | hk | hk | ⟨a, extra, rfl⟩
      · exact ⟨z, isSigned, hload, rfl, (create_reads hc).2 _ _ hload⟩
      · exact nomatch hload.symm.trans hk
      · exact nomatch hload.symm.trans hk
      · cases hload
  obtain ⟨z, isSigned, hk, hbc, ho⟩ := hread
  refine ⟨z, isSigned, hbc, ho, ?_⟩
  rw [← ho]
  refine opcode_used hi (by rw [hk]; exact Kind.noConfusion) (by rw [hk]; exact Kind.noConfusion) ?_
  rw [ho]
  cases z <;> cases isSigned <;> exact Opcode.noConfusion

/-- `pass1` of a catch stops where it finds no exception class. -/
def CatchesClasses (env : Env) (m : JavaMethod) : Prop :=
  ∀ i ∈ m.insns env, i.kind = .catchInsn → env.exceptionClasses i.extra ≠ []

theorem mem_sites : a ∈ m.sites env ↔ ∃ i ∈ m.insns env, i.isSite env = true ∧ i.address = a := by
  rw [sites, List.mem_map]
  constructor
  · rintro ⟨i, hi, ha⟩
    obtain ⟨hi, hs⟩ := List.mem_filter.mp hi
    exact ⟨i, hi, hs, ha⟩
  · rintro ⟨i, hi, hs, ha⟩
    exact ⟨i, List.mem_filter.mpr ⟨hi, hs⟩, ha⟩

theorem LabelsHold.count_label (h : m.LabelsHold env) (hx : x ∈ m.handlers env) :
    ((m.handlers env).map ExceptionHandler.label).count x.label = 1 :=
  List.count_eq_one_of_mem h.handlers (List.mem_map_of_mem hx)

theorem LabelsHold.handler (h : m.LabelsHold env) (hx : x ∈ m.handlers env) :
    (defined (allMarks (m.pass2Lines env))).count x.label = 1 := by
  have hone := h.count_label hx
  cases x with
  | exception start stop => exact (count_handler ..).trans hone
  | setjmp start stop target => exact (count_handler ..).trans hone

theorem LabelsHold.notThis (h : m.LabelsHold env)
    (hx : .setjmp start stop target ∈ m.handlers env) :
    (defined (allMarks (m.pass2Lines env))).count (.setjmpNotThis start stop) = 1 := by
  have hle := count_notThis_le (m.handlers env) start stop
  have hone : ((m.handlers env).map ExceptionHandler.label).count (.handler start stop) = 1 :=
    h.count_label hx
  rw [hone] at hle
  rw [count_notThis]
  refine Nat.le_antisymm hle (List.count_pos_iff.mpr (List.mem_flatMap.mpr ⟨_, hx, ?_⟩))
  exact List.mem_cons_of_mem _ (List.mem_singleton_self _)

theorem LabelsHold.once (h : m.LabelsHold env) (hmade : m.Made array) (hm : m.Of array)
    (hp : Controller.pass0 base text = some array) (hl : 4 * text.length ≤ 2 ^ 32) :
    m.LabelsOnce env := by
  have hcount {a : Word} := h.count hmade hm hp hl (a := a)
  have hsite {a : Word} (ha : a ∈ m.sites env) :
      (defined (allMarks (m.pass2Lines env))).count (.addr a) = 1 :=
    hcount (List.mem_append_right _ (List.mem_append_right _ (List.mem_append_left _ ha)))
  have htarget {a : Word} (ha : a ∈ m.targets env) := hcount (h.targets a ha)
  intro l hln
  rw [named_pass2Lines] at hln
  simp only [List.mem_append] at hln
  rcases hln with hln | hln | hln | hln | (hln | hln) | hln
  · split at hln
    · cases List.mem_singleton.mp hln
      exact count_fixed env m (by simp)
    · cases hln
  · split at hln
    · rcases List.mem_append.mp hln with hln | hln
      · obtain ⟨a, ha, rfl⟩ := List.mem_map.mp hln
        exact hcount (List.mem_append_left _ ha)
      · cases List.mem_singleton.mp hln
        exact count_fixed env m (by simp)
    · cases hln
  · rcases mem_functionsNamed.mp hln with ⟨i, hi, hln⟩ | ⟨d, hd, rfl⟩
    · rcases Instruction.named_marks hln with
        ⟨a, ha, rfl⟩ | ⟨hs, rfl⟩ | ⟨x, hx, rfl⟩ | ⟨hr, rfl⟩ | ⟨bc, hr, rfl⟩ | hfix
      · exact htarget (List.mem_append_left _ (List.mem_flatMap.mpr ⟨i, hi, ha⟩))
      · exact hsite (mem_sites.mpr ⟨i, hi, hs, rfl⟩)
      · exact h.handler (mem_handlers_iff.mpr ⟨i, hi, hx⟩)
      · rw [count_localJumptab, if_pos (h.jumps ⟨i, hi, hr⟩)]
      · obtain ⟨z, isSigned, rfl, -, fn, hf, ho⟩ := hmade.reads hp hi hr
        exact count_memoryRead hr.1 hf ho
      · exact count_fixed env m hfix
    · rw [count_out]
      exact List.count_eq_one_of_mem (agains_nodup hm hp hl env) (List.mem_map_of_mem hd)
  · split at hln
    · next hj =>
      rcases List.mem_cons.mp hln with rfl | hln
      · exact count_fixed env m (by simp)
      · rcases List.mem_append.mp hln with hln | hln
        · obtain ⟨a, ha, rfl⟩ := List.mem_map.mp hln
          refine htarget (List.mem_append_right _ (List.mem_append_right _ ?_))
          rwa [if_pos hj]
        · cases List.mem_singleton.mp hln
          exact count_fixed env m (by simp)
    · cases hln
  · obtain ⟨x, hx, hln⟩ := List.mem_flatMap.mp hln
    obtain ⟨i, hi, hxi⟩ := mem_handlers_iff.mp hx
    have haddr {a : Word} (ha : .addr a ∈ x.named) :
        (defined (allMarks (m.pass2Lines env))).count (.addr a) = 1 := by
      obtain ⟨hs, rfl⟩ := site_of_handler hxi ha
      exact hsite (mem_sites.mpr ⟨i, hi, hs, rfl⟩)
    cases x with
    | exception start stop =>
      cases List.mem_singleton.mp hln
      exact haddr (List.mem_singleton_self _)
    | setjmp start stop target =>
      rcases List.mem_cons.mp hln with rfl | hln
      · exact h.notThis hx
      · cases List.mem_singleton.mp hln
        exact haddr (List.mem_cons_of_mem _ (List.mem_singleton_self _))
  · split at hln
    · next hmu =>
      obtain ⟨a, ha, rfl⟩ := List.mem_map.mp hln
      refine htarget (List.mem_append_right _ (List.mem_append_left _ ?_))
      rw [if_pos hmu]
      exact mem_returnLocations.mp ha
    · cases hln
  · exact count_nonLocal hln

theorem LabelsOnce.insn (h : m.LabelsOnce env) (hi : i ∈ m.insns env)
    (hl : l ∈ named (i.marks env)) : (defined (allMarks (m.pass2Lines env))).count l = 1 := by
  refine h l ?_
  rw [named_pass2Lines]
  simp only [List.mem_append]
  exact .inr (.inr (.inl (mem_functionsNamed.mpr (.inl ⟨i, hi, hl⟩))))

theorem LabelsOnce.target (h : m.LabelsOnce env) (ha : a ∈ m.targets env) :
    (defined (allMarks (m.pass2Lines env))).count (.addr a) = 1 := by
  rcases List.mem_append.mp ha with ha | ha
  · obtain ⟨i, hi, ha⟩ := List.mem_flatMap.mp ha
    exact h.insn hi (Instruction.named_target ha)
  · refine h _ ?_
    rw [named_pass2Lines]
    simp only [List.mem_append]
    rcases List.mem_append.mp ha with ha | ha
    · split at ha
      · next hmu =>
        rw [if_pos hmu, if_pos hmu]
        exact .inr (.inr (.inr (.inr (.inl (.inr
          (List.mem_map_of_mem (mem_returnLocations.mpr ha)))))))
      · cases ha
    · split at ha
      · next hj =>
        rw [if_pos hj]
        exact .inr (.inr (.inr (.inl (List.mem_cons_of_mem _
          (List.mem_append_left _ (List.mem_map_of_mem ha))))))
      · cases ha

/-- What is jumped to is labelled. -/
theorem LabelsOnce.targets (h : m.LabelsOnce env) (ha : a ∈ m.targets env) :
    a ∈ m.entryPoints ++ (m.labelled env ++ (m.sites env ++ m.againAddresses env)) := by
  have hone := h.target ha
  rw [count_addr] at hone
  have hmem := List.count_pos_iff.mp (Nat.lt_of_lt_of_eq Nat.zero_lt_one hone.symm)
  simp only [List.mem_append] at hmem ⊢
  rcases hmem with hmem | hmem | hmem | hmem | hmem
  · exact .inl hmem
  · exact .inr (.inl hmem)
  · exact .inr (.inr (.inl hmem))
  · exact .inr (.inr (.inr hmem))
  · exact .inr (.inr (.inr ((againSites_subset env m).1 hmem)))

/-- The label of an entry point is on no other line. -/
theorem LabelsOnce.entries (h : m.LabelsOnce env) :
    m.entryPoints.Disjoint (m.labelled env ++ (m.sites env ++ m.againAddresses env)) := by
  intro a he ha
  have hone : (defined (allMarks (m.pass2Lines env))).count (.addr a) = 1 := by
    refine h _ ?_
    rw [named_pass2Lines]
    simp only [List.mem_append]
    have hmu : m.hasMultipleFunctions = true := by
      rw [entryPoints] at he
      split at he
      · assumption
      · cases he
    rw [if_pos hmu]
    exact .inr (.inl (List.mem_append_left _ (List.mem_map_of_mem he)))
  rw [count_addr] at hone
  have hce := List.count_pos_iff.mpr he
  have hca := List.count_pos_iff.mpr ha
  simp only [List.count_append] at hone hca
  omega

/-- The label of a `setjmp` or of the end of a `try` is on no other line. -/
theorem LabelsOnce.sites (h : m.LabelsOnce env) :
    (m.sites env).Disjoint (m.labelled env ++ m.againAddresses env) := by
  intro a hs ha
  obtain ⟨i, hi, hsite, rfl⟩ := mem_sites.mp hs
  obtain ⟨x, hx, hxn⟩ := handler_of_site hsite
  have hone : (defined (allMarks (m.pass2Lines env))).count (.addr i.address) = 1 := by
    refine h _ ?_
    rw [named_pass2Lines]
    simp only [List.mem_append]
    exact .inr (.inr (.inr (.inr (.inl (.inl
      (List.mem_flatMap.mpr ⟨x, mem_handlers_iff.mpr ⟨i, hi, hx⟩, hxn⟩))))))
  rw [count_addr] at hone
  have hcs := List.count_pos_iff.mpr hs
  have hcl := List.count_pos_iff.mpr ha
  simp only [List.count_append] at hone hcl
  omega

theorem LabelsOnce.handlers (h : m.LabelsOnce env) (hc : m.CatchesClasses env) :
    ((m.handlers env).map ExceptionHandler.label).Nodup := by
  rw [List.nodup_iff_count_le_one]
  intro l
  by_cases hl : l ∈ (m.handlers env).map ExceptionHandler.label
  · obtain ⟨x, hx, rfl⟩ := List.mem_map.mp hl
    obtain ⟨i, hi, hxi⟩ := mem_handlers_iff.mp hx
    have hone := h.insn hi (Instruction.named_handler (hc i hi) hxi)
    cases x with
    | exception start stop => exact Nat.le_of_eq ((count_handler ..).symm.trans hone)
    | setjmp start stop target => exact Nat.le_of_eq ((count_handler ..).symm.trans hone)
  · rw [List.count_eq_zero.mpr hl]
    exact Nat.zero_le 1

theorem LabelsOnce.jumps (h : m.LabelsOnce env) (hi : i ∈ m.insns env)
    (hr : i.isRegisterIndirectJump = true) : m.hasIndirectJumps = true := by
  have hone := h.insn hi (Instruction.named_localJumptab hr)
  rw [count_localJumptab] at hone
  by_contra hj
  rw [if_neg hj] at hone
  cases hone

theorem LabelsOnce.holds (h : m.LabelsOnce env) (hc : m.CatchesClasses env) :
    m.LabelsHold env where
  targets _ ha := h.targets ha
  entries := h.entries
  sites := h.sites
  handlers := h.handlers hc
  jumps hr := hr.elim fun _ hi => h.jumps hi.1 hi.2

end JavaMethod

/-- A method of one function of the symbol table. -/
theorem JavaMethod.made_of_symbol {m : JavaMethod} {array : List Entry} {ha : Attached array}
    (hm : m.functions = (Function.ofSymbol realName start array ha a b).toList) :
    m.Made array ∧ m.Of array := by
  cases hf : Function.ofSymbol realName start array ha a b with
  | none =>
    rw [hf] at hm
    exact absurd hm m.nonempty
  | some fn =>
    have hsub : fn.entries <:+: array := by
      rw [(Function.ofSymbol_slots hf).1, slice]
      exact (List.take_prefix ..).isInfix.trans (List.drop_suffix ..).isInfix
    rw [hf, Option.toList_some] at hm
    refine ⟨⟨ha, fun fn' hfn => ?_⟩, ⟨fun fn' hfn => ?_, ?_⟩⟩
    · rw [hm] at hfn
      cases List.mem_singleton.mp hfn
      exact ⟨_, _, _, _, hf⟩
    · rw [hm] at hfn
      cases List.mem_singleton.mp hfn
      exact hsub
    · rw [hm, List.flatMap_singleton]
      exact hsub.sublist.subperm

/-- `beq $a0, $zero` with an offset of `n` words, and `jr $ra` behind its delay slot. -/
def beqForward (n : Word) : List Word := [0x10800000 ||| n, 0, 0x03e00008, 0]

def beqForwardArray (n : Word) : List Entry := (Controller.pass0 0x1000 (beqForward n)).getD []

theorem beqForward_pass0 {n : Word} (h : n = 1 ∨ n = 2) :
    Controller.pass0 0x1000 (beqForward n) = some (beqForwardArray n) := by
  rcases h with rfl | rfl <;> rfl

def beqForwardFunction {n : Word} (h : n = 1 ∨ n = 2) : Option Function :=
  Function.ofSymbol "f" false (beqForwardArray n)
    (Controller.pass0_attached (beqForward_pass0 h)) 0 3

theorem beqForward_made {m : JavaMethod} {n : Word} (h : n = 1 ∨ n = 2)
    (hm : m.functions = (beqForwardFunction h).toList) :
    m.Made (beqForwardArray n) ∧ m.Of (beqForwardArray n) := JavaMethod.made_of_symbol hm

def beqToReturn : JavaMethod := ⟨(beqForwardFunction (.inl rfl)).toList, by decide⟩

def beqToDelaySlot : JavaMethod := ⟨(beqForwardFunction (.inr rfl)).toList, by decide⟩

/-- The program, where `pass1` has marked the target. -/
def beqForwardEnv (m : JavaMethod) (n : Word) : Env :=
  { Env.single {} m with isBranchTarget a := a == 0x1004 + (n <<< 2) }

end Cibyl
