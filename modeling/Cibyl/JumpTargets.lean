import Cibyl.DelaySlot
import Cibyl.JumpTable

namespace Cibyl
set_option autoImplicit true

open Jvm (Item Label Value World Runtime Runs findLabel)
open Mark (defined)
open Bc (allMarks lowerAll)

/-- A block of equal lines holds all of them where there are none before and behind it. -/
theorem replicate_of_append {x : α} (hp : x ∉ pre) (hc : x ∉ code)
    (h : pre ++ (List.replicate k x ++ code) = a ++ x :: post) :
    ∃ n, post = List.replicate n x ++ code := by
  induction pre generalizing a with
  | nil =>
    induction k generalizing a with
    | zero =>
      have h : code = a ++ x :: post := h
      rw [h] at hc
      exact absurd (List.mem_append_right _ (List.mem_cons_self ..)) hc
    | succ k ih =>
      cases a with
      | nil => exact ⟨k, (List.cons.inj h).2.symm⟩
      | cons y a => exact ih (List.cons.inj h).2
  | cons y pre ih =>
    cases a with
    | nil => exact absurd ((List.cons.inj h).1 ▸ List.mem_cons_self ..) hp
    | cons z a => exact ih (fun hm => hp (List.mem_cons_of_mem _ hm)) (List.cons.inj h).2

namespace Bc

theorem label?_eq_some {b : Bc} : b.label? = some l ↔ b = .item (.label l) := by
  constructor
  · intro h
    cases b with
    | item i =>
      cases i with
      | label l' =>
        cases h
        rfl
      | _ => cases h
    | _ => cases h
  · rintro rfl
    rfl

theorem mem_defined_iff : l ∈ defined (allMarks bs) ↔ .item (.label l) ∈ bs := by
  simp only [mem_defined, label?_eq_some, exists_eq_right]

end Bc

/-- A part of the code of the functions: the label of one, or a slot. -/
inductive Part where
  | start (a : Word)
  | slot (e : Entry)

namespace Part

def emit (env : Env) : Part → Emission
  | start a => .lines [.item (.label (.addr a))]
  | slot e => e.pass2 env

/-- The slot, if it is not the nop that a delay-slot instruction leaves behind. -/
def own? : Part → Option Entry
  | start _ => none
  | slot e => if e.insn.kind = .delaySlotNop then none else some e

end Part

namespace Entry

/-- What is emitted behind the label of the slot. -/
def bodyCode (env : Env) (e : Entry) : Emission :=
  (Emission.lines (e.traceCode env)).seq
    ((e.insn.pass2 env (e.delayedPass2 env)).seq (e.againCode env))

theorem pass2_body (env : Env) (e : Entry) (st : MethodState) : e.pass2 env st =
    ((if e.hasLabel env then [.item (.label (.addr e.insn.address))] else []) ++
      (e.bodyCode env st).1, (e.bodyCode env st).2) :=
  Prod.ext (List.append_assoc ..) rfl

/-- A computed jump to `v` enters the code of the slot: at the instruction, or at the second copy
of the one in its delay slot. -/
inductive Enters (env : Env) (v : Word) (s : Entry) : Instruction → Emission → Prop where
  | own (ha : s.insn.address = v) (hk : s.insn.kind ≠ .delaySlotNop) :
    Enters env v s s.insn (s.bodyCode env)
  | again {d : Instruction} (hd : s.delayed = some d) (ha : d.address = v) : Enters env v s d
      ((d.pass2 env .nothing).seq (.lines [.item (.label (.out v))]))

theorem kind_of_delayed {e : Entry} (h : e.delayed = some d) : e.insn.kind ≠ .delaySlotNop := by
  intro hk
  have hb : e.insn.hasDelaySlot = true := e.attached (by rw [h]; rfl)
  rw [Instruction.hasDelaySlot, Instruction.isBranch, hk] at hb
  cases hb

end Entry

namespace JavaMethod

def functionParts (env : Env) (m : JavaMethod) (fn : Function) : List Part :=
  (if m.hasMultipleFunctions then [.start fn.address] else []) ++ (fn.pass1 env).map .slot

def parts (env : Env) (m : JavaMethod) : List Part := m.functions.flatMap (m.functionParts env)

/-- The slots without the nops of delay slots. -/
def ownSlots (env : Env) (m : JavaMethod) : List Entry :=
  (m.slots env).filter (fun e => e.insn.kind != .delaySlotNop)

theorem functionCode_parts (env : Env) (m : JavaMethod) (fn : Function) :
    m.functionCode env fn = Emission.all ((m.functionParts env fn).map (Part.emit env)) := by
  rw [functionParts, List.map_append, Emission.all_append, List.map_map, functionCode]
  split
  · exact funext fun st => Prod.ext (congrArg (· ++ _) (List.append_nil _)).symm rfl
  · rfl

/-- The functions emit their parts one after the other. -/
theorem functionsCode_parts (env : Env) (m : JavaMethod) : m.functionsCode env =
    Emission.all ((m.parts env).map (Part.emit env)) ⟨[], m.catchHandlers env⟩ := by
  have h (fns : List Function) : Emission.all (fns.map (m.functionCode env)) =
      Emission.all ((fns.flatMap (m.functionParts env)).map (Part.emit env)) := by
    induction fns with
    | nil => rfl
    | cons fn fns ih =>
      rw [List.map_cons, List.flatMap_cons, List.map_append, Emission.all_append, ← ih,
        ← functionCode_parts]
      rfl
  exact congrFun (h m.functions) _

theorem ownSlots_parts (env : Env) (m : JavaMethod) :
    m.ownSlots env = (m.parts env).filterMap Part.own? := by
  have hs (es : List Entry) : (es.map Part.slot).filterMap Part.own? =
      es.filter (fun e => e.insn.kind != .delaySlotNop) := by
    induction es with
    | nil => rfl
    | cons e es ih =>
      rw [List.map_cons, List.filterMap_cons, List.filter_cons, ih, Part.own?]
      by_cases hk : e.insn.kind = .delaySlotNop
      · simp [hk]
      · simp [hk]
  rw [ownSlots, slots, parts, List.filter_flatMap, List.filterMap_flatMap]
  refine congrArg (List.flatMap · m.functions) (funext fun fn => ?_)
  rw [functionParts, List.filterMap_append, hs]
  split <;> rfl

theorem pass2Lines_functions (env : Env) (m : JavaMethod) : ∃ front, m.pass2Lines env =
    front ++ ((m.functionsCode env).1 ++
      (m.jumptabCode env ++ .item (.label .exceptionHandlers) :: m.backLines env)) := by
  have h := pass2Lines_eq env m
  rw [frontLines, List.append_assoc, List.append_assoc] at h
  exact ⟨_, h⟩

/-- The label stands before `code` wherever it is defined, with nothing but itself between. -/
def Denotes (env : Env) (m : JavaMethod) (l : Label) (code : List Bc) : Prop :=
  .item (.label l) ∈ m.pass2Lines env ∧
    ∀ pre post, m.pass2Lines env = pre ++ .item (.label l) :: post →
      ∃ n, post = List.replicate n (.item (.label l)) ++ code

/-- The part `s` goes on with the instruction at `a`, which is the next one of the method. -/
def Behind (env : Env) (m : JavaMethod) (s : Entry) (a : Word) (next : List Bc) : Prop :=
  ∃ (before : List Entry) (f : Entry) (after : List Entry) (ls : List Word) (st : MethodState)
      (more : List Bc), m.ownSlots env = before ++ s :: f :: after ∧ f.insn.address = a ∧
    next = ls.map (fun b => .item (.label (.addr b))) ++ ((f.pass2 env st).1 ++ more)

section

variable {m : JavaMethod} {array : List Entry} {text : List Word}

theorem denotes_of_count (hp : m.pass2Lines env =
      pre ++ (List.replicate (k + 1) (.item (.label l)) ++ code))
    (hc : (defined (allMarks (m.pass2Lines env))).count l = k + 1) : m.Denotes env l code := by
  have hrep : (defined (allMarks (List.replicate (k + 1) (.item (.label l))))).count l = k + 1 := by
    generalize k + 1 = n
    induction n with
    | zero => rfl
    | succ n ih =>
      rw [List.replicate_succ, Bc.allMarks_cons, Bc.marks_label, List.singleton_append,
        Mark.defined_defines, List.count_cons_self, ih]
  have hz : (defined (allMarks pre)).count l = 0 ∧ (defined (allMarks code)).count l = 0 := by
    rw [hp, Bc.allMarks_append, Bc.allMarks_append, Mark.defined_append, Mark.defined_append,
      List.count_append, List.count_append, hrep] at hc
    omega
  have hn {bs : List Bc} (h : (defined (allMarks bs)).count l = 0) :
      .item (.label l) ∉ bs := fun hm => List.count_eq_zero.mp h (Bc.mem_defined_iff.mpr hm)
  refine ⟨?_, fun a post h => ?_⟩
  · rw [hp, List.replicate_succ]
    exact List.mem_append_right _ (List.mem_append_left _ (List.mem_cons_self ..))
  · exact replicate_of_append (hn hz.1) (hn hz.2) (hp.symm.trans h)

/-- The code a label stands before does not define it again. -/
theorem Denotes.not_mem (h : m.Denotes env l code) : .item (.label l) ∉ code := by
  intro hm
  obtain ⟨hl, h⟩ := h
  obtain ⟨pre, post, hp⟩ := List.append_of_mem hl
  obtain ⟨n, hn⟩ := h pre post hp
  obtain ⟨xs, ys, hc⟩ := List.append_of_mem hm
  have hys : m.pass2Lines env = (pre ++ .item (.label l) ::
      (List.replicate n (.item (.label l)) ++ xs)) ++ .item (.label l) :: ys := by
    rw [hp, hn, hc]
    simp only [List.append_assoc, List.cons_append]
  obtain ⟨n', hy⟩ := h _ _ hys
  have hlen := congrArg List.length hy
  rw [hc, List.length_append, List.length_append, List.length_cons] at hlen
  omega

/-- A jump to a label goes through its definitions to the code. -/
theorem Denotes.runs (h : m.Denotes env l code) (rt : Runtime σ) (f : Jvm.Frame σ) :
    ∃ c, findLabel (m.pass2 env) l = some c ∧
      Runs rt (m.pass2 env) ⟨c, f⟩ ⟨lowerAll (m.pass1 env).regalloc code, f⟩ := by
  obtain ⟨hm, h⟩ := h
  obtain ⟨pre, post, hp, hpre⟩ := List.eq_append_cons_of_mem hm
  obtain ⟨n, hn⟩ := h pre post hp
  refine ⟨lowerAll (m.pass1 env).regalloc post, ?_, ?_⟩
  · have hf : Labelled.find Bc.label? l (pre ++ .item (.label l) :: post) = some post :=
      Labelled.find_append_label (fun b hb hl => hpre (Bc.label?_eq_some.mp hl ▸ hb)) rfl post
    rw [pass2, Bc.findLabel_lowerAll, hp, hf]
    rfl
  · rw [hn]
    clear hp hn
    induction n with
    | zero => exact .refl _
    | succ n ih => exact (Runs.label l _ f).trans ih

/-- The instructions of a method stand at different addresses. -/
theorem Of.insn_eq (hm : m.Of array) (hp : Controller.pass0 base text = some array)
    (hl : 4 * text.length ≤ 2 ^ 32) (hi : i ∈ m.insns env) (hj : j ∈ m.insns env)
    (hki : i.kind ≠ .delaySlotNop) (hkj : j.kind ≠ .delaySlotNop) (ha : i.address = j.address) :
    i = j := by
  have hmem {i : Instruction} (hi : i ∈ m.insns env) (hk : i.kind ≠ .delaySlotNop) :
      i ∈ (m.slots env).flatMap Entry.emitted := by
    obtain ⟨e, he, hi⟩ := mem_insns_slot.mp hi
    exact List.mem_flatMap.mpr ⟨e, he, List.mem_filter.mpr ⟨hi, bne_iff_ne.mpr hk⟩⟩
  exact List.inj_on_of_nodup_map (hm.emitted_nodup hp hl env) (hmem hi hki) (hmem hj hkj) ha

/-- What stands at `i` is no catch and no call of `__NOPH_setjmp`. -/
theorem Of.not_mem_sites (hm : m.Of array) (hp : Controller.pass0 base text = some array)
    (hl : 4 * text.length ≤ 2 ^ 32) (hi : i ∈ m.insns env) (hk : i.kind ≠ .delaySlotNop)
    (hs : i.isSite env = false) : i.address ∉ m.sites env := by
  intro h
  obtain ⟨j, hj, hsj, ha⟩ := mem_sites.mp h
  rw [hm.insn_eq hp hl hj hi (isSite_emitted hsj) hk ha, hs] at hsj
  cases hsj

theorem not_mem_againSites (h : a ∉ m.sites env) : a ∉ m.againSites env :=
  fun ha => h ((againSites_subset env m).2 ha)

theorem mem_labelled (he : e ∈ m.slots env) (hl : e.hasLabel env = true) :
    e.insn.address ∈ m.labelled env :=
  List.mem_map_of_mem (List.mem_filter.mpr ⟨he, hl⟩)

theorem mem_agains (he : e ∈ m.slots env) (hd : e.delayed = some d)
    (hl : env.hasJumptabLabel d.address = true) : d.address ∈ m.againAddresses env := by
  refine List.mem_map_of_mem (List.mem_flatMap.mpr ⟨e, he, List.mem_filter.mpr ⟨?_, hl⟩⟩)
  exact Option.mem_toList.mpr hd

/-- The label of a slot is defined by the slot, and once more where a function begins with it. -/
theorem Of.count_own (hm : m.Of array) (hmade : m.Made array)
    (hp : Controller.pass0 base text = some array) (hl : 4 * text.length ≤ 2 ^ 32)
    (he : e ∈ m.slots env) (hk : e.insn.kind ≠ .delaySlotNop) (hlab : e.hasLabel env = true)
    (hs : e.insn.isSite env = false) :
    (defined (allMarks (m.pass2Lines env))).count (.addr e.insn.address) =
      (if e.insn.address ∈ m.entryPoints then 1 else 0) + 1 := by
  have hi : e.insn ∈ m.insns env := mem_insns_slot.mpr ⟨e, he, List.mem_cons_self ..⟩
  have hns := hm.not_mem_sites hp hl hi hk hs
  have hlabel := mem_labelled he hlab
  have hagain := labelled_disjoint hm hp hl env hlabel
  rw [count_addr, List.count_append, List.count_append, List.count_append, List.count_append,
    List.count_eq_one_of_mem (labelled_nodup hm hp hl env) hlabel, List.count_eq_zero.mpr hns,
    List.count_eq_zero.mpr hagain, List.count_eq_zero.mpr (not_mem_againSites hns)]
  split
  · next h => rw [List.count_eq_one_of_mem (entryPoints_nodup hmade hm hp hl) h]
  · next h => rw [List.count_eq_zero.mpr h]

/-- The label of a second copy is defined there only. -/
theorem Of.count_again (hm : m.Of array) (hp : Controller.pass0 base text = some array)
    (hl : 4 * text.length ≤ 2 ^ 32) (he : e ∈ m.slots env) (hd : e.delayed = some d)
    (hk : d.kind ≠ .delaySlotNop) (hlab : env.hasJumptabLabel d.address = true)
    (hs : d.isSite env = false) :
    (defined (allMarks (m.pass2Lines env))).count (.addr d.address) =
      m.entryPoints.count d.address + 1 := by
  have hi : d ∈ m.insns env :=
    mem_insns_slot.mpr ⟨e, he, List.mem_cons_of_mem _ (Option.mem_toList.mpr hd)⟩
  have hns := hm.not_mem_sites hp hl hi hk hs
  have hagain := mem_agains he hd hlab
  have hlabel := fun h => labelled_disjoint hm hp hl env h hagain
  rw [count_addr, List.count_append, List.count_append, List.count_append, List.count_append,
    List.count_eq_zero.mpr hlabel, List.count_eq_zero.mpr hns,
    List.count_eq_one_of_mem (agains_nodup hm hp hl env) hagain,
    List.count_eq_zero.mpr (not_mem_againSites hns)]

theorem Made.delaySlotNop (hm : m.Made array) (hp : Controller.pass0 base text = some array)
    (he : e ∈ m.slots env) (hk : e.insn.kind = .delaySlotNop) : e.IsDelaySlotNop := by
  obtain ⟨e₀, he₀, hr⟩ := hm.slot he
  cases hr with
  | kept =>
    rcases (Controller.mem_pass0 hp he₀).1 with ⟨word, -, hc⟩ | ⟨-, ho⟩
    · exact absurd hk (create_not_delaySlotNop hc)
    · exact ⟨hk, ho⟩
  | tailCall => cases hk
  | pruned => cases hk

theorem Made.delayed_kind (hm : m.Made array) (hp : Controller.pass0 base text = some array)
    (he : e ∈ m.slots env) (hd : e.delayed = some d) : d.kind ≠ .delaySlotNop := by
  obtain ⟨e₀, he₀, hr⟩ := hm.slot he
  have h {d : Instruction} (hd : e₀.delayed = some d) : d.kind ≠ .delaySlotNop := by
    obtain ⟨word, -, hc⟩ := (Controller.mem_pass0 hp he₀).2 d hd
    exact create_not_delaySlotNop hc
  cases hr with
  | kept => exact h hd
  | tailCall => exact h hd
  | pruned => cases hd

theorem mem_parts : .slot e ∈ m.parts env ↔ e ∈ m.slots env := by
  simp only [parts, functionParts, slots, List.mem_flatMap, List.mem_append, List.mem_map,
    Part.slot.injEq, exists_eq_right]
  refine exists_congr fun fn => and_congr_right fun _ => or_iff_right fun h => ?_
  split at h
  · cases List.mem_singleton.mp h
  · cases h

/-- The label of a function stands before the slot that it begins with. -/
theorem parts_entry (hm : m.Of array) (hmade : m.Made array)
    (hp : Controller.pass0 base text = some array) (hl : 4 * text.length ≤ 2 ^ 32)
    (he : e ∈ m.slots env) (ha : e.insn.address ∈ m.entryPoints) : ∃ ps qs,
    m.parts env = ps ++ .start e.insn.address :: .slot e :: qs := by
  rw [entryPoints] at ha
  split at ha
  case isFalse => cases ha
  case isTrue hmu =>
    obtain ⟨fn, hf, ha⟩ := List.mem_map.mp ha
    obtain ⟨hat, hsym⟩ := hmade
    obtain ⟨name, start, a, b, hs⟩ := hsym fn hf
    obtain ⟨e₀, es₀, hsl, hadd, -⟩ := Function.ofSymbol_eq hs
    have hr := fn.pass1_replaced env
    rw [(Function.ofSymbol_slots hs).1, hsl] at hr
    generalize hes : fn.pass1 env = es at hr
    cases hr with
    | @cons _ e₁ _ es₁ hr₁ _ =>
      have he₁ : e₁ ∈ m.slots env :=
        List.mem_flatMap.mpr ⟨fn, hf, hes ▸ List.mem_cons_self ..⟩
      have heq : e₁ = e := List.inj_on_of_nodup_map (hm.slot_nodup hp hl env) he₁ he
        (hr₁.address.trans (hadd.symm.trans ha))
      obtain ⟨fs₁, fs₂, hfs⟩ := List.append_of_mem hf
      refine ⟨fs₁.flatMap (m.functionParts env),
        es₁.map .slot ++ fs₂.flatMap (m.functionParts env), ?_⟩
      rw [parts, hfs, List.flatMap_append, List.flatMap_cons, functionParts, if_pos hmu, hes, heq,
        ha]
      rfl

/-- Behind a slot come its successor's label or nothing, and then its successor. -/
theorem parts_behind (hm : m.Of array) (hp : Controller.pass0 base text = some array)
    (hl : 4 * text.length ≤ 2 ^ 32) (hs : m.parts env = ps ++ .slot e :: qs)
    (hk : e.insn.kind ≠ .delaySlotNop) (ho : m.ownSlots env = before ++ e :: f :: after) :
    ∃ qs₁ qs₂, qs = qs₁ ++ .slot f :: qs₂ ∧ ∀ p ∈ qs₁, p.own? = none := by
  have hn : (m.ownSlots env).Nodup :=
    List.Nodup.of_map (fun e => e.insn.address)
      ((List.filter_sublist.map _).nodup (hm.slot_nodup hp hl env))
  have hown : Part.own? (.slot e) = some e := if_neg hk
  have hsplit := ho
  rw [ownSlots_parts, hs, List.filterMap_append, List.filterMap_cons_some hown] at hsplit
  rw [ho] at hn
  obtain ⟨-, hn, hd⟩ := List.nodup_append.mp hn
  have hb : e ∉ before := fun h => hd e h e (List.mem_cons_self ..) rfl
  obtain ⟨-, -, hq⟩ := (List.append_cons_inj_of_notMem hb (List.nodup_cons.mp hn).1).mp hsplit.symm
  obtain ⟨qs₁, p, qs₂, hqs, hnone, hp, -⟩ := List.filterMap_eq_cons_iff.mp hq.symm
  refine ⟨qs₁, qs₂, ?_, hnone⟩
  cases p with
  | start a => cases hp
  | slot g =>
    rw [Part.own?] at hp
    split at hp
    · cases hp
    · cases hp
      exact hqs

/-- What is no slot of its own emits a label at most. -/
theorem emit_labels (hmade : m.Made array) (hp : Controller.pass0 base text = some array)
    {ps : List Part} (hps : ∀ p ∈ ps, p ∈ m.parts env) (hn : ∀ p ∈ ps, p.own? = none)
    (st : MethodState) : ∃ ls : List Word, (Emission.all (ps.map (Part.emit env)) st).1 =
      ls.map (fun b => .item (.label (.addr b))) := by
  induction ps generalizing st with
  | nil => exact ⟨[], rfl⟩
  | cons p ps ih =>
    obtain ⟨ls, hls⟩ := ih (fun q hq => hps q (List.mem_cons_of_mem _ hq))
      (fun q hq => hn q (List.mem_cons_of_mem _ hq)) (p.emit env st).2
    rw [List.map_cons, Emission.all_cons_lines, hls]
    cases p with
    | start a => exact ⟨a :: ls, rfl⟩
    | slot e =>
      have hk : e.insn.kind = .delaySlotNop := by
        have h := hn _ (List.mem_cons_self ..)
        rw [Part.own?] at h
        split at h
        · assumption
        · cases h
      have he := mem_parts.mp (hps _ (List.mem_cons_self ..))
      refine ⟨ls, ?_⟩
      rw [Part.emit, Entry.pass2_nop (hmade.delaySlotNop hp he hk), List.nil_append]

/-- The lines of a slot, between those of the parts before it and its successor's. -/
theorem lines_slot (hm : m.Of array) (hmade : m.Made array)
    (hp : Controller.pass0 base text = some array) (hl : 4 * text.length ≤ 2 ^ 32)
    (hs : m.parts env = ps ++ .slot e :: qs) (hk : e.insn.kind ≠ .delaySlotNop) :
    ∃ front st next, m.pass2Lines env = front ++
        ((Emission.all (ps.map (Part.emit env)) ⟨[], m.catchHandlers env⟩).1 ++
          ((e.pass2 env st).1 ++ next)) ∧
      ∀ before f after, m.ownSlots env = before ++ e :: f :: after →
        m.Behind env e f.insn.address next := by
  obtain ⟨front, hlines⟩ := pass2Lines_functions env m
  have hf : m.functionsCode env = ((Emission.all (ps.map (Part.emit env))).seq
      ((e.pass2 env).seq (Emission.all (qs.map (Part.emit env))))) ⟨[], m.catchHandlers env⟩ := by
    rw [functionsCode_parts, hs, List.map_append, Emission.all_append]
    rfl
  rw [hf, Emission.seq_lines, Emission.seq_lines, List.append_assoc, List.append_assoc] at hlines
  refine ⟨front, _, _, hlines, fun before f after ho => ?_⟩
  obtain ⟨qs₁, qs₂, rfl, hn⟩ := parts_behind hm hp hl hs hk ho
  have hmem : ∀ p ∈ qs₁, p ∈ m.parts env := fun p h => hs ▸ List.mem_append_right _
    (List.mem_cons_of_mem _ (List.mem_append_left _ h))
  generalize (e.pass2 env _).2 = st
  obtain ⟨ls, hls⟩ := emit_labels hmade hp hmem hn st
  let st₁ := (Emission.all (qs₁.map (Part.emit env)) st).2
  let more := (Emission.all (qs₂.map (Part.emit env)) (f.pass2 env st₁).2).1
  refine ⟨before, f, after, ls, st₁, more ++ (m.jumptabCode env ++
    .item (.label .exceptionHandlers) :: m.backLines env), ho, rfl, ?_⟩
  rw [List.map_append, Emission.all_append, Emission.seq_lines, hls, List.map_cons,
    Emission.all_cons_lines, List.append_assoc, List.append_assoc]
  rfl

/-- The label of a slot denotes the code of its instruction, with the next one behind it. -/
theorem enters_own (hm : m.Of array) (hmade : m.Made array)
    (hp : Controller.pass0 base text = some array) (hl : 4 * text.length ≤ 2 ^ 32)
    (he : e ∈ m.slots env) (hk : e.insn.kind ≠ .delaySlotNop) (hlab : e.hasLabel env = true)
    (hs : e.insn.isSite env = false) : ∃ st next,
      m.Denotes env (.addr e.insn.address) ((e.bodyCode env st).1 ++ next) ∧
        ∀ before f after, m.ownSlots env = before ++ e :: f :: after →
          m.Behind env e f.insn.address next := by
  have hc := hm.count_own hmade hp hl he hk hlab hs
  have hemit (st : MethodState) : (e.pass2 env st).1 =
      .item (.label (.addr e.insn.address)) :: (e.bodyCode env st).1 := by
    rw [Entry.pass2_body, if_pos hlab]
    rfl
  by_cases ha : e.insn.address ∈ m.entryPoints
  · obtain ⟨ps, qs, hps⟩ := parts_entry hm hmade hp hl he ha
    have hps : m.parts env = (ps ++ [.start e.insn.address]) ++ .slot e :: qs :=
      hps.trans (List.append_assoc ps [_] _).symm
    obtain ⟨front, st, next, hlines, hbehind⟩ := lines_slot hm hmade hp hl hps hk
    rw [if_pos ha] at hc
    rw [List.map_append, Emission.all_append, Emission.seq_lines, hemit, List.append_assoc,
      ← List.append_assoc front] at hlines
    exact ⟨st, next, denotes_of_count (k := 1) hlines hc, hbehind⟩
  · obtain ⟨ps, qs, hps⟩ := List.append_of_mem (mem_parts.mpr he)
    obtain ⟨front, st, next, hlines, hbehind⟩ := lines_slot hm hmade hp hl hps hk
    rw [if_neg ha] at hc
    rw [hemit, ← List.append_assoc front] at hlines
    exact ⟨st, next, denotes_of_count (k := 0) hlines hc, hbehind⟩

/-- So does that of a second copy. -/
theorem enters_again (hm : m.Of array) (hmade : m.Made array)
    (hp : Controller.pass0 base text = some array) (hl : 4 * text.length ≤ 2 ^ 32)
    (he : e ∈ m.slots env) (hd : e.delayed = some d) (hlab : env.hasJumptabLabel d.address = true)
    (hs : d.isSite env = false) (ha : d.address ∉ m.entryPoints) : ∃ st next,
      m.Denotes env (.addr d.address) (((d.pass2 env .nothing).seq
          (.lines [.item (.label (.out d.address))]) st).1 ++ next) ∧
        ∀ before f after, m.ownSlots env = before ++ e :: f :: after →
          m.Behind env e f.insn.address next := by
  have hc := hm.count_again hp hl he hd (hmade.delayed_kind hp he hd) hlab hs
  rw [List.count_eq_zero.mpr ha] at hc
  have hb : e.insn.hasDelaySlot = true := e.attached (by rw [hd]; rfl)
  obtain ⟨ps, qs, hps⟩ := List.append_of_mem (mem_parts.mpr he)
  obtain ⟨front, st, next, hlines, hbehind⟩ := lines_slot hm hmade hp hl hps
    (Entry.kind_of_delayed hd)
  rw [Entry.pass2_lines, Entry.againCode_lines hd hb hlab] at hlines
  let st' := (e.insn.pass2 env (e.delayedPass2 env) st).2
  let before := front ++ ((Emission.all (ps.map (Part.emit env)) ⟨[], m.catchHandlers env⟩).1 ++
    (e.headCode env ++ ((e.insn.pass2 env (e.delayedPass2 env) st).1 ++
      [.item (.goto (.out d.address))])))
  have hlines : m.pass2Lines env = before ++ (List.replicate 1 (.item (.label (.addr d.address))) ++
      (((d.pass2 env .nothing).seq (.lines [.item (.label (.out d.address))]) st').1 ++ next)) := by
    rw [hlines]
    simp only [before, List.append_assoc]
    rfl
  exact ⟨st', next, denotes_of_count (k := 0) hlines hc, hbehind⟩

end

end JavaMethod

end Cibyl
