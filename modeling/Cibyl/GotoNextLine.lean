import Cibyl.Library.Simulation
import Cibyl.Optimizer

namespace Cibyl
set_option autoImplicit true

namespace Jvm

/-- What a step does at two places with one frame: it goes on to two places in `R`, or it leaves the
method in one way. What the first is stuck at, the other may do in some way. -/
inductive NextAt (R : List Item → List Item → Prop) : Next σ → Next σ → Prop where
  | run (h : R c c') (f : Frame σ) : NextAt R (.run ⟨c, f⟩) (.run ⟨c', f⟩)
  | leave {n : Next σ} (h : n.result?.isSome = true) : NextAt R n n
  | stuck (n : Next σ) : NextAt R .stuck n

/-- The jumps to a label go to places in `R`. -/
def JumpsAt (R : List Item → List Item → Prop) (body body' : List Item) (l : Label) : Prop :=
  ∀ d, findLabel body l = some d → ∃ d', findLabel body' l = some d' ∧ R d d'

section

variable {σ : Type} {rt : Runtime σ} {body body' c c' : List Item}
  {R : List Item → List Item → Prop}

theorem jump_at (h : JumpsAt R body body' l) (f : Frame σ) :
    NextAt R (jump body l f) (jump body' l f) := by
  rw [jump]
  split
  · next d hd =>
    obtain ⟨d', hd', hr⟩ := h d hd
    rw [jump, hd']
    exact .run hr f
  · exact .stuck _

/-- A line that is no call of a subroutine does the same at two places. -/
theorem step_at {i : Item} (hs : i.isSubroutine = false)
    (hj : ∀ l ∈ i.targets, JumpsAt R body body' l) (hc : R c c') (f : Frame σ) :
    NextAt R (step rt body ⟨i :: c, f⟩) (step rt body' ⟨i :: c', f⟩) := by
  obtain ⟨s, lo, w⟩ := f
  cases i with
  | op o =>
    rw [step, step]
    cases o.exec rt ⟨s, lo, w⟩ with
    | ok g => exact .run hc g
    | throw e w => exact .leave rfl
    | stuck => exact .stuck _
  | label l => exact .run hc _
  | catch_ => exact .run hc _
  | goto l => exact jump_at (hj l (List.mem_singleton_self _)) _
  | cond1 k l =>
    cases s with
    | nil => exact .stuck _
    | cons v s =>
      cases v with
      | int x =>
        rw [step, step]
        split
        · exact jump_at (hj l (List.mem_singleton_self _)) _
        · exact .run hc _
      | _ => exact .stuck _
  | cond2 k l =>
    cases s with
    | nil => exact .stuck _
    | cons v s =>
      cases v with
      | int y =>
        cases s with
        | nil => exact .stuck _
        | cons u s =>
          cases u with
          | int x =>
            rw [step, step]
            split
            · exact jump_at (hj l (List.mem_singleton_self _)) _
            · exact .run hc _
          | _ => exact .stuck _
      | _ => exact .stuck _
  | jsr | ret => cases hs
  | tableswitch ts d =>
    cases s with
    | nil => exact .stuck _
    | cons v s =>
      cases v with
      | int x =>
        refine jump_at (hj _ ?_) _
        rw [List.getD_eq_getElem?_getD]
        cases h : ts[x.toNat]? with
        | none => exact List.mem_cons_self ..
        | some l => exact List.mem_cons_of_mem _ (List.mem_of_getElem? h)
      | _ => exact .stuck _
  | lookupswitch cs d =>
    cases s with
    | nil => exact .stuck _
    | cons v s =>
      cases v with
      | int x =>
        refine jump_at (hj _ ?_) _
        cases h : cs.lookup x with
        | none => exact List.mem_cons_self ..
        | some l =>
          refine List.mem_cons_of_mem _ (List.mem_map.mpr ⟨(x, l), ?_, rfl⟩)
          exact Rewrite.mem_of_lookup h
      | _ => exact .stuck _
  | ireturn =>
    rcases s with _ | ⟨⟨⟩, s⟩ <;> first | exact .leave rfl | exact .stuck _
  | lreturn =>
    rcases s with _ | ⟨⟨⟩, s⟩ <;> first | exact .leave rfl | exact .stuck _
  | return_ => exact .leave rfl
  | athrow =>
    rcases s with _ | ⟨⟨⟩, s⟩ <;> first | exact .leave rfl | exact .stuck _
  | abort => exact .stuck _

end

end Jvm

namespace Peephole

open Jvm (Item Label Frame Runtime Runs Ends NextAt JumpsAt step findLabel jump step_at)

/-- A `goto` to a label behind it, with nothing but labels between them. -/
structure GotoNext where
  before : List Item
  name : Label
  between : List Item
  after : List Item
  labels : ∀ i ∈ between, i.label?.isSome = true
  once : (labelsOf (before ++ .goto name :: (between ++ .label name :: after))).Nodup

namespace GotoNext

/-- What follows the `goto`. -/
def rest (g : GotoNext) : List Item := g.between ++ .label g.name :: g.after

def source (g : GotoNext) : List Item := g.before ++ .goto g.name :: g.rest

def target (g : GotoNext) : List Item := g.before ++ g.rest

/-- The same place in the two bodies. -/
def Code (g : GotoNext) (c c' : List Item) : Prop :=
  (∃ a, a <:+ g.before ∧ c = a ++ .goto g.name :: g.rest ∧ c' = a ++ g.rest) ∨
    c <:+ g.rest ∧ c' = c

variable {g : GotoNext}

theorem Code.suffix (h : g.Code c c') : c <:+ g.source := by
  rcases h with ⟨a, ⟨t, ht⟩, rfl, -⟩ | ⟨h, -⟩
  · exact ⟨t, by rw [source, ← List.append_assoc, ht]⟩
  · exact h.trans ((List.suffix_cons _ _).trans (List.suffix_append _ _))

theorem find_code (a : List Item) (l : Label)
    (h : findLabel (a ++ .goto g.name :: g.rest) l = some d) :
    ∃ d', findLabel (a ++ g.rest) l = some d' ∧
      ((∃ b, b <:+ a ∧ d = b ++ .goto g.name :: g.rest ∧ d' = b ++ g.rest) ∨
        d <:+ g.rest ∧ d' = d) := by
  induction a with
  | nil =>
    have hne : (Item.goto g.name).label? ≠ some l := fun h => by cases h
    rw [List.nil_append, findLabel, Labelled.find_of_ne hne] at h
    exact ⟨d, h, .inr ⟨Labelled.find_suffix h, rfl⟩⟩
  | cons i a ih =>
    by_cases hi : i.label? = some l
    · rw [List.cons_append, findLabel, Labelled.find_of_label hi] at h
      cases h
      refine ⟨_, ?_, .inl ⟨a, List.suffix_cons i a, rfl, rfl⟩⟩
      rw [List.cons_append, findLabel, Labelled.find_of_label hi]
    · rw [List.cons_append, findLabel, Labelled.find_of_ne hi] at h
      obtain ⟨d', hd', hc⟩ := ih h
      refine ⟨d', ?_, ?_⟩
      · rw [List.cons_append, findLabel, Labelled.find_of_ne hi]
        exact hd'
      · rcases hc with ⟨b, hb, hd, hd'⟩ | hc
        · exact .inl ⟨b, hb.trans (List.suffix_cons i a), hd, hd'⟩
        · exact .inr hc

theorem jumps (g : GotoNext) (l : Label) : JumpsAt g.Code g.source g.target l := by
  intro d hd
  obtain ⟨d', hd', hc⟩ := find_code g.before l hd
  exact ⟨d', hd', hc⟩

/-- The `goto` leads behind the label, which is the only one of the name. -/
theorem findLabel_name (g : GotoNext) : findLabel g.source g.name = some g.after := by
  have honce := g.once
  rw [labelsOf_append] at honce
  have hb := (List.nodup_append.mp honce).2.2
  have hr : (labelsOf (g.between ++ .label g.name :: g.after)).Nodup :=
    (List.nodup_append.mp honce).2.1
  rw [labelsOf_append] at hr
  have hname : g.name ∈ labelsOf (.label g.name :: g.after) := List.mem_cons_self ..
  have hnot : ∀ i ∈ g.before ++ .goto g.name :: g.between, i.label? ≠ some g.name := by
    intro i hi hl
    rcases List.mem_append.mp hi with hi | hi
    · refine hb _ (List.mem_filterMap.mpr ⟨i, hi, hl⟩) g.name ?_ rfl
      exact List.mem_filterMap.mpr ⟨.label g.name, by simp, rfl⟩
    rcases List.mem_cons.mp hi with rfl | hi
    · cases hl
    · exact (List.nodup_append.mp hr).2.2 _ (List.mem_filterMap.mpr ⟨i, hi, hl⟩) _ hname rfl
  have hsplit : g.source = (g.before ++ .goto g.name :: g.between) ++ .label g.name :: g.after := by
    rw [source, rest, List.append_assoc, List.cons_append]
  rw [hsplit]
  exact Labelled.find_append_label hnot rfl _

section

variable {σ : Type} {rt : Runtime σ}

/-- Labels are passed. -/
theorem runs_labels {b : List Item} (h : ∀ i ∈ b, i.label?.isSome = true) (body c : List Item)
    (f : Frame σ) : Runs rt body ⟨b ++ c, f⟩ ⟨c, f⟩ := by
  induction b with
  | nil => exact Runs.refl _
  | cons i b ih =>
    have hi := h i (List.mem_cons_self ..)
    have hrest := ih fun j hj => h j (List.mem_cons_of_mem _ hj)
    cases i with
    | label l => exact (Runs.label l _ f).trans hrest
    | _ => cases hi

theorem runs_rest (g : GotoNext) (body : List Item) (f : Frame σ) :
    Runs rt body ⟨g.rest, f⟩ ⟨g.after, f⟩ :=
  (runs_labels g.labels body _ f).trans (Runs.label g.name g.after f)

/-- The two runs are at the same place. -/
def Sim (g : GotoNext) (x x' : Jvm.Config σ) : Prop := x'.frame = x.frame ∧ g.Code x.code x'.code

/-- At the `goto`, the other run goes past the labels. Elsewhere the two do the same. -/
theorem Sim.step {x x' : Jvm.Config σ} (h : g.Sim x x') (rt : Runtime σ)
    (hs : ∀ i ∈ g.source, i.isSubroutine = false) :
    (∃ y y', step rt g.source x = .run y ∧ Runs rt g.target x' y' ∧ g.Sim y y') ∨
      NextAt g.Code (step rt g.source x) (step rt g.target x') := by
  obtain ⟨c, f⟩ := x
  obtain ⟨c', f'⟩ := x'
  obtain ⟨hf, hc⟩ := h
  obtain rfl : f' = f := hf
  have hbody := hc.suffix
  have hline {i : Item} {d d' : List Item} (hi : i :: d <:+ g.source) (hd : g.Code d d') :
      NextAt g.Code (Jvm.step rt g.source ⟨i :: d, f'⟩) (Jvm.step rt g.target ⟨i :: d', f'⟩) :=
    step_at (hs i (hi.subset (List.mem_cons_self ..))) (fun l _ => g.jumps l) hd f'
  rcases hc with ⟨a, ha, hc, hc'⟩ | ⟨hc, hc'⟩
  · dsimp only at hc hc'
    subst hc hc'
    cases a with
    | nil =>
      refine .inl ⟨⟨g.after, f'⟩, ⟨g.after, f'⟩, ?_, g.runs_rest _ f', rfl, .inr ⟨?_, rfl⟩⟩
      · rw [List.nil_append, Jvm.step, jump, g.findLabel_name]
      · exact (List.suffix_cons _ _).trans (List.suffix_append _ _)
    | cons i a =>
      exact .inr (hline hbody (.inl ⟨a, (List.suffix_cons i a).trans ha, rfl, rfl⟩))
  · dsimp only at hc hc'
    subst hc'
    cases c' with
    | nil => exact .inr (.stuck _)
    | cons i c => exact .inr (hline hbody (.inr ⟨(List.suffix_cons i c).trans hc, rfl⟩))

theorem forward (g : GotoNext) (rt : Runtime σ) (hs : ∀ i ∈ g.source, i.isSubroutine = false) :
    Simulation.Forward (fun x y => step rt g.source x = .run y)
      (fun x y => step rt g.target x = .run y) g.Sim := by
  intro x y x' hx hy
  rcases hx.step rt hs with ⟨z, z', hz, hrun, hsim⟩ | hn
  · obtain rfl : y = z := by
      cases hy.symm.trans hz
      rfl
    exact ⟨z', hrun, hsim⟩
  · rw [hy] at hn
    generalize hz : step rt g.target x' = n at hn
    cases hn with
    | run hc f => exact ⟨_, Runs.of_step hz, rfl, hc⟩
    | leave h => cases h

end

/-- Without the `goto`, the method is left in the same ways. -/
theorem sameEnds (g : GotoNext) (hs : ∀ i ∈ g.source, i.isSubroutine = false) :
    SameEnds g.source g.target := by
  intro σ rt f r _ _ h
  obtain ⟨d, hd, hr⟩ := h
  have hstart : g.Sim ⟨g.source, f⟩ ⟨g.target, f⟩ := ⟨rfl, .inl ⟨_, List.suffix_rfl, rfl, rfl⟩⟩
  obtain ⟨d', hd', hsim⟩ := (g.forward rt hs).run hstart hd
  rcases hsim.step rt hs with ⟨y, y', hy, -, -⟩ | hn
  · rw [hy] at hr
    cases hr
  · refine ⟨d', hd', ?_⟩
    generalize step rt g.source d = n at hn hr
    generalize step rt g.target d' = n' at hn
    cases hn with
    | run => cases hr
    | leave => exact hr
    | stuck => cases hr

end GotoNext

/-- `MatchClass` of `goto_next_line.py` with one label, and `MatchClass2` with two. -/
def gotoNextLine (n : Nat) : Template Piece Class where
  classes := .goto :: List.replicate n .label
  accepts _ items :=
    match items.head?, items[n]? with
    | some (Piece.goto l), some (Piece.label l') => .ok (l == l')
    | _, _ => .ok false
  execute _ items := .ok (items.set 0 .nop)

theorem gotoNextLine_accepts (n : Nat) (contents items : List Piece) :
    ∃ b, (gotoNextLine n).accepts contents items = .ok b ∧
      (b = true → ∃ l, items.head? = some (.goto l) ∧ items[n]? = some (.label l)) := by
  rw [gotoNextLine]
  dsimp only
  split
  · next l l' h0 hn =>
    refine ⟨_, rfl, fun h => ⟨l, h0, ?_⟩⟩
    rw [hn, eq_of_beq h]
  · exact ⟨false, rfl, fun h => by cases h⟩

theorem label_items {p : Piece} (h : p.isInstance .label = true) :
    p.isNop = false ∧ ∀ i ∈ p.items, i.label?.isSome = true := by
  cases p with
  | label l =>
    refine ⟨rfl, fun i hi => ?_⟩
    obtain rfl := List.mem_singleton.mp hi
    rfl
  | defaultLabel l => exact ⟨rfl, fun i hi => by cases hi⟩
  | _ => cases h

theorem forall₂_labels {ps : List Piece} (h : List.Forall₂ (fun c (p : Piece) =>
    p.isInstance c = true) (List.replicate n .label) ps) :
    ps.length = n ∧ ∀ p ∈ ps, p.isInstance .label = true := by
  induction n generalizing ps with
  | zero =>
    cases h
    exact ⟨rfl, fun p hp => by cases hp⟩
  | succ n ih =>
    cases h with
    | cons hp h =>
      obtain ⟨hlen, hrest⟩ := ih h
      refine ⟨congrArg Nat.succ hlen, fun q hq => ?_⟩
      rcases List.mem_cons.mp hq with rfl | hq
      · exact hp
      · exact hrest q hq

/-- The window of the template is a `goto`, labels, and the label that it goes to. -/
theorem gotoNextLine_window {items : List Piece}
    (hcl : List.Forall₂ (fun c (p : Piece) => p.isInstance c = true) (gotoNextLine (n + 1)).classes
      items) (hl : items.head? = some (.goto l)) (hn : items[n + 1]? = some (.label l)) :
    ∃ mid, items = .goto l :: (mid ++ [.label l]) ∧
      ∀ p ∈ mid, p.isInstance .label = true := by
  cases items with
  | nil => cases hl
  | cons p labs =>
    obtain rfl : p = .goto l := Option.some.inj hl
    obtain ⟨hlen, hlabs⟩ := forall₂_labels (List.forall₂_cons.mp hcl).2
    rw [List.getElem?_cons_succ] at hn
    refine ⟨labs.dropLast, ?_, fun p hp => hlabs p (List.mem_of_mem_dropLast hp)⟩
    have hlast : labs.getLast? = some (.label l) := by
      rw [List.getLast?_eq_getElem?, hlen, Nat.add_sub_cancel]
      exact hn
    rw [List.dropLast_append_getLast? _ hlast]

theorem emit_labels {ps : List Piece} (h : ∀ p ∈ ps, p.isInstance .label = true) :
    ∀ i ∈ emit ps, i.label?.isSome = true := by
  intro i hi
  obtain ⟨p, hp, hi⟩ := List.mem_flatMap.mp hi
  exact (label_items (h p hp)).2 i hi

/-- The template puts a nop in the place of the `goto`, and keeps the labels. -/
theorem gotoNextLine_change {before after : List Piece}
    (h : (gotoNextLine (n + 1)).Rewrites before after) :
    ∃ pre win mid l win' post, before = pre ++ (win ++ post) ∧ after = pre ++ (win' ++ post) ∧
      solid win = .goto l :: (mid ++ [.label l]) ∧
      Refilled win (.nop :: (mid ++ [.label l])) win' ∧
      ∀ p ∈ mid ++ [.label l], p.isInstance .label = true := by
  obtain ⟨pre, win, post, items, rs, win', hw, hacc, hx, hrs, href, rfl⟩ := h
  obtain ⟨b, hb, hwin⟩ := gotoNextLine_accepts (n + 1) before (solid win)
  obtain rfl : b = true := Except.ok.inj (hb.symm.trans hacc)
  obtain ⟨l, h0, hn⟩ := hwin rfl
  obtain ⟨mid, hsolid, hmid⟩ := gotoNextLine_window hw.classes h0 hn
  refine ⟨pre, win, mid, l, win', post, hw.contents, rfl, hsolid, ?_, fun p hp => ?_⟩
  · obtain rfl := Except.ok.inj hx
    have hlen := href.solid
    rw [hsolid, List.set_cons_zero] at hrs
    rw [hsolid] at hlen
    rw [← hrs.eq_of_length hlen]
    exact href
  · rcases List.mem_append.mp hp with hp | hp
    · exact hmid p hp
    · obtain rfl := List.mem_singleton.mp hp
      rfl

/-- The labels stay, and what the method does. -/
theorem gotoNextLine_rewrites (n : Nat) {before after : List Piece}
    (hc : StraightContents before) (hl : (labelsOf (emit before)).Nodup)
    (h : (gotoNextLine (n + 1)).Rewrites before after) : Kept before after := by
  obtain ⟨pre, win, mid, l, win', post, rfl, rfl, hsolid, href, hlabs⟩ := gotoNextLine_change h
  have hsilent : ∀ p ∈ win, p.isNop = true → p.items = [] := fun p hp =>
    (hc.pieces p (by simp [hp])).silent
  have hold : emit win = .goto l :: emit (mid ++ [.label l]) :=
    (emit_filter hsilent).symm.trans (congrArg emit hsolid)
  have hnew : emit win' = emit (mid ++ [.label l]) := by
    rw [refilled_emit href hsilent, emit_cons]
    rfl
  have hsource : emit (pre ++ (win ++ post)) =
      emit pre ++ .goto l :: (emit mid ++ .label l :: emit post) := by
    rw [emit_append, emit_append, hold, emit_append, List.cons_append, List.append_assoc]
    rfl
  have htarget : emit (pre ++ (win' ++ post)) =
      emit pre ++ (emit mid ++ .label l :: emit post) := by
    rw [emit_append, emit_append, hnew, emit_append, List.append_assoc]
    rfl
  have hmid : ∀ p ∈ mid, p.isInstance .label = true := fun p hp =>
    hlabs p (List.mem_append_left _ hp)
  rw [hsource] at hl
  let g : GotoNext := ⟨emit pre, l, emit mid, emit post, emit_labels hmid, hl⟩
  refine ⟨⟨fun p hp => ?_, ?_⟩, ?_, ?_⟩
  · rcases List.mem_append.mp hp with hp | hp
    · exact hc.pieces p (List.mem_append_left _ hp)
    rcases List.mem_append.mp hp with hp | hp
    · rcases refilled_mem href p hp with hp | hp
      · exact hc.pieces p (List.mem_append_right _ (List.mem_append_left _ hp))
      rcases List.mem_cons.mp hp with rfl | hp
      · exact straight_nop
      · have hin : p ∈ solid win := hsolid ▸ List.mem_cons_of_mem _ hp
        exact hc.pieces p
          (List.mem_append_right _ (List.mem_append_left _ (List.mem_of_mem_filter hin)))
    · exact hc.pieces p (List.mem_append_right _ (List.mem_append_right _ hp))
  · have hset := hc.settled
    rw [solid_append, solid_append, hsolid] at hset
    have hparts := List.isChain_append.mp hset
    have hkept : solid win' = mid ++ [.label l] := by
      rw [refilled_solid href, solid_nop rfl]
      refine List.filter_eq_self.mpr fun p hp => ?_
      have hn : Matchable.isNop p = false := (label_items (hlabs p hp)).1
      rw [hn]
      rfl
    rw [solid_append, solid_append, hkept]
    refine chain_of_unswitched hparts.1 hparts.2.1.tail fun p hp => ?_
    rw [← Bool.not_eq_true]
    intro hsw
    -- a switch has a label behind it, and here the `goto` was
    cases hparts.2.2 p hp _ rfl hsw
  · rw [hsource, htarget]
    exact (labelsOf_append ..).trans (labelsOf_append (emit pre) (.goto l :: _)).symm
  · rw [hsource, htarget]
    refine g.sameEnds fun i hi => ?_
    obtain ⟨p, hp, hi⟩ := List.mem_flatMap.mp (hsource.symm ▸ hi : i ∈ emit (pre ++ (win ++ post)))
    exact (hc.pieces p hp).inline i hi

theorem gotoNextLine_applies (n : Nat) : (gotoNextLine (n + 1)).Applies List.Nodup := by
  refine Template.applies (List.cons_ne_nil _ _) (fun contents test _ _ _ => ?_)
    fun before after hc hl hr => gotoNextLine_rewrites n hc hl hr
  obtain ⟨b, hb, -⟩ := gotoNextLine_accepts (n + 1) contents test
  cases b with
  | false => exact .inl hb
  | true => exact .inr ⟨hb, _, rfl, Nat.le_of_eq List.length_set.symm⟩

/-- The straight templates, and those of `goto_next_line.py`. -/
def keptTemplates : List (Template Piece Class) :=
  straightTemplates ++ [gotoNextLine 1, gotoNextLine 2]

theorem keptTemplates_apply : ∀ t ∈ keptTemplates, t.Applies List.Nodup := by
  intro t ht
  rcases List.mem_append.mp ht with ht | ht
  · exact (straightTemplates_keep t ht).applies List.Nodup
  · rcases List.mem_cons.mp ht with rfl | ht
    · exact gotoNextLine_applies 0
    · obtain rfl := List.mem_singleton.mp ht
      exact gotoNextLine_applies 1

/-- With the templates for a `goto` to the next line, the labels stay, and a method whose labels
are there once can be left in the ways it could be left in before. -/
theorem optimize_keeps_goto {body : List Item} (hts : ∀ t ∈ ts, t ∈ keptTemplates)
    (hb : ∀ i ∈ body, i.straight = true) (hl : (labelsOf body).Nodup) (path : String) (num : Nat) :
    ∃ out, optimize ts num (readFile path body) = .ok out ∧
      labelsOf (emit out) = labelsOf body ∧ SameEnds body (emit out) := by
  rw [← emit_readFile path body] at hl
  obtain ⟨out, hout, hk⟩ := optimize_contents (fun t ht => keptTemplates_apply t (hts t ht))
    (straight_readFile path hb) hl num
  have hlabels := hk.labels
  have hends := hk.ends
  rw [emit_readFile] at hlabels hends
  exact ⟨out, hout, hlabels, hends⟩

/-- A branch over the jump of the other branch. -/
def branchLines : List Item :=
  [.op (.iload 0), .cond1 .ifeq (.addr 8#32), .op (.iconst 3), .op (.istore 1), .goto (.addr 16#32),
    .label (.addr 8#32), .op (.iconst 4), .op (.istore 1), .goto .functionReturn,
    .label (.addr 16#32), .label .functionReturn, .op (.iload 1), .ireturn]

theorem optimize_keeps_goto_branch : ∃ out,
    optimize keptTemplates 3 (readFile "" branchLines) = .ok out ∧
      labelsOf (emit out) = labelsOf branchLines ∧ SameEnds branchLines (emit out) :=
  optimize_keeps_goto (fun _ h => h) (by decide) (by decide) "" 3

example : (optimize keptTemplates 3 (readFile "" branchLines)).toOption.map emit =
    some (branchLines.eraseIdx 8) := by
  decide +kernel

end Peephole

end Cibyl
