import Cibyl.Liveness

namespace Cibyl
set_option autoImplicit true

namespace Jvm

namespace Item

def reads : Item → List Nat
  | op o => o.reads
  | ret n => [n]
  | _ => []

/-- The labels that a line can jump to. -/
def targets : Item → List Label
  | goto l | cond1 _ l | cond2 _ l | jsr l => [l]
  | tableswitch ts d => d :: ts
  | lookupswitch cs d => d :: cs.map Prod.snd
  | _ => []

/-- The line can continue with the next one. -/
def continues : Item → Bool
  | op _ | label _ | catch_ .. | cond1 .. | cond2 .. => true
  | _ => false

def isOp : Item → Bool
  | op _ => true
  | _ => false

def isRet : Item → Bool
  | ret _ => true
  | _ => false

end Item

/-- Where code can continue after its first line. A `ret` goes behind any `jsr`. -/
inductive Flow (body : List Item) : List Item → List Item → Prop where
  | next (h : i.continues = true) (c : List Item) : Flow body (i :: c) c
  | jump (h : l ∈ i.targets) (hd : findLabel body l = some d) (c : List Item) : Flow body (i :: c) d
  | ret (h : .jsr l :: d <:+ body) (n : Nat) (c : List Item) : Flow body (.ret n :: c) d

/-- Some path from the code reads the local before it writes it. -/
inductive Live (body : List Item) (n : Nat) : List Item → Prop where
  | read (h : n ∈ i.reads) (c : List Item) : Live body n (i :: c)
  | step (hw : n ∉ i.writes) (h : Flow body (i :: c) d) (hl : Live body n d) : Live body n (i :: c)

/-- What straight-line code does not write is live before it where it is behind. -/
theorem Live.straight {w : List Item} (hw : ∀ i ∈ w, i.isOp = true ∧ n ∉ i.writes)
    (h : Live body n c) : Live body n (w ++ c) := by
  induction w with
  | nil => exact h
  | cons i w ih =>
    obtain ⟨ho, hn⟩ := hw i (List.mem_cons_self ..)
    cases i with
    | op o => exact .step hn (.next rfl _) (ih fun i hi => hw i (List.mem_cons_of_mem _ hi))
    | _ => cases ho

/-- A local is not live in code that stays where nothing reads it. -/
theorem Live.not_of_tail (hr : ∀ i ∈ tail, n ∉ i.reads)
    (ht : ∀ i ∈ tail, ∀ l ∈ i.targets, ∀ d ∈ findLabel body l, d <:+ tail)
    (hret : ∀ i ∈ tail, i.isRet = false) (hc : c <:+ tail) : ¬ Live body n c := by
  intro h
  induction h with
  | read h c => exact hr _ (hc.subset (List.mem_cons_self ..)) h
  | step _ hf _ ih =>
    have hi := hc.subset (List.mem_cons_self ..)
    refine ih ?_
    cases hf with
    | next => exact (List.suffix_cons ..).trans hc
    | jump hl hd => exact ht _ hi _ hl _ hd
    | ret => exact nomatch hret _ hi

section

variable {R : List Item → List Item → Prop} {P Q D : Nat → Prop} {σ : Type} {rt : Runtime σ}
  {f f' : Frame σ}

theorem OutcomeRel.bind {x x' : Outcome σ} {k k' : Frame σ → Outcome σ} (h : OutcomeRel R P x x')
    (hk : ∀ g g', FrameRel R P g g' → OutcomeRel R Q (k g) (k' g')) :
    OutcomeRel R Q (x.bind k) (x'.bind k') := by
  cases h with
  | ok hf => exact hk _ _ hf
  | throw e w => exact .throw e w
  | stuck => exact .stuck _

/-- Straight-line code that reads no local outside `D` can do without these. -/
theorem exec_agree {w : List Item} (hrt : rt.NoReturnAddresses) (hw : ∀ i ∈ w, i.isOp = true)
    (hr : ∀ i ∈ w, ∀ n ∈ i.reads, D n)
    (hf : FrameRel R (fun n => Live body n (w ++ c) ∧ D n) f f') :
    OutcomeRel R (fun n => Live body n c ∧ D n) (exec rt w f) (exec rt w f') := by
  induction w generalizing f f' with
  | nil => exact .ok hf
  | cons i w ih =>
    cases i with
    | op o =>
      have ho := Op.exec_rel hrt hf fun n hn =>
        ⟨.read hn (w ++ c), hr _ (List.mem_cons_self ..) n hn⟩
      refine ho.bind fun g g' hg => ?_
      refine ih (fun i hi => hw i (List.mem_cons_of_mem _ hi))
        (fun i hi => hr i (List.mem_cons_of_mem _ hi)) ⟨hg.stack, fun n hn => ?_, hg.world⟩
      refine hg.locals n (Classical.or_iff_not_imp_right.mpr fun hn' => ⟨?_, hn.2⟩)
      exact .step hn' (.next rfl _) hn.1
    | _ => cases hw _ (List.mem_cons_self ..)

end

/-- What a method leaves behind. -/
inductive Result (σ : Type) where
  | returned (value : Option Value) (w : World σ)
  | threw (e : JavaException) (w : World σ)
  | athrew (r : Ref) (w : World σ)

def Next.result? : Next σ → Option (Result σ)
  | .return_ v w => some (.returned v w)
  | .throw e _ w => some (.threw e w)
  | .athrow r f => some (.athrew r f.world)
  | _ => none

/-- The run leaves the method. -/
def Ends (rt : Runtime σ) (body : List Item) (x : Config σ) (r : Result σ) : Prop :=
  ∃ d, Runs rt body x d ∧ (step rt body d).result? = some r

/-- A run leaves the method in one way. -/
theorem Ends.unique {rt : Runtime σ} (h : Ends rt body x r) (h' : Ends rt body x r') : r = r' := by
  obtain ⟨d, hd, hr⟩ := h
  obtain ⟨d', hd', hr'⟩ := h'
  have halted {c : Config σ} {q : Result σ} (hq : (step rt body c).result? = some q)
    (e : Config σ) :
      step rt body c ≠ .run e := by
    intro he
    rw [he] at hq
    cases hq
  have hdd : d' = d := by
    rcases hd.total hd' with h | h
    · exact Runs.eq_of_halted (halted hr) h
    · exact (Runs.eq_of_halted (halted hr') h).symm
  subst hdd
  exact Option.some.inj (hr.symm.trans hr')

/-- The configuration after a number of steps, or where the run stops before. -/
def stepFor (rt : Runtime σ) (body : List Item) : Nat → Config σ → Config σ
  | 0, c => c
  | k + 1, c =>
    match step rt body c with
    | .run d => stepFor rt body k d
    | _ => c

theorem runs_stepFor (rt : Runtime σ) (body : List Item) (k : Nat) (c : Config σ) :
    Runs rt body c (stepFor rt body k c) := by
  induction k generalizing c with
  | zero => exact Runs.refl c
  | succ k ih =>
    rw [stepFor]
    split
    · next d hd => exact Runs.head hd (ih d)
    · exact Runs.refl c

theorem ends_of_stepFor {rt : Runtime σ} (k : Nat)
    (h : (step rt body (stepFor rt body k c)).result? = some r) : Ends rt body c r :=
  ⟨_, runs_stepFor rt body k c, h⟩

/-- A body with a window, and what the window is replaced with. -/
structure Rewrite where
  before : List Item
  window : List Item
  replacement : List Item
  after : List Item
  ops : ∀ i ∈ window ++ replacement, i.isOp = true
  window_ne : window ≠ []

namespace Rewrite

def source (r : Rewrite) : List Item := r.before ++ (r.window ++ r.after)

def target (r : Rewrite) : List Item := r.before ++ (r.replacement ++ r.after)

/-- The same place in the two bodies. -/
def Code (r : Rewrite) (c c' : List Item) : Prop :=
  (∃ a, a <:+ r.before ∧ c = a ++ (r.window ++ r.after) ∧ c' = a ++ (r.replacement ++ r.after)) ∨
    c <:+ r.after ∧ c' = c

/-- The same place to return to. -/
def Return (r : Rewrite) (c c' : List Item) : Prop :=
  r.Code c c' ∧ ∃ l, .jsr l :: c <:+ r.source

variable {r : Rewrite} {σ : Type} {rt : Runtime σ} {f f' : Frame σ}

/-- Frames of the two bodies at a place, whose live locals are the same. -/
abbrev Frames (r : Rewrite) (c : List Item) (f f' : Frame σ) : Prop :=
  FrameRel r.Return (fun n => Live r.source n c) f f'

theorem Code.suffix (h : r.Code c c') : c <:+ r.source := by
  rcases h with ⟨a, ⟨t, ht⟩, rfl, -⟩ | ⟨h, -⟩
  · exact ⟨t, by rw [source, ← List.append_assoc, ht]⟩
  · exact h.trans ⟨r.before ++ r.window, by rw [source, List.append_assoc]⟩

theorem window_label (r : Rewrite) (l : Label) :
    ∀ i ∈ r.window ++ r.replacement, i.label? ≠ some l := by
  intro i hi hl
  have ho := r.ops i hi
  cases i <;> cases ho
  cases hl

theorem find_code (a : List Item) (l : Label)
    (h : findLabel (a ++ (r.window ++ r.after)) l = some d) :
    ∃ d', findLabel (a ++ (r.replacement ++ r.after)) l = some d' ∧
      ((∃ b, b <:+ a ∧ d = b ++ (r.window ++ r.after) ∧ d' = b ++ (r.replacement ++ r.after)) ∨
        d <:+ r.after ∧ d' = d) := by
  induction a with
  | nil =>
    have hw := r.window_label l
    rw [List.nil_append, findLabel, Labelled.find_append
      fun i hi => hw i (List.mem_append_left _ hi)] at h
    refine ⟨d, ?_, .inr ⟨Labelled.find_suffix h, rfl⟩⟩
    rw [List.nil_append, findLabel, Labelled.find_append
      fun i hi => hw i (List.mem_append_right _ hi)]
    exact h
  | cons i a ih =>
    by_cases hi : i.label? = some l
    · rw [List.cons_append, findLabel, Labelled.find_of_label hi] at h
      cases h
      refine ⟨_, ?_, .inl ⟨a, List.suffix_cons i a, rfl, rfl⟩⟩
      rw [List.cons_append, findLabel, Labelled.find_of_label hi]
    · rw [List.cons_append, findLabel, Labelled.find_of_ne hi] at h
      obtain ⟨d', hd', hc⟩ := ih h
      refine ⟨d', ?_, hc.imp_left fun ⟨b, hb, he⟩ => ⟨b, hb.trans (List.suffix_cons i a), he⟩⟩
      rw [List.cons_append, findLabel, Labelled.find_of_ne hi]
      exact hd'

theorem findLabel_code (h : findLabel r.source l = some d) :
    ∃ d', findLabel r.target l = some d' ∧ r.Code d d' := find_code r.before l h

theorem Frames.flow (hf : r.Frames (i :: c) f f') (hw : i.writes = none)
    (h : Flow r.source (i :: c) d) : r.Frames d f f' :=
  ⟨hf.stack, fun n hn => hf.locals n (.step (hw ▸ nofun) h hn), hf.world⟩

/-- The outcomes of a step in the two bodies. -/
inductive NextRel (r : Rewrite) : Next σ → Next σ → Prop where
  | run {g g' : Frame σ} (hc : r.Code d d') (hf : r.Frames d g g') :
    NextRel r (.run ⟨d, g⟩) (.run ⟨d', g'⟩)
  | result (h : n.result? = n'.result?) (hs : n.result?.isSome = true) : NextRel r n n'
  | stuck (n : Next σ) : NextRel r .stuck n

theorem jump_rel {s s' t t' : List Value} {lo lo' : Nat → Value} {w : World σ}
    (hf : r.Frames (i :: c) ⟨t, lo, w⟩ ⟨t', lo', w⟩) (hw : i.writes = none) (hl : l ∈ i.targets)
    (hs : StackRel r.Return s s') :
    NextRel r (jump r.source l ⟨s, lo, w⟩) (jump r.target l ⟨s', lo', w⟩) := by
  rw [jump]
  split
  · next d hd =>
    obtain ⟨d', hd', hc⟩ := findLabel_code hd
    rw [jump, hd']
    exact .run hc ⟨hs, (hf.flow hw (.jump hl hd c)).locals, rfl⟩
  · exact .stuck _

theorem next_rel {s s' t t' : List Value} {lo lo' : Nat → Value} {w : World σ}
    (hc : r.Code c c') (hf : r.Frames (i :: c) ⟨t, lo, w⟩ ⟨t', lo', w⟩) (hw : i.writes = none)
    (hi : i.continues = true) (hs : StackRel r.Return s s') :
    NextRel r (.run ⟨c, ⟨s, lo, w⟩⟩) (.run ⟨c', ⟨s', lo', w⟩⟩) :=
  .run hc ⟨hs, (hf.flow hw (.next hi c)).locals, rfl⟩

theorem mem_of_lookup [BEq α] [LawfulBEq α] {cs : List (α × β)} (h : cs.lookup a = some b) :
    (a, b) ∈ cs := by
  obtain ⟨l₁, l₂, rfl, -⟩ := List.lookup_eq_some_iff.mp h
  exact List.mem_append_right _ (List.mem_cons_self ..)

/-- A line that both bodies have does the same in both. -/
theorem step_rel (hr : rt.NoReturnAddresses) (hb : i :: c <:+ r.source) (hc : r.Code c c')
    (hf : r.Frames (i :: c) f f') :
    NextRel r (step rt r.source ⟨i :: c, f⟩) (step rt r.target ⟨i :: c', f'⟩) := by
  obtain ⟨s, lo, w⟩ := f
  obtain ⟨s', lo', w'⟩ := f'
  obtain rfl : w = w' := hf.world
  have hs : StackRel r.Return s s' := hf.stack
  cases i with
  | op o =>
    have ho := Op.exec_rel hr hf (fun n hn => .read hn c)
    rw [step, step]
    generalize o.exec rt ⟨s, lo, w⟩ = x at ho
    generalize o.exec rt ⟨s', lo', w⟩ = x' at ho
    cases ho with
    | ok hg =>
      refine .run hc ⟨hg.stack, fun n hn => hg.locals n ?_, hg.world⟩
      by_cases hw : n ∈ o.writes
      · exact .inr hw
      · exact .inl (.step hw (.next rfl c) hn)
    | throw e w => exact .result rfl rfl
    | stuck => exact .stuck _
  | label l => exact next_rel hc hf rfl rfl hs
  | catch_ => exact next_rel hc hf rfl rfl hs
  | goto l => exact jump_rel hf rfl (List.mem_singleton_self _) hs
  | cond1 k l =>
    obtain _ | ⟨⟨⟩, hs⟩ := hs
    case cons.int =>
      rw [step, step]
      split
      · exact jump_rel hf rfl (List.mem_singleton_self _) hs
      · exact next_rel hc hf rfl rfl hs
    all_goals exact .stuck _
  | cond2 k l =>
    obtain _ | ⟨⟨⟩, _ | ⟨⟨⟩, hs⟩⟩ := hs
    case cons.int.cons.int =>
      rw [step, step]
      split
      · exact jump_rel hf rfl (List.mem_singleton_self _) hs
      · exact next_rel hc hf rfl rfl hs
    all_goals exact .stuck _
  | jsr l =>
    exact jump_rel hf rfl (List.mem_singleton_self _) (.cons (.ret ⟨hc, l, hb⟩) hs)
  | ret n =>
    have hn : ValRel r.Return (lo n) (lo' n) := hf.locals n (.read (List.mem_singleton_self _) c)
    rw [step, step]
    dsimp only
    generalize lo n = v at hn
    generalize lo' n = v' at hn
    cases hn with
    | ret h =>
      obtain ⟨hd, l, hl⟩ := h
      exact .run hd ⟨hs, (hf.flow rfl (.ret hl n c)).locals, rfl⟩
    | _ => exact .stuck _
  | tableswitch ts d =>
    obtain _ | ⟨⟨⟩, hs⟩ := hs
    case cons.int x =>
      refine jump_rel hf rfl ?_ hs
      rw [List.getD_eq_getElem?_getD]
      cases h : ts[x.toNat]? with
      | none => exact List.mem_cons_self ..
      | some l => exact List.mem_cons_of_mem _ (List.mem_of_getElem? h)
    all_goals exact .stuck _
  | lookupswitch cs d =>
    obtain _ | ⟨⟨⟩, hs⟩ := hs
    case cons.int x =>
      refine jump_rel hf rfl ?_ hs
      cases h : cs.lookup x with
      | none => exact List.mem_cons_self ..
      | some l =>
        refine List.mem_cons_of_mem _ (List.mem_map.mpr ⟨(x, l), ?_, rfl⟩)
        exact mem_of_lookup h
    all_goals exact .stuck _
  | ireturn =>
    obtain _ | ⟨⟨⟩, hs⟩ := hs
    case cons.int => exact .result rfl rfl
    all_goals exact .stuck _
  | lreturn =>
    obtain _ | ⟨⟨⟩, hs⟩ := hs
    case cons.long => exact .result rfl rfl
    all_goals exact .stuck _
  | return_ => exact .result rfl rfl
  | athrow =>
    obtain _ | ⟨⟨⟩, hs⟩ := hs
    case cons.ref => exact .result rfl rfl
    all_goals exact .stuck _
  | abort => exact .stuck _

/-- From frames whose live locals are the same, the window and its replacement lead to such. -/
def Sound (r : Rewrite) (rt : Runtime σ) : Prop :=
  ∀ f f' : Frame σ, r.Frames (r.window ++ r.after) f f' →
    OutcomeRel r.Return (fun n => Live r.source n r.after) (exec rt r.window f)
      (exec rt r.replacement f')

/-- The two runs are at the same place, or the first is within the window. -/
inductive Sim (r : Rewrite) (rt : Runtime σ) : Config σ → Config σ → Prop where
  | outside {f f' : Frame σ} (hb : i :: c <:+ r.source) (hc : r.Code c c')
      (hf : r.Frames (i :: c) f f') : Sim r rt ⟨i :: c, f⟩ ⟨i :: c', f'⟩
  | inside {f f' g : Frame σ} (a : List Item) (hw : r.window = a ++ .op o :: w₂)
    (hg : exec rt a g = .ok f)
      (hf : r.Frames (r.window ++ r.after) g f') :
      Sim r rt ⟨.op o :: w₂ ++ r.after, f⟩ ⟨r.replacement ++ r.after, f'⟩
  | done {f f' : Frame σ} (hf : r.Frames [] f f') : Sim r rt ⟨[], f⟩ ⟨[], f'⟩

theorem window_cons (r : Rewrite) : ∃ o w, r.window = .op o :: w := by
  obtain ⟨i, w, hw⟩ := List.exists_cons_of_ne_nil r.window_ne
  have hi := r.ops i (by rw [hw]; exact List.mem_cons_self ..)
  cases i with
  | op o => exact ⟨o, w, hw⟩
  | _ => cases hi

theorem Sim.of_code (hc : r.Code c c') (hf : r.Frames c f f') : Sim r rt ⟨c, f⟩ ⟨c', f'⟩ := by
  have hb := hc.suffix
  rcases hc with ⟨a, ha, rfl, rfl⟩ | ⟨ha, rfl⟩
  · cases a with
    | nil =>
      obtain ⟨o, w, hw⟩ := r.window_cons
      rw [List.nil_append, hw]
      exact .inside [] hw rfl hf
    | cons i a =>
      exact .outside hb (.inl ⟨a, (List.suffix_cons i a).trans ha, rfl, rfl⟩) hf
  · cases c' with
    | nil => exact .done hf
    | cons i c => exact .outside hb (.inr ⟨(List.suffix_cons i c).trans ha, rfl⟩) hf

/-- What the original body does at one line, the other does in some lines. -/
theorem Sim.step (h : Sim r rt x x') (hr : rt.NoReturnAddresses) (hs : r.Sound rt) :
    (∀ y, Jvm.step rt r.source x = .run y → ∃ y', Runs rt r.target x' y' ∧ Sim r rt y y') ∧
    ∀ res, (Jvm.step rt r.source x).result? = some res → Ends rt r.target x' res := by
  cases h with
  | @outside i c c' f f' hb hc hf =>
    have hn := step_rel hr hb hc hf
    generalize Jvm.step rt r.source ⟨i :: c, f⟩ = n at hn
    generalize hn' : Jvm.step rt r.target ⟨i :: c', f'⟩ = n' at hn
    cases hn with
    | run hd hg =>
      refine ⟨fun y hy => ?_, fun res hres => by cases hres⟩
      cases hy
      exact ⟨_, Runs.of_step hn', Sim.of_code hd hg⟩
    | result he ho =>
      refine ⟨fun y hy => ?_, fun res hres => ⟨_, Runs.refl _, ?_⟩⟩
      · subst hy
        cases ho
      · rw [hn', ← he]
        exact hres
    | stuck => exact ⟨fun y hy => (by cases hy), fun res hres => by cases hres⟩
  | @inside w₂ o f f' g a hw hg hf =>
    have hout := hs g f' hf
    have hx : exec rt r.window g = (o.exec rt f).bind (exec rt w₂) := by
      rw [hw, exec_append, hg]
      rfl
    rw [List.cons_append, Jvm.step]
    cases ho : o.exec rt f with
    | ok f₁ =>
      refine ⟨fun y hy => ?_, fun res hres => by cases hres⟩
      cases hy
      cases w₂ with
      | nil =>
        rw [hx, ho] at hout
        generalize hx' : exec rt r.replacement f' = out at hout
        cases hout with
        | ok hg' =>
          exact ⟨_, Runs.of_exec hx' _, Sim.of_code (.inr ⟨List.suffix_rfl, rfl⟩) hg'⟩
      | cons i w₂ =>
        have hi := r.ops i (List.mem_append_left _ (by rw [hw]; simp))
        cases i with
        | op o₂ =>
          refine ⟨_, Runs.refl _, .inside (a ++ [.op o]) (by rw [hw]; simp) ?_ hf⟩
          rw [exec_append, hg, Outcome.bind_ok, exec_op, ho, Outcome.bind_ok, exec_nil]
        | _ => cases hi
    | throw e w =>
      refine ⟨fun y hy => (by cases hy), fun res hres => ?_⟩
      rw [hx, ho] at hout
      generalize hx' : exec rt r.replacement f' = out at hout
      cases hout with
      | throw =>
        obtain ⟨d, hd, hd'⟩ := Runs.of_throw r.target hx' r.after
        exact ⟨d, hd, by rw [hd']; exact hres⟩
    | stuck => exact ⟨fun y hy => (by cases hy), fun res hres => by cases hres⟩
  | done => exact ⟨fun y hy => (by cases hy), fun res hres => by cases hres⟩

/-- Every run of the original body is one of the other. -/
theorem Sim.runs (h : Sim r rt x x') (hr : rt.NoReturnAddresses) (hs : r.Sound rt)
    (hx : Runs rt r.source x y) : ∃ y', Runs rt r.target x' y' ∧ Sim r rt y y' := by
  induction hx with
  | refl => exact ⟨x', Runs.refl _, h⟩
  | tail _ hz ih =>
    obtain ⟨y', hy', hs'⟩ := ih
    obtain ⟨z', hz', hsz⟩ := (hs'.step hr hs).1 _ hz
    exact ⟨z', hy'.trans hz', hsz⟩

theorem Sim.ends (h : Sim r rt x x') (hr : rt.NoReturnAddresses) (hs : r.Sound rt)
    (hx : Ends rt r.source x res) : Ends rt r.target x' res := by
  obtain ⟨y, hy, hres⟩ := hx
  obtain ⟨y', hy', hsy⟩ := h.runs hr hs hy
  obtain ⟨d, hd, hres'⟩ := (hsy.step hr hs).2 _ hres
  exact ⟨d, hy'.trans hd, hres'⟩

end Rewrite

/-- The frame holds no return address. -/
structure Frame.NoReturns (f : Frame σ) : Prop where
  stack : ∀ v ∈ f.stack, v.ty ≠ .ret
  locals : ∀ n, (f.locals n).ty ≠ .ret

/-- Code of a body that is not within the window. -/
def Outside (before window after c : List Item) : Prop :=
  c <:+ after ∨ ∃ i a, i :: a <:+ before ∧ c = i :: a ++ (window ++ after)

/-- Every run of the body with the window leaves it the same way with the replacement, and what it
reads from its locals outside the window is the same. -/
def SameRuns (before window replacement after : List Item) : Prop :=
  ∀ (σ : Type) (rt : Runtime σ) (f : Frame σ), rt.NoReturnAddresses → f.NoReturns →
    let source := before ++ (window ++ after)
    let target := before ++ (replacement ++ after)
    (∀ r, Ends rt source ⟨source, f⟩ r → Ends rt target ⟨target, f⟩ r) ∧
    ∀ d, Runs rt source ⟨source, f⟩ d → Outside before window after d.code →
      ∃ d', Runs rt target ⟨target, f⟩ d' ∧ d'.code.head? = d.code.head? ∧
        d'.frame.world = d.frame.world ∧
        ∀ i ∈ d.code.head?, ∀ n ∈ i.reads, (d.frame.locals n).ty ≠ .ret →
          d'.frame.locals n = d.frame.locals n

namespace Rewrite

theorem Sim.of_outside {r : Rewrite} {rt : Runtime σ} (h : Sim r rt d d')
    (ho : Outside r.before r.window r.after d.code) :
    r.Frames d.code d.frame d'.frame ∧ d'.code.head? = d.code.head? := by
  cases h with
  | outside hb hc hf => exact ⟨hf, rfl⟩
  | @inside w₂ o f f' g a hw hg hf =>
    have hlen := congrArg List.length hw
    rw [List.length_append, List.length_cons] at hlen
    rcases ho with ho | ⟨i, a, -, ho⟩
    · have hle := ho.length_le
      rw [List.cons_append, List.length_cons, List.length_append] at hle
      omega
    · have hle := congrArg List.length ho
      simp only [List.cons_append, List.length_cons, List.length_append] at hle
      omega
  | done hf => exact ⟨hf, rfl⟩

theorem sameRuns (r : Rewrite)
    (hs : ∀ (σ : Type) (rt : Runtime σ), rt.NoReturnAddresses → r.Sound rt) :
    SameRuns r.before r.window r.replacement r.after := by
  intro σ rt f hrt hf
  have hsim : Sim r rt ⟨r.source, f⟩ ⟨r.target, f⟩ :=
    .of_code (.inl ⟨r.before, List.suffix_rfl, rfl, rfl⟩)
      ⟨StackRel.refl hf.stack, fun n _ => .refl (hf.locals n), rfl⟩
  refine ⟨fun res => hsim.ends hrt (hs σ rt hrt), fun d hd ho => ?_⟩
  obtain ⟨d', hd', hsd⟩ := hsim.runs hrt (hs σ rt hrt) hd
  obtain ⟨hfr, hhead⟩ := hsd.of_outside ho
  refine ⟨d', hd', hhead, hfr.world.symm, fun i hi n hn hty => ?_⟩
  obtain ⟨c, hc⟩ : ∃ c, d.code = i :: c := by
    cases hdc : d.code with
    | nil =>
      rw [hdc] at hi
      cases hi
    | cons j c =>
      rw [hdc] at hi
      cases hi
      exact ⟨c, rfl⟩
  rw [hc] at hfr
  exact (hfr.locals n (.read hn c)).eq hty

end Rewrite

end Jvm

end Cibyl
