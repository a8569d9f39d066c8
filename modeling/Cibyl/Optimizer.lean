import Cibyl.KeptTemplates
import Cibyl.TemplateScan

namespace Cibyl
set_option autoImplicit true

open Jvm (Item Op Label Frame Runtime Result Ends SameRuns)

/-- A line of a method without handlers and subroutines, with operands that fit their lines. -/
def Jvm.Item.straight : Item → Bool
  | op (.bipush n) => -128 ≤ n ∧ n ≤ 127
  | op (.sipush n) | op (.iinc _ n) => -32768 ≤ n ∧ n ≤ 32767
  | jsr _ | ret _ | catch_ .. | abort => false
  | _ => true

namespace Peephole

/-- One round over the templates. -/
def applyAll : List (Template Piece Class) → List Piece → Nat → Except PyError (List Piece × Nat)
  | [], contents, applied => .ok (contents, applied)
  | t :: ts, contents, applied =>
    match t.apply contents with
    | .error e => .error e
    | .ok s => applyAll ts s.contents (applied + s.applied)

/-- The rounds of `optimize` for one function. -/
def optimize (ts : List (Template Piece Class)) : Nat → List Piece → Except PyError (List Piece)
  | 0, contents => .ok contents
  | num + 1, contents =>
    match applyAll ts contents 0 with
    | .error e => .error e
    | .ok (contents, applied) => if applied = 0 then .ok contents else optimize ts num contents

/-- The templates that see operations, and `ireturn` at the end, but no label. -/
def straightTemplates : List (Template Piece Class) :=
  [constStoreAload, pushStoreInc, constAndInc] ++
    (List.range 6).map matchStoreLoadStore ++ (List.range 6).map matchStoreStore ++
    [matchStoreLoadIreturn, matchStoreLoad, matchDupIstoreIreturn, matchStorePutstaticLoadIreturn,
      matchSwap, matchSwapDup] ++
    [doublePop, matchPop, matchPop2, dupPop, constAndPop, iloadAndPop]

theorem straightTemplates_keep : ∀ t ∈ straightTemplates, t.Keeps := by
  intro t ht
  simp only [straightTemplates, List.mem_append, List.mem_cons, List.mem_map, List.mem_range,
    List.not_mem_nil, or_false] at ht
  rcases ht with (((ht | ⟨k, -, rfl⟩) | ⟨k, -, rfl⟩) | ht) | ht
  · rcases ht with rfl | rfl | rfl
    · exact constStoreAload_keeps
    · exact pushStoreInc_keeps
    · exact constAndInc_keeps
  · exact matchStoreLoadStore_keeps k
  · exact matchStoreStore_keeps k
  · rcases ht with rfl | rfl | rfl | rfl | rfl | rfl
    · exact matchStoreLoadIreturn_keeps
    · exact matchStoreLoad_keeps
    · exact matchDupIstoreIreturn_keeps
    · exact matchStorePutstaticLoadIreturn_keeps
    · exact matchSwap_keeps
    · exact matchSwapDup_keeps
  · rcases ht with rfl | rfl | rfl | rfl | rfl | rfl
    · exact doublePop_keeps
    · exact matchPop_keeps
    · exact matchPop2_keeps
    · exact dupPop_keeps
    · exact constAndPop_keeps
    · exact iloadAndPop_keeps

/-- Every way that the first body can leave the method in is one of the second body. -/
def SameEnds (body body' : List Item) : Prop :=
  ∀ (σ : Type) (rt : Runtime σ) (f : Frame σ) (r : Result σ), rt.NoReturnAddresses →
    f.NoReturns → Ends rt body ⟨body, f⟩ r → Ends rt body' ⟨body', f⟩ r

theorem SameEnds.refl (body : List Item) : SameEnds body body := fun _ _ _ _ _ _ h => h

theorem SameEnds.trans (h : SameEnds a b) (h' : SameEnds b c) : SameEnds a c :=
  fun σ rt f r hrt hf hr => h' σ rt f r hrt hf (h σ rt f r hrt hf hr)

theorem SameEnds.of_sameRuns (h : SameRuns pre w w' post) :
    SameEnds (pre ++ (w ++ post)) (pre ++ (w' ++ post)) :=
  fun σ rt f r hrt hf => (h σ rt f hrt hf).1 r

structure StraightContents (ps : List Piece) : Prop where
  pieces : ∀ p ∈ ps, p.Straight
  settled : List.IsChain Settled (solid ps)

/-- The labels that the lines define. -/
def labelsOf (body : List Item) : List Label := body.filterMap Item.label?

/-- What a change of the contents keeps. -/
structure Kept (before after : List Piece) : Prop where
  contents : StraightContents after
  labels : labelsOf (emit after) = labelsOf (emit before)
  ends : SameEnds (emit before) (emit after)

theorem Kept.refl (h : StraightContents ps) : Kept ps ps := ⟨h, rfl, .refl _⟩

theorem Kept.trans (h : Kept ps qs) (h' : Kept qs rs) : Kept ps rs :=
  ⟨h'.contents, h'.labels.trans h.labels, h.ends.trans h'.ends⟩

/-- On contents whose labels are as `Q` asks, the template raises nothing and keeps them. -/
def Template.Applies (Q : List Label → Prop) (t : Template Piece Class) : Prop :=
  ∀ contents, StraightContents contents → Q (labelsOf (emit contents)) →
    ∃ s, t.apply contents = .ok s ∧ Kept contents s.contents

section

variable {win rs win' : List Piece}

theorem refilled_solid (h : Refilled win rs win') : solid win' = solid rs := by
  induction h with
  | nil => rfl
  | nop hn _ ih => rw [solid_nop hn, ih]
  | item hn r _ ih =>
    cases hr : Matchable.isNop r with
    | true => rw [solid_nop hr, solid_nop hr, ih]
    | false => rw [solid_item hr, solid_item hr, ih]

theorem refilled_mem (h : Refilled win rs win') : ∀ p ∈ win', p ∈ win ∨ p ∈ rs := by
  induction h with
  | nil => exact fun p hp => by cases hp
  | nop hn _ ih =>
    intro p hp
    rcases List.mem_cons.mp hp with rfl | hp
    · exact .inl (List.mem_cons_self ..)
    · exact (ih p hp).imp_left (List.mem_cons_of_mem _)
  | item hn r _ ih =>
    intro p hp
    rcases List.mem_cons.mp hp with rfl | hp
    · exact .inr (List.mem_cons_self ..)
    · exact (ih p hp).imp (List.mem_cons_of_mem _) (List.mem_cons_of_mem _)

theorem refilled_emit (h : Refilled win rs win')
    (hn : ∀ p ∈ win, p.isNop = true → p.items = []) : emit win' = emit rs := by
  induction h with
  | nil => rfl
  | nop hp _ ih =>
    rw [emit_cons, hn _ (List.mem_cons_self ..) hp, List.nil_append]
    exact ih fun p h => hn p (List.mem_cons_of_mem _ h)
  | item _ r _ ih =>
    rw [emit_cons, emit_cons, ih fun p h => hn p (List.mem_cons_of_mem _ h)]

theorem labelsOf_append (b c : List Item) : labelsOf (b ++ c) = labelsOf b ++ labelsOf c :=
  List.filterMap_append ..

theorem labelsOf_ops {b : List Item} (h : ∀ i ∈ b, i.isOp = true) : labelsOf b = [] := by
  refine List.filterMap_eq_nil_iff.mpr fun i hi => ?_
  have ho := h i hi
  cases i <;> cases ho
  rfl

theorem chain_of_unswitched {ps qs : List Piece} (hp : List.IsChain Settled ps)
    (hq : List.IsChain Settled qs) (hl : ∀ p ∈ ps.getLast?, p.isSwitch = false) :
    List.IsChain Settled (ps ++ qs) := by
  refine List.isChain_append.mpr ⟨hp, hq, ?_⟩
  intro p hp q _ hs
  rw [hl p hp] at hs
  cases hs

theorem chain_of_no_switch {ps : List Piece} (h : ∀ p ∈ ps, p.isSwitch = false) :
    List.IsChain Settled ps := by
  induction ps with
  | nil => exact .nil
  | cons p ps ih =>
    refine chain_of_unswitched (.singleton p) (ih fun q hq => h q (List.mem_cons_of_mem _ hq)) ?_
    intro q hq
    cases hq
    exact h p (List.mem_cons_self ..)

/-- A rewrite keeps what the templates rely on, and what the body does. -/
theorem Template.Rewrites.keeps {t : Template Piece Class} (ht : t.Keeps)
    (hc : StraightContents before) (h : t.Rewrites before after) : Kept before after := by
  obtain ⟨pre, win, post, items, rs, win', hw, hacc, hx, hrs, href, rfl⟩ := h
  obtain rfl := hw.contents
  have hmem : ∀ p ∈ win, p.Straight := fun p hp => hc.pieces p (by simp [hp])
  have hset := hc.settled
  rw [solid_append, solid_append] at hset
  have htest : List.IsChain Settled (solid win) :=
    (List.isChain_append.mp (List.isChain_append.mp hset).2.1).1
  rcases ht.exchange _ _ hw.classes (fun p hp => hmem p (List.mem_of_mem_filter hp)) htest with
    hno | ⟨-, out, hout, hex⟩
  · rw [hno] at hacc
    cases hacc
  obtain rfl : items = out := Except.ok.inj (hx.symm.trans hout)
  obtain rfl : rs = items := hrs.eq_of_length (href.solid.trans hex.length.symm)
  have hemit : emit win = emit (solid win) :=
    (emit_filter fun p hp => (hmem p hp).silent).symm
  have hinstr := forall₂_instruction ht.instructions hw.classes
  have hlast : ∀ p ∈ (solid pre).getLast?, p.isSwitch = false := by
    intro p hp
    cases hs : solid win with
    | nil =>
      have hlen := hw.classes.length_eq
      rw [hs, List.length_nil, List.length_eq_zero_iff] at hlen
      exact absurd hlen ht.classes
    | cons q qs =>
      rw [hs] at hset hinstr
      have hsettled := (List.isChain_append.mp hset).2.2 p hp q rfl
      rw [← Bool.not_eq_true]
      intro hsw
      have hlabel := hsettled hsw
      rw [not_label_of_instruction (hinstr q (List.mem_cons_self ..))] at hlabel
      cases hlabel
  have hrest : ∀ p ∈ solid rs, p.isSwitch = false := fun p hp =>
    hex.switches p (List.mem_of_mem_filter hp)
  obtain ⟨w, r, tail, hold, hnew, hrep⟩ := hex.lines
  have hfill := (refilled_emit href fun p hp => (hmem p hp).silent).trans hnew
  refine ⟨⟨?_, ?_⟩, ?_, ?_⟩
  · intro p hp
    rcases List.mem_append.mp hp with hp | hp
    · exact hc.pieces p (List.mem_append_left _ hp)
    rcases List.mem_append.mp hp with hp | hp
    · exact (refilled_mem href p hp).elim (hmem p) (hex.straight p)
    · exact hc.pieces p (List.mem_append_right _ (List.mem_append_right _ hp))
  · rw [solid_append, solid_append, refilled_solid href]
    have hparts := List.isChain_append.mp hset
    refine chain_of_unswitched hparts.1 (chain_of_unswitched (chain_of_no_switch hrest) ?_ ?_) hlast
    · exact (List.isChain_append.mp hparts.2.1).2.1
    · exact fun p hp => hrest p (List.mem_of_mem_getLast? hp)
  · have hw := labelsOf_ops fun i hi => hrep.ops i (List.mem_append_left _ hi)
    have hr := labelsOf_ops fun i hi => hrep.ops i (List.mem_append_right _ hi)
    simp only [emit_append, hemit, hold, hfill, labelsOf_append, hw, hr]
  · rw [emit_append, emit_append, emit_append, emit_append, hemit, hold, hfill, List.append_assoc,
      List.append_assoc]
    exact .of_sameRuns (hrep.sameRuns (emit pre) (emit post))

/-- A template whose windows are all kept. -/
theorem Template.applies {t : Template Piece Class} {Q : List Label → Prop} (hne : t.classes ≠ [])
    (hok : ∀ contents test,
      List.Forall₂ (fun c (p : Piece) => p.isInstance c = true) t.classes test →
      (∀ p ∈ test, p.Straight) → List.IsChain Settled test →
      t.accepts contents test = .ok false ∨ t.accepts contents test = .ok true ∧
        ∃ rs, t.execute contents test = .ok rs ∧ test.length ≤ rs.length)
    (hkeep : ∀ before after, StraightContents before → Q (labelsOf (emit before)) →
      t.Rewrites before after → Kept before after) : t.Applies Q := by
  intro contents hc hq
  have hkept : ∀ n ps, t.Rewritten contents n ps → Kept contents ps := by
    intro n ps h
    induction h with
    | start => exact .refl hc
    | next _ hr ih => exact ih.trans (hkeep _ _ ih.contents (ih.labels ▸ hq) hr)
  have hf := t.apply_faithful contents
  obtain ⟨s, hs, hend⟩ := hf.terminates
  have hk := hkept _ _ (hf.applications s hs)
  rcases hend with ⟨-, hend⟩ | ⟨e, he, -⟩
  · exact ⟨s, hend, hk⟩
  exfalso
  rcases he with ⟨items, ho, he⟩ | ⟨-, he⟩
  · obtain ⟨pre, win, post, hw, rfl⟩ := hf.windows s items hs ho
    have hmem : ∀ p ∈ solid win, p.Straight := fun p hp =>
      hk.contents.pieces p (by rw [hw.contents]; simp [List.mem_of_mem_filter hp])
    have hset := hk.contents.settled
    rw [hw.contents, solid_append, solid_append] at hset
    have htest : List.IsChain Settled (solid win) :=
      (List.isChain_append.mp (List.isChain_append.mp hset).2.1).1
    rcases hok s.contents _ hw.classes hmem htest with hno | ⟨hyes, out, hout, hlen⟩
    · rcases he with he | ⟨he, -⟩
      · rw [hno] at he
        cases he
      · rw [hno] at he
        cases he
    · rcases he with he | ⟨-, he | ⟨rs, he, hlt, -⟩⟩
      · rw [hyes] at he
        cases he
      · rw [hout] at he
        cases he
      · rw [hout] at he
        cases he
        exact absurd hlen (Nat.not_le_of_lt hlt)
  · exact hne he

theorem Template.Keeps.applies {t : Template Piece Class} (ht : t.Keeps)
    (Q : List Label → Prop) : t.Applies Q := by
  refine Template.applies ht.classes (fun contents test hcl hs hset => ?_)
    fun before after hc _ hr => hr.keeps ht hc
  rcases ht.exchange contents test hcl hs hset with hno | ⟨hyes, rs, hrs, hex⟩
  · exact .inl hno
  · exact .inr ⟨hyes, rs, hrs, Nat.le_of_eq hex.length.symm⟩

theorem applyAll_keeps {Q : List Label → Prop} (hts : ∀ t ∈ ts, Template.Applies Q t)
    (hc : StraightContents contents) (hq : Q (labelsOf (emit contents))) (n : Nat) :
    ∃ out k, applyAll ts contents n = .ok (out, k) ∧ Kept contents out := by
  induction ts generalizing contents n with
  | nil => exact ⟨contents, n, rfl, .refl hc⟩
  | cons t ts ih =>
    obtain ⟨s, hs, hk⟩ := hts t (List.mem_cons_self ..) contents hc hq
    obtain ⟨out, k, hout, hk'⟩ := ih (fun t ht => hts t (List.mem_cons_of_mem _ ht)) hk.contents
      (hk.labels ▸ hq) (n + s.applied)
    refine ⟨out, k, ?_, hk.trans hk'⟩
    rw [applyAll, hs]
    exact hout

theorem optimize_contents {Q : List Label → Prop} (hts : ∀ t ∈ ts, Template.Applies Q t)
    (hc : StraightContents contents) (hq : Q (labelsOf (emit contents))) (num : Nat) :
    ∃ out, optimize ts num contents = .ok out ∧ Kept contents out := by
  induction num generalizing contents with
  | zero => exact ⟨contents, rfl, .refl hc⟩
  | succ num ih =>
    obtain ⟨out, k, hout, hk⟩ := applyAll_keeps hts hc hq 0
    rw [optimize, hout]
    dsimp only
    split
    · exact ⟨out, rfl, hk⟩
    · obtain ⟨out', hout', hk'⟩ := ih hk.contents (hk.labels ▸ hq)
      exact ⟨out', hout', hk.trans hk'⟩

end

section

variable {path : String} {body : List Item}

theorem straight_matchInstruction (h : (Item.op o).straight = true) :
    (matchInstruction path o).Straight where
  wf := wf_matchInstruction path o
  silent h := by
    rw [matchInstruction_isNop] at h
    cases h
  value v o' h' := by
    cases o with
    | iconst | ldc =>
      cases h'
      rfl
    | bipush n =>
      cases h'
      have hr := of_decide_eq_true h
      exact congrArg some (signExtend_ofInt (by decide) hr.1 (Int.lt_add_one_of_le hr.2))
    | sipush n =>
      cases h'
      have hr := of_decide_eq_true h
      exact congrArg some (signExtend_ofInt (by decide) hr.1 (Int.lt_add_one_of_le hr.2))
    | _ =>
      unfold matchInstruction at h'
      repeat' split at h'
      all_goals contradiction
  increment n k h' := by
    cases o with
    | iinc =>
      cases h'
      have hr := of_decide_eq_true h
      exact signExtend_ofInt (by decide) hr.1 (Int.lt_add_one_of_le hr.2)
    | _ =>
      unfold matchInstruction at h'
      repeat' split at h'
      all_goals contradiction
  inline := by
    intro i hi
    rw [matchInstruction_items, List.mem_singleton] at hi
    subst hi
    rfl

theorem straight_of_line {p : Piece} {i : Item} (hw : p.Wf) (hi : p.items = [i])
    (hn : p.isNop = false) (hc : ∀ v o, p ≠ .const v o) (hk : ∀ n k, p ≠ .iinc n k)
    (h : i.straight = true) : p.Straight where
  wf := hw
  silent h := by
    rw [hn] at h
    cases h
  value v o h := absurd h (hc v o)
  increment n k h := absurd h (hk n k)
  inline := by
    intro j hj
    rw [hi, List.mem_singleton] at hj
    subst hj
    cases j with
    | jsr | ret => cases h
    | _ => rfl

theorem straight_of_empty {p : Piece} (hw : p.Wf) (hi : p.items = [])
    (hc : ∀ v o, p ≠ .const v o) (hk : ∀ n k, p ≠ .iinc n k) : p.Straight where
  wf := hw
  silent _ := hi
  value v o h := absurd h (hc v o)
  increment n k h := absurd h (hk n k)
  inline j hj := by
    rw [hi] at hj
    cases hj

theorem straight_readItem {i : Item} (h : i.straight = true) :
    ∀ p ∈ readItem path i, p.Straight := by
  intro p hp
  obtain ⟨l, hl, rfl⟩ := List.mem_map.mp hp
  have hw := wf_read path l
  cases l with
  | row l | default l =>
    exact straight_of_empty hw rfl (fun _ _ h => by cases h) fun _ _ h => by cases h
  | item j =>
    have hj : j = i := by
      cases i with
      | tableswitch ts d =>
        simpa [lines] using hl
      | lookupswitch cs d =>
        simpa [lines] using hl
      | _ => simpa [lines] using hl
    subst hj
    cases j with
    | op o => exact straight_matchInstruction h
    | catch_ | abort => cases h
    | _ =>
      exact straight_of_line hw rfl rfl (fun _ _ h => by cases h) (fun _ _ h => by cases h) h

/-- The rows of a switch are no instructions. -/
theorem solid_rows (path : String) (ls : List Label) (d : Label) :
    solid ((ls.map Line.row ++ [Line.default d]).map (read path)) = [.defaultLabel d] := by
  induction ls with
  | nil => rfl
  | cons l ls ih => exact ih

/-- A switch has its default behind it. -/
theorem settled_readItem (path : String) {i : Item} (h : i.straight = true) :
    List.IsChain Settled (solid (readItem path i)) ∧
      ∀ p ∈ (solid (readItem path i)).getLast?, p.isSwitch = false := by
  have hswitch (ls : List Label) (d : Label) :
      List.IsChain Settled (.instruction i :: solid ((ls.map Line.row ++ [Line.default d]).map
        (read path))) ∧ ∀ p ∈ (Piece.instruction i :: solid ((ls.map Line.row ++
          [Line.default d]).map (read path))).getLast?, p.isSwitch = false := by
    rw [solid_rows]
    refine ⟨List.isChain_cons_cons.mpr ⟨fun _ => rfl, .singleton _⟩, fun p hp => ?_⟩
    cases hp
    rfl
  cases i with
  | tableswitch ts d => exact hswitch ts d
  | lookupswitch cs d =>
    have hs := hswitch (cs.map Prod.snd) d
    rw [List.map_map] at hs
    exact hs
  | op o =>
    have hn : Matchable.isNop (matchInstruction path o) = false := matchInstruction_isNop path o
    have hs : solid (readItem path (.op o)) = [matchInstruction path o] := solid_item hn
    rw [hs]
    refine ⟨.singleton _, fun p hp => ?_⟩
    cases hp
    exact Piece.isSwitch_of_items (matchInstruction_items path o)
  | catch_ | abort | jsr | ret => cases h
  | _ =>
    refine ⟨.singleton _, fun p hp => ?_⟩
    cases hp
    rfl

theorem straight_readFile (path : String) (hb : ∀ i ∈ body, i.straight = true) :
    StraightContents (readFile path body) where
  pieces p hp := by
    obtain ⟨i, hi, hp⟩ := List.mem_flatMap.mp hp
    exact straight_readItem (hb i hi) p hp
  settled := by
    induction body with
    | nil => exact .nil
    | cons i body ih =>
      rw [readFile, List.flatMap_cons, solid_append]
      have hi := settled_readItem path (hb i (List.mem_cons_self ..))
      exact chain_of_unswitched hi.1 (ih fun j hj => hb j (List.mem_cons_of_mem _ hj)) hi.2

/-- The optimizer raises nothing, and every way that the method can be left in is one of the
optimized method. -/
theorem optimize_keeps (hts : ∀ t ∈ ts, t ∈ straightTemplates)
    (hb : ∀ i ∈ body, i.straight = true) (path : String) (num : Nat) :
    ∃ out, optimize ts num (readFile path body) = .ok out ∧ SameEnds body (emit out) := by
  obtain ⟨out, hout, hk⟩ := optimize_contents
    (fun t ht => (straightTemplates_keep t (hts t ht)).applies fun _ => True)
    (straight_readFile path hb) trivial num
  have hends := hk.ends
  rw [emit_readFile] at hends
  exact ⟨out, hout, hends⟩

end

/-- A constant that is counted up, and locals that only pass a value on. -/
def sumLines : List Item :=
  [.op (.iconst 5), .op (.istore 1), .op (.iinc 1 2), .label .functionReturn, .op (.iload 0),
    .op (.istore 2), .op (.iload 1), .op (.iload 2), .op (.intOp .iadd), .op (.istore 2),
    .op (.iload 2), .ireturn]

theorem optimize_keeps_sum : ∃ out, optimize straightTemplates 3 (readFile "" sumLines) = .ok out ∧
    SameEnds sumLines (emit out) :=
  optimize_keeps (fun _ h => h) (by decide) "" 3

example : (optimize straightTemplates 3 (readFile "" sumLines)).toOption.map emit =
    some [.op (.bipush 7), .op (.istore 1), .label .functionReturn, .op (.iload 0),
      .op (.istore 2), .op (.iload 1), .op (.iload 2), .op (.intOp .iadd), .ireturn] := by
  decide +kernel

end Peephole

end Cibyl
