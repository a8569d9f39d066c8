import Cibyl.StraightTemplates

namespace Cibyl
set_option autoImplicit true

open Jvm (Item Op Replaces Dead Ignores Runtime Frame Outcome exec)

namespace Peephole

section

variable {R : α → β → Prop}

theorem forall₂_one (h : List.Forall₂ R [a] test) : ∃ p, test = [p] ∧ R a p := by
  obtain _ | ⟨hp, ⟨⟩⟩ := h
  exact ⟨_, rfl, hp⟩

theorem forall₂_two (h : List.Forall₂ R [a, b] test) : ∃ p q, test = [p, q] ∧ R a p ∧ R b q := by
  obtain _ | ⟨hp, _ | ⟨hq, ⟨⟩⟩⟩ := h
  exact ⟨_, _, rfl, hp, hq⟩

theorem forall₂_three (h : List.Forall₂ R [a, b, c] test) :
    ∃ p q r, test = [p, q, r] ∧ R a p ∧ R b q ∧ R c r := by
  obtain _ | ⟨hp, _ | ⟨hq, _ | ⟨hr, ⟨⟩⟩⟩⟩ := h
  exact ⟨_, _, _, rfl, hp, hq, hr⟩

end

/-- A piece that a template can put in. -/
def Piece.Fits (p : Piece) : Prop := p.Straight ∧ p.isSwitch = false

section

variable {p q r : Piece}

theorem fits_nop : Piece.nop.Fits := ⟨straight_nop, rfl⟩

theorem fits_of_store (h : p.isInstance .istore = true) (hs : p.Straight) : p.Fits := by
  obtain ⟨_, _, hi, -, -⟩ := stores_of_istore h
  exact ⟨hs, Piece.isSwitch_of_items hi⟩

theorem Exchange.of_lines {test rs : List Piece} (hl : rs.length = test.length)
    (hs : ∀ p ∈ rs, p.Fits) (ht : emit test = w ++ tail) (hr : emit rs = w' ++ tail)
    (h : Replaces w w' tail) : Exchange test rs :=
  ⟨hl, fun p hp => (hs p hp).1, fun p hp => (hs p hp).2, w, w', tail, ht, hr, h⟩

theorem Exchange.of_ops {test rs : List Piece} (hl : rs.length = test.length)
    (hs : ∀ p ∈ rs, p.Fits) (ht : emit test = w) (hr : emit rs = w') (h : Replaces w w' []) :
    Exchange test rs :=
  .of_lines hl hs (ht.trans (List.append_nil w).symm) (hr.trans (List.append_nil w').symm) h

theorem fits_pair (hp : p.Fits) (hq : q.Fits) : ∀ x ∈ [p, q], x.Fits := by
  intro x hx
  simp only [List.mem_cons, List.not_mem_nil, or_false] at hx
  rcases hx with rfl | rfl
  · exact hp
  · exact hq

theorem fits_triple (hp : p.Fits) (hq : q.Fits) (hr : r.Fits) : ∀ x ∈ [p, q, r], x.Fits := by
  intro x hx
  rcases List.mem_cons.mp hx with rfl | hx
  · exact hp
  · exact fits_pair hq hr x hx

theorem fits_nops : ∀ x ∈ [Piece.nop, .nop], x.Fits := fits_pair fits_nop fits_nop

/-- A value that is pushed and taken off again. -/
theorem exchange_push_pop (hi : p.items = [.op o]) (h : ∀ (σ : Type) (rt : Runtime σ) s l w,
      o.exec rt ⟨s, l, w⟩ = .stuck ∨ ∃ v, v.slots = 1 ∧ o.exec rt ⟨s, l, w⟩ = .ok ⟨v :: s, l, w⟩) :
    Exchange [p, .pop] [.nop, .nop] := by
  refine Exchange.of_ops rfl fits_nops ?_ rfl (Jvm.push_pop_replaces h)
  rw [emit_cons, hi]
  rfl

theorem constAndInc_keeps : constAndInc.Keeps where
  instructions := by decide
  classes h := by cases h
  exchange contents test h hs _ := by
    obtain ⟨p, q, r, rfl, hp, hq, hr⟩ := forall₂_three h
    obtain ⟨v, c, rfl⟩ := Piece.eq_const hp
    obtain ⟨m, k, rfl⟩ := Piece.eq_iinc hr
    obtain ⟨o, n, hi, ht, hst⟩ := stores_of_istore hq
    have hv := (hs (.const v c) (by simp)).value v c rfl
    have hk := (hs (.iinc m k) (by simp)).increment m k rfl
    have hsum : (constLine (v + k)).pushed =
        some (BitVec.ofInt 32 v + (BitVec.ofInt 16 k).signExtend 32) := by
      rw [pushed_constLine, hk, BitVec.ofInt_add]
    have hfit := fits_of_store hq (hs q (by simp))
    by_cases hn : q.targetLocal = some (.local_ m)
    · refine .inr ⟨congrArg Except.ok (beq_iff_eq.mpr hn), _, rfl, ?_⟩
      rw [ht] at hn
      cases hn
      refine Exchange.of_ops rfl (fits_triple ⟨straight_const _, rfl⟩ hfit fits_nop) ?_ ?_
        (Jvm.const_inc_replaces hv hsum hst)
      · simp only [emit_cons, emit_nil, hi]
        rfl
      · simp only [emit_cons, emit_nil, hi]
        rfl
    · exact .inl (congrArg Except.ok (beq_eq_false_iff_ne.mpr hn))

theorem constAndPop_keeps : constAndPop.Keeps where
  instructions := by decide
  classes h := by cases h
  exchange contents test h hs _ := by
    obtain ⟨p, q, rfl, hp, hq⟩ := forall₂_two h
    obtain ⟨v, c, rfl⟩ := Piece.eq_const hp
    cases Piece.eq_pop hq
    have hv := (hs (.const v c) (by simp)).value v c rfl
    exact .inr ⟨rfl, _, rfl, exchange_push_pop rfl fun σ rt s l w =>
      .inr ⟨_, rfl, Op.exec_pushed hv rt s l w⟩⟩

theorem iloadAndPop_keeps : iloadAndPop.Keeps where
  instructions := by decide
  classes h := by cases h
  exchange contents test h hs _ := by
    obtain ⟨p, q, rfl, hp, hq⟩ := forall₂_two h
    obtain ⟨o, n, hi, -, hl⟩ := load_of_iload hp
    cases Piece.eq_pop hq
    refine .inr ⟨rfl, _, rfl, exchange_push_pop hi fun σ rt s l w => ?_⟩
    rcases hl.exec_cases l with h | ⟨hv, h⟩
    · exact .inl (h σ rt s w)
    · exact .inr ⟨_, hv, h σ rt s l w rfl⟩

theorem matchPop_keeps : matchPop.Keeps where
  instructions := by decide
  classes h := by cases h
  exchange contents test h hs _ := by
    obtain ⟨p, q, rfl, hp, hq⟩ := forall₂_two h
    cases Piece.eq_getstatic hp
    cases Piece.eq_pop hq
    exact .inr ⟨rfl, _, rfl, exchange_push_pop rfl fun σ rt s l w =>
      .inr ⟨.int w.savedV1, rfl, rfl⟩⟩

theorem dupPop_keeps : dupPop.Keeps where
  instructions := by decide
  classes h := by cases h
  exchange contents test h hs _ := by
    obtain ⟨p, q, rfl, hp, hq⟩ := forall₂_two h
    cases Piece.eq_dup hp
    cases Piece.eq_pop hq
    exact .inr ⟨rfl, _, rfl, Exchange.of_ops rfl fits_nops rfl rfl
      (Jvm.dup_pop_replaces)⟩

theorem doublePop_keeps : doublePop.Keeps where
  instructions := by decide
  classes h := by cases h
  exchange contents test h hs _ := by
    obtain ⟨p, q, rfl, hp, hq⟩ := forall₂_two h
    cases Piece.eq_pop hp
    cases Piece.eq_pop hq
    refine .inr ⟨rfl, _, rfl, Exchange.of_ops rfl
      (fits_pair ⟨straight_pop2, rfl⟩ fits_nop) rfl rfl ?_⟩
    exact Jvm.replaces_of_eq (by simp [emit, Piece.items, Item.isOp]) (fun h => by cases h)
      fun _ _ _ => .inr rfl

theorem matchPop2_keeps : matchPop2.Keeps where
  instructions := by decide
  classes h := by cases h
  exchange _ _ _ _ _ := .inl rfl

theorem matchSwapDup_keeps : matchSwapDup.Keeps where
  instructions := by decide
  classes h := by cases h
  exchange _ _ _ _ _ := .inl rfl

theorem constStoreAload_keeps : constStoreAload.Keeps where
  instructions := by decide
  classes h := by cases h
  exchange contents test h hs _ := by
    obtain ⟨p, q, r, rfl, hp, hq, hr⟩ := forall₂_three h
    obtain ⟨v, c, rfl⟩ := Piece.eq_const hp
    obtain ⟨m, rfl⟩ := Piece.eq_aload hr
    obtain ⟨o, n, hi, -, hst⟩ := stores_of_istore hq
    have hv := (hs (.const v c) (by simp)).value v c rfl
    have hrep : Replaces [.op c, .op o, .op (.aload m)] [.op (.aload m), .op c, .op o] [] :=
      Jvm.const_store_aload_replaces hv hst
    refine .inr ⟨rfl, [.aload m, .const v c, q], rfl, Exchange.of_ops rfl (fits_triple
      ⟨hs (.aload m) (by simp), rfl⟩
      ⟨hs (.const v c) (by simp), rfl⟩ (fits_of_store hq (hs q (by simp)))) ?_ ?_ hrep⟩
    · simp only [emit_cons, emit_nil, hi]
      rfl
    · simp only [emit_cons, emit_nil, hi]
      rfl

/-- A push that does not look at the local and leaves it alone. -/
theorem ignores_of_push (h : p.isInstance .pushInstruction = true) (hs : p.Straight)
    (hsrc : p.sourceLocal ≠ some (.local_ n)) (htgt : p.targetLocal ≠ some (.local_ n)) :
    ∃ o, p.items = [.op o] ∧ Ignores n [.op o] := by
  have hne {m : Nat} (hm : some (Place.local_ m) ≠ some (.local_ n)) : m ≠ n := by
    rintro rfl
    exact hm rfl
  cases p with
  | dup => exact ⟨_, rfl, Jvm.ignores_dup n⟩
  | const v o => exact ⟨o, rfl, Jvm.ignores_const (hs.value v o rfl) n⟩
  | getstatic => exact ⟨_, rfl, Jvm.ignores_getSavedV1 n⟩
  | iload m => exact ⟨_, rfl, Op.Loads.ignores (.inl rfl) (hne hsrc)⟩
  | aload m => exact ⟨_, rfl, Op.Loads.ignores (.inr rfl) (hne hsrc)⟩
  | astore m => exact ⟨_, rfl, Op.Stores.ignores (.inr rfl) (hne htgt)⟩
  | _ => cases h

theorem target_of_push (h : p.isInstance .pushInstruction = true)
    (ht : p.targetLocal = some (.local_ n)) : p = .astore n := by
  cases p with
  | astore m =>
    cases ht
    rfl
  | dup | const | getstatic | iload | aload => cases ht
  | _ => cases h

theorem fits_of_push (h : p.isInstance .pushInstruction = true) (hs : p.Straight) : p.Fits := by
  refine ⟨hs, ?_⟩
  cases p with
  | instruction => cases h
  | _ => rfl

theorem pushStoreInc_keeps : pushStoreInc.Keeps where
  instructions := by decide
  classes h := by cases h
  exchange contents test h hs _ := by
    obtain ⟨p, q, r, rfl, hp, hq, hr⟩ := forall₂_three h
    obtain ⟨m, k, rfl⟩ := Piece.eq_iinc hr
    obtain ⟨o, n, hi, ht, hst⟩ := stores_of_istore hq
    have hfit := fits_triple ⟨hs (.iinc m k) (by simp), rfl⟩ (fits_of_push hp (hs p (by simp)))
      (fits_of_store hq (hs q (by simp)))
    by_cases hsrc : p.sourceLocal = some (.local_ m)
    · refine .inl (congrArg Except.ok ?_)
      rw [Bool.not_eq_false', Bool.or_eq_true]
      exact .inl (beq_iff_eq.mpr hsrc)
    by_cases hn : n = m
    · subst hn
      refine .inl (congrArg Except.ok ?_)
      rw [Bool.not_eq_false', Bool.or_eq_true]
      exact .inr (beq_iff_eq.mpr ht)
    refine .inr ⟨congrArg Except.ok ?_, _, rfl, ?_⟩
    · rw [Bool.not_eq_true', Bool.or_eq_false_iff]
      refine ⟨beq_eq_false_iff_ne.mpr hsrc, beq_eq_false_iff_ne.mpr ?_⟩
      intro (h : q.targetLocal = some (.local_ m))
      rw [ht] at h
      cases h
      exact hn rfl
    have hlines : ∀ o', p.items = [.op o'] →
        Replaces [.op o', .op o, .op (.iinc m k)] [.op (.iinc m k), .op o', .op o] [] →
        Exchange [p, q, .iinc m k] [.iinc m k, p, q] := by
      intro o' hi' h
      refine Exchange.of_ops rfl hfit ?_ ?_ h
      · simp only [emit_cons, emit_nil, hi, hi']
        rfl
      · simp only [emit_cons, emit_nil, hi, hi']
        rfl
    by_cases htgt : p.targetLocal = some (.local_ m)
    · cases target_of_push hp htgt
      exact hlines _ rfl (Jvm.astore_inc_replaces hst hn)
    · obtain ⟨o', hi', hign⟩ := ignores_of_push hp (hs p (by simp)) hsrc htgt
      exact hlines o' hi' (Jvm.push_store_inc_replaces hign (hst.ignores hn))

theorem matchStoreLoad_keeps : matchStoreLoad.Keeps where
  instructions := by decide
  classes h := by cases h
  exchange contents test h hs _ := by
    obtain ⟨p, q, rfl, hp, hq⟩ := forall₂_two h
    obtain ⟨o, n, hi, ht, hst⟩ := stores_of_istore hp
    obtain ⟨o', m, hi', ht', hl⟩ := load_of_iload hq
    by_cases hn : p.targetLocal = q.sourceLocal
    · refine .inr ⟨congrArg Except.ok (beq_iff_eq.mpr hn), [.dup, p], rfl, ?_⟩
      rw [ht, ht'] at hn
      cases hn
      refine Exchange.of_ops rfl (fits_pair ⟨straight_dup, rfl⟩
        (fits_of_store hp (hs p (by simp)))) ?_ ?_ (Jvm.store_load_replaces_dup hst hl)
      · simp only [emit_cons, emit_nil, hi, hi']
        rfl
      · simp only [emit_cons, emit_nil, hi]
        rfl
    · exact .inl (congrArg Except.ok (beq_eq_false_iff_ne.mpr hn))

theorem matchStoreLoadIreturn_keeps : matchStoreLoadIreturn.Keeps where
  instructions := by decide
  classes h := by cases h
  exchange contents test h hs _ := by
    obtain ⟨p, q, r, rfl, hp, hq, hr⟩ := forall₂_three h
    cases Piece.eq_ireturn hr
    obtain ⟨o, n, hi, ht, hst⟩ := stores_of_istore hp
    obtain ⟨o', m, hi', ht', hl⟩ := load_of_iload hq
    by_cases hn : p.targetLocal = q.sourceLocal
    · refine .inr ⟨congrArg Except.ok (beq_iff_eq.mpr hn), _, rfl, ?_⟩
      rw [ht, ht'] at hn
      cases hn
      refine Exchange.of_lines rfl (fits_triple fits_nop fits_nop ⟨hs _ (by simp), rfl⟩) ?_ rfl
        (Jvm.store_load_replaces hst hl (Jvm.dead_ireturn n []))
      simp only [emit_cons, emit_nil, hi, hi']
      rfl
    · exact .inl (congrArg Except.ok (beq_eq_false_iff_ne.mpr hn))

theorem matchDupIstoreIreturn_keeps : matchDupIstoreIreturn.Keeps where
  instructions := by decide
  classes h := by cases h
  exchange contents test h hs _ := by
    obtain ⟨p, q, r, rfl, hp, hq, hr⟩ := forall₂_three h
    cases Piece.eq_dup hp
    cases Piece.eq_ireturn hr
    obtain ⟨o, n, hi, -, hst⟩ := stores_of_istore hq
    refine .inr ⟨rfl, _, rfl, Exchange.of_lines rfl
      (fits_triple fits_nop fits_nop ⟨hs _ (by simp), rfl⟩) ?_ rfl
      (Jvm.dup_store_replaces hst (Jvm.dead_ireturn n []))⟩
    simp only [emit_cons, emit_nil, hi]
    rfl

theorem matchStorePutstaticLoadIreturn_keeps : matchStorePutstaticLoadIreturn.Keeps where
  instructions := by decide
  classes h := by cases h
  exchange contents test h hs _ := by
    obtain ⟨p, _, hp, h₁, rfl⟩ := List.forall₂_cons_left_iff.mp h
    obtain ⟨q, _, hq, h₂, rfl⟩ := List.forall₂_cons_left_iff.mp h₁
    obtain ⟨r, u, x, rfl, hr, hu, hx⟩ := forall₂_three h₂
    cases Piece.eq_putstatic hr
    cases Piece.eq_ireturn hx
    obtain ⟨o, n, hi, ht, hst⟩ := stores_of_istore hp
    obtain ⟨o₂, m, hi₂, ht₂, hl₂⟩ := load_of_iload hq
    obtain ⟨o₃, i, hi₃, ht₃, hl₃⟩ := load_of_iload hu
    by_cases hn : p.targetLocal = u.sourceLocal
    · by_cases hm : q.sourceLocal = p.targetLocal
      · refine .inl (congrArg Except.ok ?_)
        rw [Bool.and_eq_false_iff, Bool.not_eq_false']
        exact .inr (beq_iff_eq.mpr hm)
      · refine .inr ⟨congrArg Except.ok ?_, [.nop, q, .putstatic, .nop, .ireturn], rfl, ?_⟩
        · rw [Bool.and_eq_true, Bool.not_eq_true']
          exact ⟨beq_iff_eq.mpr hn, beq_eq_false_iff_ne.mpr hm⟩
        rw [ht, ht₃] at hn
        cases hn
        rw [ht, ht₂] at hm
        refine Exchange.of_lines rfl ?_ ?_ ?_ (Jvm.store_putstatic_load_replaces hst hl₂ hl₃
          (fun h => hm (congrArg (fun k => some (Place.local_ k)) h)) (Jvm.dead_ireturn n []))
        · have hq' : q.Fits := ⟨hs q (by simp), Piece.isSwitch_of_items hi₂⟩
          refine List.forall_mem_cons.mpr ⟨fits_nop, List.forall_mem_cons.mpr ⟨hq', ?_⟩⟩
          exact fits_triple ⟨hs .putstatic (by simp), rfl⟩ fits_nop ⟨hs .ireturn (by simp), rfl⟩
        · simp only [emit_cons, emit_nil, hi, hi₂, hi₃]
          rfl
        · simp only [emit_cons, emit_nil, hi₂]
          rfl
    · refine .inl (congrArg Except.ok ?_)
      rw [Bool.and_eq_false_iff]
      exact .inl (beq_eq_false_iff_ne.mpr hn)

theorem fromEnd_append (ps : List Piece) (r : Piece) : fromEnd (ps ++ [r]) 1 = some r := by
  simp [fromEnd]

/-- What stands between stores to the same local leaves the first one dead. -/
theorem mids_dead (ps mids : List Piece) (hs : ∀ p ∈ ps ++ mids ++ [r], p.Straight)
    (hi : ∀ p ∈ ps ++ mids ++ [r], p.isInstance .instruction = true)
    (hc : List.IsChain Settled (ps ++ mids ++ [r]))
    (hv : mids.all (midInstructionValid (some (.local_ n))) = true) (hr : r.items = [.op o])
    (hst : o.Stores n) : Dead n (emit (mids ++ [r])) := by
  have hsw := switches_settled hc hi
  rw [emit_append, emit_cons, hr]
  refine Jvm.Dead.append (passes_of_mids ?_ ?_ ?_ hv) (hst.dead _)
  · exact fun p hp => hs p (by simp [hp])
  · exact fun p hp => hi p (by simp [hp])
  · exact fun p hp => hsw p (by simp [hp])

theorem fits_rest (ps mids : List Piece) (hs : ∀ p ∈ ps ++ mids ++ [r], p.Straight)
    (hi : ∀ p ∈ ps ++ mids ++ [r], p.isInstance .instruction = true)
    (hc : List.IsChain Settled (ps ++ mids ++ [r])) (hr : r.items = [.op o]) :
    ∀ p ∈ mids ++ [r], p.Fits := by
  intro p hp
  have hmem : p ∈ ps ++ mids ++ [r] := by
    rw [List.append_assoc]
    exact List.mem_append_right _ hp
  refine ⟨hs p hmem, ?_⟩
  rcases List.mem_append.mp hp with hp | hp
  · exact switches_settled hc hi p (List.mem_append_right _ hp)
  · cases List.mem_singleton.mp hp
    exact Piece.isSwitch_of_items hr

theorem matchStoreStore_keeps (k : Nat) : (matchStoreStore k).Keeps where
  instructions := by
    rw [matchStoreStore]
    simp
  classes h := by cases h
  exchange contents test h hs hc := by
    have hi := forall₂_instruction (by rw [matchStoreStore]; simp) h
    obtain ⟨pm, rs, rfl, hpm, hrs⟩ := forall₂_split h
    obtain ⟨ps, mids, rfl, hps, -⟩ := forall₂_split hpm
    obtain ⟨p, rfl, hp⟩ := forall₂_one hps
    obtain ⟨r, rfl, hr⟩ := forall₂_one hrs
    obtain ⟨o, n, hip, ht, hst⟩ := stores_of_istore hp
    obtain ⟨o', n', hir, ht', hst'⟩ := stores_of_istore hr
    have hacc : (matchStoreStore k).accepts contents ([p] ++ mids ++ [r]) =
        .ok (p.targetLocal == r.targetLocal && mids.all (midInstructionValid p.targetLocal)) := by
      rw [matchStoreStore]
      simp only [fromEnd_append]
      simp [targetAt]
    rw [hacc]
    cases hb : p.targetLocal == r.targetLocal && mids.all (midInstructionValid p.targetLocal) with
    | false => exact .inl rfl
    | true =>
      rw [Bool.and_eq_true, beq_iff_eq, ht, ht'] at hb
      obtain ⟨hn, hv⟩ := hb
      cases hn
      refine .inr ⟨rfl, .pop :: (mids ++ [r]), rfl, Exchange.of_lines ?_ ?_ ?_ ?_
        (Jvm.store_replaces_pop hst (mids_dead _ _ hs hi hc hv hir hst'))⟩
      · simp
      · exact List.forall_mem_cons.mpr ⟨⟨straight_pop, rfl⟩, fits_rest _ _ hs hi hc hir⟩
      · rw [List.append_assoc, List.singleton_append, emit_cons, hip]
      · rw [emit_cons]
        rfl

theorem matchStoreLoadStore_keeps (k : Nat) : (matchStoreLoadStore k).Keeps where
  instructions := by
    rw [matchStoreLoadStore]
    simp
  classes h := by cases h
  exchange contents test h hs hc := by
    have hi := forall₂_instruction (by rw [matchStoreLoadStore]; simp) h
    obtain ⟨pm, rs, rfl, hpm, hrs⟩ := forall₂_split h
    obtain ⟨ps, mids, rfl, hps, -⟩ := forall₂_split hpm
    obtain ⟨p, q, rfl, hp, hq⟩ := forall₂_two hps
    obtain ⟨r, rfl, hr⟩ := forall₂_one hrs
    obtain ⟨o, n, hip, ht, hst⟩ := stores_of_istore hp
    obtain ⟨o₂, n₂, hiq, ht₂, hl⟩ := load_of_iload hq
    obtain ⟨o', n', hir, ht', hst'⟩ := stores_of_istore hr
    have hacc : (matchStoreLoadStore k).accepts contents ([p, q] ++ mids ++ [r]) =
        .ok (p.targetLocal == q.sourceLocal && p.targetLocal == r.targetLocal &&
          mids.all (midInstructionValid p.targetLocal)) := by
      rw [matchStoreLoadStore]
      simp only [fromEnd_append]
      simp [targetAt, sourceAt]
    rw [hacc]
    cases hb : p.targetLocal == q.sourceLocal && p.targetLocal == r.targetLocal &&
      mids.all (midInstructionValid p.targetLocal) with
    | false => exact .inl rfl
    | true =>
      rw [Bool.and_eq_true, Bool.and_eq_true, beq_iff_eq, beq_iff_eq, ht, ht', ht₂] at hb
      obtain ⟨⟨hn, hn'⟩, hv⟩ := hb
      cases hn
      cases hn'
      refine .inr ⟨rfl, .nop :: .nop :: (mids ++ [r]), rfl, Exchange.of_lines ?_ ?_ ?_ ?_
        (Jvm.store_load_replaces hst hl (mids_dead _ _ hs hi hc hv hir hst'))⟩
      · simp
      · exact List.forall_mem_cons.mpr ⟨fits_nop, List.forall_mem_cons.mpr
          ⟨fits_nop, fits_rest _ _ hs hi hc hir⟩⟩
      · simp only [List.cons_append, List.nil_append, emit_cons, hip, hiq]
      · rw [emit_cons, emit_cons]
        rfl

theorem matchSwap_keeps : matchSwap.Keeps where
  instructions := by decide
  classes h := by cases h
  exchange contents test h hs hc := by
    have hi := forall₂_instruction (by decide) h
    obtain ⟨p, _, hp, h₁, rfl⟩ := List.forall₂_cons_left_iff.mp h
    obtain ⟨q, _, hq, h₂, rfl⟩ := List.forall₂_cons_left_iff.mp h₁
    obtain ⟨u, x, r, rfl, hu, hx, hr⟩ := forall₂_three h₂
    obtain ⟨o, n, hip, ht, hst⟩ := stores_of_istore hp
    obtain ⟨o₂, m, hiq, ht₂, hl₂⟩ := load_of_iload hq
    obtain ⟨o₃, n₃, hiu, ht₃, hl₃⟩ := load_of_iload hu
    obtain ⟨o', n', hir, ht', hst'⟩ := stores_of_istore hr
    have hacc : matchSwap.accepts contents [p, q, u, x, r] =
        .ok (!(p.targetLocal == q.sourceLocal) && p.targetLocal == u.sourceLocal &&
          [x].all (midInstructionValid p.targetLocal) && r.targetLocal == p.targetLocal) := rfl
    rw [hacc]
    cases hb : !(p.targetLocal == q.sourceLocal) && p.targetLocal == u.sourceLocal &&
      [x].all (midInstructionValid p.targetLocal) && r.targetLocal == p.targetLocal with
    | false => exact .inl rfl
    | true =>
      rw [Bool.and_eq_true, Bool.and_eq_true, Bool.and_eq_true, Bool.not_eq_true', beq_iff_eq,
        beq_iff_eq, beq_eq_false_iff_ne, ht, ht', ht₂, ht₃] at hb
      obtain ⟨⟨⟨hm, hn⟩, hv⟩, hn'⟩ := hb
      cases hn
      cases hn'
      have hm' : m ≠ n := by
        rintro rfl
        exact hm rfl
      have hrest := fits_rest [p, q, u] [x] hs hi hc hir
      refine .inr ⟨rfl, [.nop, q, .swap, x, r], rfl, Exchange.of_lines rfl ?_ ?_ ?_
        (Jvm.swap_replaces hst hl₂ hl₃ hm'
          (mids_dead [p, q, u] [x] hs hi hc hv hir hst'))⟩
      · exact List.forall_mem_cons.mpr ⟨fits_nop, List.forall_mem_cons.mpr
          ⟨⟨hs q (by simp), Piece.isSwitch_of_items hiq⟩, List.forall_mem_cons.mpr
            ⟨⟨straight_swap, rfl⟩, hrest⟩⟩⟩
      · simp only [emit_cons, hip, hiq, hiu, List.cons_append, List.nil_append]
      · simp only [emit_cons, hiq, List.cons_append, List.nil_append]
        rfl

end

end Peephole

end Cibyl
