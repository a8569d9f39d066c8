import Cibyl.LocalWrites

namespace Cibyl
set_option autoImplicit true

namespace Jvm

/-- Values of two runs that have the same code up to the relation `R`. -/
inductive ValRel (R : List Item → List Item → Prop) : Value → Value → Prop where
  | int (v : Word) : ValRel R (.int v) (.int v)
  | long (v : DWord) : ValRel R (.long v) (.long v)
  | float (b : Word) : ValRel R (.float b) (.float b)
  | ref (r : Ref) : ValRel R (.ref r) (.ref r)
  | ret : R c c' → ValRel R (.ret c) (.ret c')

def StackRel (R : List Item → List Item → Prop) : List Value → List Value → Prop :=
  List.Forall₂ (ValRel R)

/-- Frames of the two runs, whose locals agree where `P` holds. -/
structure FrameRel (R : List Item → List Item → Prop) (P : Nat → Prop) (f f' : Frame σ) : Prop where
  stack : StackRel R f.stack f'.stack
  locals : ∀ n, P n → ValRel R (f.locals n) (f'.locals n)
  world : f.world = f'.world

inductive OutcomeRel (R : List Item → List Item → Prop) (P : Nat → Prop) :
    Outcome σ → Outcome σ → Prop where
  | ok : FrameRel R P f f' → OutcomeRel R P (.ok f) (.ok f')
  | throw (e : JavaException) (w : World σ) : OutcomeRel R P (.throw e w) (.throw e w)
  | stuck (o : Outcome σ) : OutcomeRel R P .stuck o

def Op.reads : Op → List Nat
  | .iload n | .aload n | .iinc n _ => [n]
  | _ => []

/-- No method of Java takes or returns a return address, so a call of one fails to link. -/
def Runtime.NoReturnAddresses (rt : Runtime σ) : Prop :=
  ∀ e w, .ret ∈ e.args ∨ e.result = some .ret → ∃ x w', ∀ args, rt.call e args w = (.error x, w')

section

variable {R : List Item → List Item → Prop} {P : Nat → Prop} {σ : Type} {rt : Runtime σ}
  {f f' : Frame σ}

theorem ValRel.ty (h : ValRel R v v') : v'.ty = v.ty := by
  cases h <;> rfl

theorem ValRel.slots (h : ValRel R v v') : v'.slots = v.slots := congrArg Ty.slots h.ty

theorem ValRel.eq (h : ValRel R v v') (hv : v.ty ≠ .ret) : v' = v := by
  cases h with
  | ret => exact absurd rfl hv
  | _ => rfl

theorem ValRel.refl (hv : v.ty ≠ .ret) : ValRel R v v := by
  cases v with
  | int v => exact .int v
  | long v => exact .long v
  | float b => exact .float b
  | ref r => exact .ref r
  | ret c => exact absurd rfl hv

theorem StackRel.eq (h : StackRel R vs vs') (hv : ∀ v ∈ vs, v.ty ≠ .ret) : vs' = vs := by
  induction h with
  | nil => rfl
  | cons hx _ ih =>
    rw [hx.eq (hv _ (List.mem_cons_self ..)), ih fun v h => hv v (List.mem_cons_of_mem _ h)]

theorem StackRel.refl (hv : ∀ v ∈ vs, v.ty ≠ .ret) : StackRel R vs vs := by
  induction vs with
  | nil => exact .nil
  | cons v vs ih =>
    exact .cons (.refl (hv v (List.mem_cons_self ..)))
      (ih fun v h => hv v (List.mem_cons_of_mem _ h))

theorem StackRel.types (h : StackRel R vs vs') : vs'.map Value.ty = vs.map Value.ty := by
  induction h with
  | nil => rfl
  | cons hx _ ih => rw [List.map_cons, List.map_cons, hx.ty, ih]

theorem popArgs_rel (hs : StackRel R s s') (h : popArgs args s = some (vs, t)) :
    ∃ vs' t', popArgs args s' = some (vs', t') ∧ StackRel R vs vs' ∧ StackRel R t t' := by
  rw [popArgs] at h
  split at h
  case isFalse => cases h
  next hty =>
  cases h
  have ht : StackRel R (s.take args.length).reverse (s'.take args.length).reverse :=
    List.rel_reverse (List.forall₂_take _ hs)
  refine ⟨_, s'.drop args.length, ?_, ht, List.forall₂_drop _ hs⟩
  rw [popArgs]
  exact if_pos (ht.types.trans hty)

theorem setLocal_rel {l l' : Nat → Value} (hl : ∀ n, P n → ValRel R (l n) (l' n))
    (hv : ValRel R v v') (n : Nat) :
    ∀ i, (P i ∨ i ∈ some n) → ValRel R (setLocal l n v i) (setLocal l' n v' i) := by
  intro i hi
  by_cases h : i = n
  · subst h
    rw [setLocal_same, setLocal_same]
    exact hv
  · rw [setLocal_ne _ _ h, setLocal_ne _ _ h]
    exact hl i (hi.resolve_right fun hm => h (Option.some.inj hm).symm)

theorem ofMemM_rel {x : MemM α} {push : α → List Value} {s s' : List Value} {l l' : Nat → Value}
    (hs : StackRel R s s') (hl : ∀ n, P n → ValRel R (l n) (l' n))
    (hp : ∀ a, ∀ v ∈ push a, v.ty ≠ .ret) (w : World σ) :
    OutcomeRel R P (ofMemM s l w push x) (ofMemM s' l' w push x) := by
  rw [ofMemM, ofMemM]
  split
  · exact .ok ⟨List.rel_append (StackRel.refl (hp _)) hs, hl, rfl⟩
  · exact .throw _ _

theorem ofExcept_rel {x : Except JavaException Value} {s s' : List Value} {l l' : Nat → Value}
    (hs : StackRel R s s') (hl : ∀ n, P n → ValRel R (l n) (l' n))
    (hx : ∀ v, x = .ok v → v.ty ≠ .ret) (w : World σ) :
    OutcomeRel R P (ofExcept s l w x) (ofExcept s' l' w x) := by
  cases x with
  | ok v => exact .ok ⟨.cons (.refl (hx v rfl)) hs, hl, rfl⟩
  | error e => exact .throw _ _

theorem OutcomeRel.mono {o o' : Outcome σ} (h : OutcomeRel R P o o') (hq : ∀ n, Q n → P n) :
    OutcomeRel R Q o o' := by
  cases h with
  | ok hf => exact .ok ⟨hf.stack, fun n hn => hf.locals n (hq n hn), hf.world⟩
  | throw e w => exact .throw e w
  | stuck => exact .stuck _

theorem map_ok {x : Except JavaException α} {g : α → Value} (hg : ∀ a, (g a).ty ≠ .ret)
    (h : x.map g = .ok v) : v.ty ≠ .ret := by
  cases x with
  | ok a =>
    cases h
    exact hg a
  | error e => cases h

/-- An operation that reads only related locals has related outcomes. -/
theorem Op.exec_rel {o : Op} (hrt : rt.NoReturnAddresses) (hf : FrameRel R P f f')
    (hr : ∀ n ∈ o.reads, P n) :
    OutcomeRel R (fun n => P n ∨ n ∈ o.writes) (o.exec rt f) (o.exec rt f') := by
  obtain ⟨s, l, w⟩ := f
  obtain ⟨s', l', w'⟩ := f'
  obtain ⟨hs, hl, hw⟩ := hf
  cases hw
  have keep : ∀ n, P n ∨ n ∈ (none : Option Nat) → ValRel R (l n) (l' n) := fun n h =>
    hl n (h.resolve_right (fun h => by cases h))
  have hlocal (n : Nat) (hm : n ∈ o.reads) {v : Value} (hv : l n = v) (hr' : v.ty ≠ .ret) :
      l' n = v := by
    subst hv
    exact (hl n (hr n hm)).eq hr'
  have hnil {x x' : Outcome σ} (h : OutcomeRel R P x x') :
      OutcomeRel R (fun n => P n ∨ n ∈ (none : Option Nat)) x x' :=
    h.mono fun n h => h.resolve_right (fun h => by cases h)
  generalize he : o.exec rt ⟨s, l, w⟩ = out
  unfold Op.exec at he
  split at he
  all_goals
    subst he
    try
      rename_i heq
      cases heq
  case h_1 | h_2 | h_3 | h_4 => exact .ok ⟨.cons (.int _) hs, keep, rfl⟩
  case h_5 => exact .ok ⟨.cons (.long _) hs, keep, rfl⟩
  case h_6 n =>
    split
    · next v hv =>
      rw [exec_iload _ _ _ _ (hlocal n (List.mem_singleton_self _) hv (fun h => by cases h))]
      exact .ok ⟨.cons (.int v) hs, keep, rfl⟩
    · exact .stuck _
  case h_7 =>
    obtain _ | ⟨⟨⟩, hs⟩ := hs
    exact .ok ⟨hs, setLocal_rel hl (.int _) _, rfl⟩
  case h_8 n =>
    split
    · next r hv =>
      rw [exec_aload _ _ _ _ (hlocal n (List.mem_singleton_self _) hv (fun h => by cases h))]
      exact .ok ⟨.cons (.ref r) hs, keep, rfl⟩
    · exact .stuck _
  case h_9 =>
    obtain _ | ⟨⟨⟩, hs⟩ := hs
    exact .ok ⟨hs, setLocal_rel hl (.ref _) _, rfl⟩
  case h_10 =>
    obtain _ | ⟨hv, hs⟩ := hs
    cases hv with
    | ret hc => exact .ok ⟨hs, setLocal_rel hl (.ret hc) _, rfl⟩
  case h_11 n k =>
    split
    · next v hv =>
      rw [exec_iinc _ _ _ _ (hlocal n (List.mem_singleton_self _) hv (fun h => by cases h))]
      exact .ok ⟨hs, setLocal_rel hl (.int _) _, rfl⟩
    · exact .stuck _
  case h_12 =>
    obtain _ | ⟨⟨⟩, _ | ⟨⟨⟩, hs⟩⟩ := hs
    exact hnil (ofExcept_rel hs hl (fun _ => map_ok fun _ h => by cases h) _)
  case h_13 =>
    obtain _ | ⟨⟨⟩, hs⟩ := hs
    exact .ok ⟨.cons (.int _) hs, keep, rfl⟩
  case h_14 =>
    obtain _ | ⟨⟨⟩, _ | ⟨⟨⟩, hs⟩⟩ := hs
    exact hnil (ofExcept_rel hs hl (fun _ => map_ok fun _ h => by cases h) _)
  case h_15 | h_29 =>
    obtain _ | ⟨⟨⟩, _ | ⟨⟨⟩, hs⟩⟩ := hs
    exact .ok ⟨.cons (.long _) hs, keep, rfl⟩
  case h_16 =>
    obtain _ | ⟨⟨⟩, _ | ⟨⟨⟩, hs⟩⟩ := hs
    exact .ok ⟨.cons (.int _) hs, keep, rfl⟩
  case h_17 =>
    obtain _ | ⟨⟨⟩, hs⟩ := hs
    exact .ok ⟨.cons (.long _) hs, keep, rfl⟩
  case h_18 =>
    obtain _ | ⟨⟨⟩, hs⟩ := hs
    exact .ok ⟨.cons (.int _) hs, keep, rfl⟩
  case h_19 x _ =>
    obtain _ | ⟨hx, hs⟩ := hs
    split
    · next h =>
      rw [Op.exec, if_pos (hx.slots.trans h)]
      exact .ok ⟨.cons hx (.cons hx hs), keep, rfl⟩
    · exact .stuck _
  case h_20 =>
    obtain _ | ⟨hx, _ | ⟨hy, _ | ⟨hz, hs⟩⟩⟩ := hs
    split
    · next h =>
      rw [Op.exec, if_pos (by rw [hx.slots, hy.slots, hz.slots]; exact h)]
      exact .ok ⟨.cons hx (.cons hy (.cons hz (.cons hx hs))), keep, rfl⟩
    · exact .stuck _
  case h_21 =>
    obtain _ | ⟨hx, hs⟩ := hs
    split
    · next h =>
      simp only [Op.exec, if_pos (hx.slots.trans h)]
      exact .ok ⟨.cons hx (.cons hx hs), keep, rfl⟩
    · next h =>
      obtain _ | ⟨hy, hs⟩ := hs
      · exact .stuck _
      · change OutcomeRel R _ (if _ then _ else _) _
        split
        · next h' =>
          simp only [Op.exec, if_neg (fun hx' => h (hx.slots.symm.trans hx')),
            if_pos (hy.slots.trans h')]
          exact .ok ⟨.cons hx (.cons hy (.cons hx (.cons hy hs))), keep, rfl⟩
        · exact .stuck _
  case h_22 =>
    obtain _ | ⟨hx, hs⟩ := hs
    split
    · next h =>
      rw [Op.exec, if_pos (hx.slots.trans h)]
      exact .ok ⟨hs, keep, rfl⟩
    · exact .stuck _
  case h_23 =>
    obtain _ | ⟨hx, _ | ⟨hy, hs⟩⟩ := hs
    split
    · next h =>
      rw [exec_swap _ _ _ _ (hx.slots.trans h.1) (hy.slots.trans h.2)]
      exact .ok ⟨.cons hy (.cons hx hs), keep, rfl⟩
    · exact .stuck _
  case h_24 =>
    obtain _ | ⟨⟨⟩, _ | ⟨⟨⟩, hs⟩⟩ := hs
    exact hnil (ofMemM_rel hs hl (by simp [Value.ty]) _)
  case h_25 =>
    obtain _ | ⟨⟨⟩, _ | ⟨⟨⟩, _ | ⟨⟨⟩, hs⟩⟩⟩ := hs
    exact hnil (ofMemM_rel hs hl (fun _ _ h => by cases h) _)
  case h_26 => exact .ok ⟨.cons (.ref _) hs, keep, rfl⟩
  case h_27 => exact .ok ⟨.cons (.int _) hs, keep, rfl⟩
  case h_28 =>
    obtain _ | ⟨⟨⟩, hs⟩ := hs
    exact .ok ⟨hs, keep, rfl⟩
  case h_30 =>
    obtain _ | ⟨⟨⟩, _ | ⟨⟨⟩, hs⟩⟩ := hs
    exact hnil (ofExcept_rel hs hl (fun _ => map_ok fun _ h => by cases h) _)
  case h_31 =>
    obtain _ | ⟨⟨⟩, hs⟩ := hs
    exact hnil (ofMemM_rel hs hl (by simp [Value.ty]) _)
  case h_32 =>
    obtain _ | ⟨⟨⟩, _ | ⟨⟨⟩, hs⟩⟩ := hs
    exact hnil (ofMemM_rel hs hl (fun _ _ h => by cases h) _)
  case h_33 =>
    obtain _ | ⟨⟨⟩, _ | ⟨⟨⟩, _ | ⟨⟨⟩, hs⟩⟩⟩ := hs
    exact hnil (ofMemM_rel hs hl (fun _ _ h => by cases h) _)
  case h_34 e =>
    split
    · next args t hp =>
      obtain ⟨args', t', hp', ha, ht⟩ := popArgs_rel hs hp
      rw [Op.exec, hp']
      dsimp only
      by_cases hret : .ret ∈ e.args ∨ e.result = some .ret
      · obtain ⟨x, w', hx⟩ := hrt e w hret
        rw [hx, hx]
        exact .throw _ _
      have hargs : args' = args := by
        refine ha.eq fun v hv hr => hret (.inl ?_)
        rw [← popArgs_ty hp]
        exact List.mem_map.mpr ⟨v, hv, hr⟩
      rw [hargs]
      split
      · next vs w' hc =>
        have hvs : ∀ v ∈ vs, v.ty ≠ .ret := by
          intro v hv hr
          have hm : Ty.ret ∈ e.result.toList := by
            rw [← rt.typed _ _ _ _ _ hc]
            exact List.mem_map.mpr ⟨v, hv, hr⟩
          exact hret (.inr (Option.mem_toList.mp hm))
        exact .ok ⟨List.rel_append (StackRel.refl hvs) ht, keep, rfl⟩
      · exact .throw _ _
    · exact .stuck _
  case h_35 => exact .stuck _

end

/-- The operation stores the top of the stack in the local. -/
def Op.Stores (o : Op) (n : Nat) : Prop := o = .istore n ∨ o = .astore n

theorem Op.Stores.writes {o : Op} (h : o.Stores n) : o.writes = some n := by
  rcases h with rfl | rfl <;> rfl

theorem Op.Stores.reads {o : Op} (h : o.Stores n) : o.reads = [] := by
  rcases h with rfl | rfl <;> rfl

theorem Op.Stores.exec_cases {o : Op} (h : o.Stores n) (rt : Runtime σ) (f : Frame σ) :
    o.exec rt f = .stuck ∨ ∃ v s, f.stack = v :: s ∧ v.slots = 1 ∧
      o.exec rt f = .ok ⟨s, setLocal f.locals n v, f.world⟩ := by
  obtain ⟨s, l, w⟩ := f
  cases s with
  | nil => rcases h with rfl | rfl <;> exact .inl rfl
  | cons v s =>
    rcases h with rfl | rfl <;> cases v <;> first
      | exact .inl rfl
      | exact .inr ⟨_, _, rfl, rfl, rfl⟩

end Jvm

end Cibyl
