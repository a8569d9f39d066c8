import Cibyl.LocalWrites

namespace Cibyl
set_option autoImplicit true

namespace Jvm

variable {P : Program σ}

/-- What a step of a thread does with its activations. -/
inductive Moves (P : Program σ) : Thread σ → Thread σ → Prop where
  | call : P.call f = some (body, args, s) →
      Moves P ⟨f :: fs, w⟩ ⟨.enter body args :: { f with stack := s } :: fs, w⟩
  | run : P.call ⟨body, c, s, l⟩ = none →
      Jvm.step P.rt body ⟨c, ⟨s, l, w⟩⟩ = .run ⟨c', ⟨s', l', w'⟩⟩ →
      Moves P ⟨⟨body, c, s, l⟩ :: fs, w⟩ ⟨⟨body, c', s', l'⟩ :: fs, w'⟩
  | return_ {v : Option Value} : (∀ u ∈ v.toList, u.ty ≠ .ret) →
      Moves P ⟨g :: f :: fs, w⟩
        ⟨{ f with code := f.code.tail, stack := v.toList ++ f.stack } :: fs, w'⟩
  | throw : findHandler (P.isInstance w' n) f.body f.code = some e →
      findLabel f.body e.handler = some c →
      Moves P ⟨above ++ f :: below, w⟩
        ⟨{ f with code := c, stack := [.ref (.object n)] } :: below, w'⟩

/-- How a method goes on: with the line below, at a label or behind a `jsr`. -/
inductive Continues (rt : Runtime σ) (body : List Item) : Jvm.Config σ → Jvm.Config σ → Prop where
  | op : o.exec rt f = .ok f' → Continues rt body ⟨.op o :: c, f⟩ ⟨c, f'⟩
  | next {i : Item} : (∀ o, i ≠ .op o) → s' ⊆ s →
      Continues rt body ⟨i :: c, ⟨s, l, w⟩⟩ ⟨c, ⟨s', l, w⟩⟩
  | jump {i : Item} : (∀ o, i ≠ .op o) → findLabel body label = some c →
      (∀ v ∈ s', v ∈ s ∨ v = .ret d) →
      Continues rt body ⟨i :: d, ⟨s, l, w⟩⟩ ⟨c, ⟨s', l, w⟩⟩
  | ret : l n = .ret c → Continues rt body ⟨.ret n :: d, ⟨s, l, w⟩⟩ ⟨c, ⟨s, l, w⟩⟩

theorem jump_cases (body : List Item) (l : Label) (f : Frame σ) :
    (∃ c, findLabel body l = some c ∧ jump body l f = .run ⟨c, f⟩) ∨ jump body l f = .stuck := by
  rw [jump]
  cases findLabel body l with
  | none => exact .inr rfl
  | some c => exact .inl ⟨c, rfl, rfl⟩

/-- No method returns a return address. -/
theorem step_return {rt : Runtime σ} {v : Option Value} (h : Jvm.step rt body c = .return_ v w) :
    ∀ u ∈ v.toList, u.ty ≠ .ret := by
  have hj {l : Label} {f : Frame σ} {p : Prop} (h : jump body l f = .return_ v w) : p := by
    rcases jump_cases body l f with ⟨c, -, he⟩ | he <;> rw [he] at h <;> cases h
  obtain ⟨_ | ⟨i, code⟩, s, l, w₀⟩ := c
  · cases h
  · cases i with
    | ireturn | lreturn =>
      rcases s with _ | ⟨x, s⟩
      · cases h
      · cases x <;> cases h
        intro u hu
        cases List.mem_singleton.mp hu
        exact nofun
    | return_ =>
      cases h
      exact List.forall_mem_nil _
    | op o =>
      rw [Jvm.step] at h
      split at h <;> cases h
    | label | catch_ | abort => cases h
    | goto | jsr => exact hj h
    | cond1 k l =>
      rcases s with _ | ⟨x, s⟩
      · cases h
      · cases x <;> first
          | cases h
          | (simp only [Jvm.step] at h
             split at h
             · exact hj h
             · cases h)
    | cond2 k l =>
      rcases s with _ | ⟨x, _ | ⟨y, s⟩⟩
      · cases h
      · cases x <;> cases h
      · cases x <;> cases y <;> first
          | cases h
          | (simp only [Jvm.step] at h
             split at h
             · exact hj h
             · cases h)
    | ret n =>
      rw [Jvm.step] at h
      split at h <;> cases h
    | tableswitch | lookupswitch =>
      rcases s with _ | ⟨x, s⟩
      · cases h
      · cases x <;> first
          | cases h
          | exact hj h
    | athrow =>
      rcases s with _ | ⟨x, s⟩
      · cases h
      · cases x <;> cases h

theorem continues_of_step {rt : Runtime σ} (h : Jvm.step rt body c = .run d) :
    Continues rt body c d := by
  have hj {l : Label} {i : Item} {code : List Item} {f : Frame σ} {s : List Value}
      (hw : ∀ o, i ≠ .op o) (hs : ∀ v ∈ f.stack, v ∈ s ∨ v = .ret code)
      (h : jump body l f = .run d) :
      Continues rt body ⟨i :: code, ⟨s, f.locals, f.world⟩⟩ d := by
    rcases jump_cases body l f with ⟨c, hc, he⟩ | he <;> rw [he] at h <;> cases h
    exact .jump hw hc hs
  obtain ⟨_ | ⟨i, code⟩, s, l, w⟩ := c
  · cases h
  · cases i with
    | ireturn | lreturn =>
      rcases s with _ | ⟨x, s⟩
      · cases h
      · cases x <;> cases h
    | return_ | abort => cases h
    | op o =>
      rw [Jvm.step] at h
      cases ho : o.exec rt ⟨s, l, w⟩ with
      | ok f =>
        rw [ho] at h
        cases h
        exact .op ho
      | throw e w' =>
        rw [ho] at h
        cases h
      | stuck =>
        rw [ho] at h
        cases h
    | label | catch_ =>
      cases h
      exact .next (fun _ => Item.noConfusion) (List.Subset.refl s)
    | goto => exact hj (fun _ => Item.noConfusion) (fun _ => .inl) h
    | jsr =>
      refine hj (fun _ => Item.noConfusion) (fun v hv => ?_) h
      exact (List.mem_cons.mp hv).symm
    | cond1 k l =>
      rcases s with _ | ⟨x, s⟩
      · cases h
      · cases x <;> first
          | cases h
          | (simp only [Jvm.step] at h
             split at h
             · exact hj (fun _ => Item.noConfusion) (fun _ hv => .inl (List.mem_cons_of_mem _ hv)) h
             · cases h
               exact .next (fun _ => Item.noConfusion) (List.subset_cons_self _ _))
    | cond2 k l =>
      rcases s with _ | ⟨x, _ | ⟨y, s⟩⟩
      · cases h
      · cases x <;> cases h
      · cases x <;> cases y <;> first
          | cases h
          | (simp only [Jvm.step] at h
             split at h
             · refine hj (fun _ => Item.noConfusion) (fun _ hv => .inl ?_) h
               exact List.mem_cons_of_mem _ (List.mem_cons_of_mem _ hv)
             · cases h
               refine .next (fun _ => Item.noConfusion) fun _ hv => ?_
               exact List.mem_cons_of_mem _ (List.mem_cons_of_mem _ hv))
    | ret n =>
      rw [Jvm.step] at h
      split at h
      · next hn =>
        cases h
        exact .ret hn
      · cases h
    | tableswitch | lookupswitch =>
      rcases s with _ | ⟨x, s⟩
      · cases h
      · cases x <;> first
          | cases h
          | exact hj (fun _ => Item.noConfusion) (fun _ hv => .inl (List.mem_cons_of_mem _ hv)) h
    | athrow =>
      rcases s with _ | ⟨x, s⟩
      · cases h
      · cases x <;> cases h

theorem throwObject_run {t : Thread σ} (h : P.throwObject n w fs = .run t) :
    ∃ above f below e c, fs = above ++ f :: below ∧ (∀ g ∈ above,
        findHandler (P.isInstance w n) g.body g.code = none) ∧
      findHandler (P.isInstance w n) f.body f.code = some e ∧
      findLabel f.body e.handler = some c ∧
      t = ⟨{ f with code := c, stack := [.ref (.object n)] } :: below, w⟩ := by
  induction fs with
  | nil => cases h
  | cons f fs ih =>
    rw [Program.throwObject] at h
    cases he : findHandler (P.isInstance w n) f.body f.code with
    | none =>
      rw [he] at h
      obtain ⟨above, f', below, e, c, rfl, ha, hf⟩ := ih h
      exact ⟨f :: above, f', below, e, c, rfl, List.forall_mem_cons.mpr ⟨he, ha⟩, hf⟩
    | some e =>
      rw [he] at h
      dsimp only at h
      cases hl : findLabel f.body e.handler with
      | none =>
        rw [hl] at h
        cases h
      | some c =>
        rw [hl] at h
        cases h
        exact ⟨[], f, fs, e, c, rfl, List.forall_mem_nil _, he, hl, rfl⟩

namespace Thread

theorem moves_of_step {t u : Thread σ} (h : t.step P = .run u) : Moves P t u := by
  obtain ⟨fs, w⟩ := t
  rcases fs with _ | ⟨f, fs⟩
  · cases h
  · rw [step] at h
    cases hc : P.call f with
    | some p =>
      rw [hc] at h
      cases h
      exact .call hc
    | none =>
      rw [hc] at h
      obtain ⟨body, c, s, l⟩ := f
      dsimp only [stepTop] at h
      cases hs : Jvm.step P.rt body ⟨c, ⟨s, l, w⟩⟩ with
      | run d =>
        rw [hs] at h
        cases h
        exact .run hc hs
      | return_ v w' =>
        rw [hs] at h
        rcases fs with _ | ⟨g, fs⟩
        · cases h
        · cases h
          exact .return_ (step_return hs)
      | throw e g w' =>
        rw [hs] at h
        obtain ⟨above, f, below, e, c, he, -, hh, hl, rfl⟩ := throwObject_run h
        rw [he]
        exact .throw hh hl
      | athrow r g =>
        rw [hs] at h
        cases r with
        | object n =>
          obtain ⟨above, f, below, e, c, he, -, hh, hl, rfl⟩ := throwObject_run h
          rw [he]
          exact .throw hh hl
        | _ => cases h
      | stuck =>
        rw [hs] at h
        cases h

end Thread

/-- The code and the return addresses of an activation lie in the part `rest` of its body. -/
structure Inside (rest : List Item) (c : List Item) (s : List Value) (l : Nat → Value) : Prop where
  code : c <:+ rest
  stack : ∀ d, .ret d ∈ s → d <:+ rest
  locals : ∀ n d, l n = .ret d → d <:+ rest

/-- The operations that set up locals. -/
def Op.setsUp : Op → Bool
  | .iconst _ | .bipush _ | .sipush _ | .ldc _ | .getMemory | .istore _ | .astore _ => true
  | _ => false

theorem Op.exec_setsUp {rt : Runtime σ} {o : Op} (h : o.setsUp = true)
    (he : o.exec rt ⟨s, l, w⟩ = .ok ⟨s', l', w'⟩) :
    w' = w ∧ ∀ w₁, o.exec rt ⟨s, l, w₁⟩ = .ok ⟨s', l', w₁⟩ := by
  cases o with
  | iconst | bipush | sipush | ldc | getMemory =>
    cases he
    exact ⟨rfl, fun _ => rfl⟩
  | istore | astore =>
    rcases s with _ | ⟨x, s⟩
    · cases he
    · cases x <;> cases he <;> exact ⟨rfl, fun _ => rfl⟩
  | _ => cases h

/-- A body that begins with operations that set up locals. -/
structure Prologue (init rest : List Item) : Prop where
  straight : ∀ i ∈ init, ∃ o, i = .op o ∧ o.setsUp = true
  plain : ∀ i ∈ rest, i.Plain

namespace Prologue

variable {init rest : List Item}

theorem label_none (hp : Prologue init rest) : ∀ i ∈ init, i.label? ≠ some label := by
  intro i hi
  obtain ⟨o, rfl, -⟩ := hp.straight i hi
  exact nofun

theorem findLabel (hp : Prologue init rest) (label : Label) :
    Jvm.findLabel (init ++ rest) label = Jvm.findLabel rest label :=
  Labelled.find_append hp.label_none rest

theorem suffix (hp : Prologue init rest) (h : Jvm.findLabel (init ++ rest) label = some c) :
    c <:+ rest := by
  rw [hp.findLabel] at h
  exact Labelled.find_suffix h

/-- No range of the exception table reaches the beginning. -/
theorem findHandler_init (hp : Prologue init rest) (isInstance : String → Bool)
    (hc : rest.length < code.length) : findHandler isInstance (init ++ rest) code = none := by
  refine List.find?_eq_none.mpr fun e _ => ?_
  have hcov : e.covers (init ++ rest) code = false := by
    rw [CatchEntry.covers]
    cases ha : Jvm.findLabel (init ++ rest) e.start with
    | none => rfl
    | some a =>
      have hle := (hp.suffix ha).length_le
      cases Jvm.findLabel (init ++ rest) e.stop with
      | none => rfl
      | some b =>
        dsimp only
        rw [decide_eq_false (show ¬ code.length ≤ a.length by omega), Bool.and_false]
  rw [hcov, Bool.and_false]
  exact Bool.false_ne_true

end Prologue

namespace Inside

variable {init rest : List Item}

theorem of_handler (h : Inside rest c s l) (hc : c' <:+ rest) (n : Nat) :
    Inside rest c' [.ref (.object n)] l := by
  refine ⟨hc, fun d hd => ?_, h.locals⟩
  cases List.mem_singleton.mp hd

theorem of_subset (h : Inside rest c s l) (hs : t ⊆ s) : Inside rest c t l :=
  ⟨h.code, fun d hd => h.stack d (hs hd), h.locals⟩

theorem back (h : Inside rest (i :: c) s l) (hv : ∀ u ∈ vs, u.ty ≠ .ret) :
    Inside rest c (vs ++ s) l := by
  refine ⟨(List.suffix_cons i c).trans h.code, fun d hd => ?_, h.locals⟩
  rcases List.mem_append.mp hd with hd | hd
  · exact absurd rfl (hv _ hd)
  · exact h.stack d hd

end Inside

/-- A step in the second part of a body stays there and changes at most the local it writes. -/
theorem Continues.inside {init rest : List Item} (hp : Prologue init rest)
    (h : Continues rt (init ++ rest) ⟨c, ⟨s, l, w⟩⟩ ⟨c', ⟨s', l', w'⟩⟩) (hi : Inside rest c s l) :
    Inside rest c' s' l' ∧ ∃ i d, c = i :: d ∧ ∀ n, i.writes ≠ some n → l' n = l n := by
  cases h with
  | @op o _ _ _ ho =>
    have hm : .op o ∈ rest := hi.code.subset (List.mem_cons_self ..)
    have hu := Op.exec_updates (hp.plain _ hm) ho
    have hs (d : List Item) (hd : .ret d ∈ s') : d <:+ rest := by
      rcases hu.stack _ hd with hd | hd
      · exact hi.stack d hd
      · exact absurd rfl hd
    have hc : c' <:+ rest := (List.suffix_cons _ c').trans hi.code
    rcases hu.locals with ⟨hw, hl⟩ | ⟨k, v, hw, hv, hl⟩
    · cases hl
      exact ⟨⟨hc, hs, hi.locals⟩, _, _, rfl, fun n _ => rfl⟩
    · obtain rfl : l' = setLocal l k v := hl
      refine ⟨⟨hc, hs, fun n d hd => ?_⟩, _, _, rfl, fun n hn => ?_⟩
      · by_cases hk : n = k
        · rw [hk, setLocal_same] at hd
          subst hd
          rcases hv with hv | hv
          · exact hi.stack d hv
          · exact absurd rfl hv
        · rw [setLocal_ne _ _ hk] at hd
          exact hi.locals n d hd
      · refine setLocal_ne _ _ fun hk => hn ?_
        rw [hk]
        exact hw
  | next hw hs =>
    exact ⟨⟨(List.suffix_cons _ c').trans hi.code, fun d hd => hi.stack d (hs hd), hi.locals⟩, _, _,
      rfl, fun n _ => rfl⟩
  | @jump _ _ _ _ d _ _ _ hw hl hs =>
    refine ⟨⟨hp.suffix hl, fun d₁ hd => ?_, hi.locals⟩, _, _, rfl, fun n _ => rfl⟩
    rcases hs _ hd with hd | hd
    · exact hi.stack d₁ hd
    · cases hd
      exact (List.suffix_cons _ _).trans hi.code
  | ret hn =>
    exact ⟨⟨hi.locals _ _ hn, hi.stack, hi.locals⟩, _, _, rfl, fun n _ => rfl⟩

/-- An activation behind the beginning of its body. The locals that are not written there are as
the beginning left them. -/
structure Settled (rt : Runtime σ) (init rest : List Item) (f : Activation) : Prop where
  eq : f.body = init ++ rest
  inside : Inside rest f.code f.stack f.locals
  locals : ∃ l₀ s₀ l₁, (∀ w, exec rt init ⟨[], l₀, w⟩ = .ok ⟨s₀, l₁, w⟩) ∧
    ∀ n, (∀ i ∈ rest, i.writes ≠ some n) → f.locals n = l₁ n

/-- Where an activation stands in its body. -/
inductive Located (rt : Runtime σ) (init rest : List Item) : Activation → Prop where
  | starting : init = d ++ i :: c → (∀ w, exec rt d ⟨[], l₀, w⟩ = .ok ⟨s, l, w⟩) →
      (∀ u ∈ s, u.ty ≠ .ret) → (∀ n, (l n).ty ≠ .ret) →
      Located rt init rest ⟨init ++ rest, i :: c ++ rest, s, l⟩
  | settled : Settled rt init rest f → Located rt init rest f

namespace Settled

variable {init rest : List Item} {f : Activation}

theorem call (h : Settled rt init rest f) (hs : t ⊆ f.stack) :
    Settled rt init rest { f with stack := t } :=
  ⟨h.eq, h.inside.of_subset hs, h.locals⟩

theorem back (h : Settled rt init rest f) (hc : f.code = i :: c) (hv : ∀ u ∈ vs, u.ty ≠ .ret) :
    Settled rt init rest { f with code := f.code.tail, stack := vs ++ f.stack } := by
  refine ⟨h.eq, ?_, h.locals⟩
  have hin := h.inside
  rw [hc] at hin ⊢
  exact hin.back hv

theorem handler (hp : Prologue init rest) (h : Settled rt init rest f)
    (hl : findLabel f.body label = some c) (n : Nat) :
    Settled rt init rest { f with code := c, stack := [.ref (.object n)] } := by
  rw [h.eq] at hl
  exact ⟨h.eq, h.inside.of_handler (hp.suffix hl) n, h.locals⟩

theorem step {P : Program σ} (hp : Prologue init rest)
    (h : Settled P.rt init rest ⟨body, c, s, l⟩)
    (hs : Jvm.step P.rt body ⟨c, ⟨s, l, w⟩⟩ = .run ⟨c', ⟨s', l', w'⟩⟩) :
    Settled P.rt init rest ⟨body, c', s', l'⟩ := by
  obtain rfl : body = init ++ rest := h.eq
  obtain ⟨hin, i, d, hc, hw⟩ := (continues_of_step hs).inside hp h.inside
  obtain ⟨l₀, s₀, l₁, he, hl⟩ := h.locals
  refine ⟨rfl, hin, l₀, s₀, l₁, he, fun n hn => ?_⟩
  have hm : i ∈ rest := h.inside.code.subset (hc ▸ List.mem_cons_self ..)
  rw [← hl n hn]
  exact hw n (hn i hm)

end Settled

namespace Located

variable {init rest : List Item} {f : Activation}

/-- Behind what has been set up so far stands the rest of the body. -/
theorem of_exec (hi : init = d ++ c) (he : ∀ w, exec rt d ⟨[], l₀, w⟩ = .ok ⟨s, l, w⟩)
    (hs : ∀ u ∈ s, u.ty ≠ .ret) (hl : ∀ n, (l n).ty ≠ .ret) :
    Located rt init rest ⟨init ++ rest, c ++ rest, s, l⟩ := by
  cases c with
  | nil =>
    rw [List.append_nil] at hi
    refine .settled ⟨rfl, ⟨List.suffix_refl _, fun d hd => ?_, fun n d hd => ?_⟩, l₀, s, l, ?_,
      fun _ _ => rfl⟩
    · exact absurd rfl (hs _ hd)
    · exact absurd (by rw [show l n = .ret d from hd]; rfl) (hl n)
    · rw [hi]
      exact he
  | cons i c => exact .starting hi he hs hl

theorem enter (ha : ∀ u ∈ args, u.ty ≠ .ret) :
    Located rt init rest (.enter (init ++ rest) args) := by
  refine of_exec (List.nil_append _).symm (fun w => exec_nil ..) (List.forall_mem_nil _) ?_
  intro n
  rw [List.getD_eq_getElem?_getD]
  cases hn : args[n]? with
  | none => exact nofun
  | some u => exact ha u (List.mem_of_getElem? hn)

theorem step {P : Program σ} (hp : Prologue init rest) (h : Located P.rt init rest ⟨body, c, s, l⟩)
    (hs : Jvm.step P.rt body ⟨c, ⟨s, l, w⟩⟩ = .run ⟨c', ⟨s', l', w'⟩⟩) :
    Located P.rt init rest ⟨body, c', s', l'⟩ := by
  cases h with
  | @starting d i c l₀ _ _ hi he hst hlt =>
    obtain ⟨o, rfl, ho⟩ := hp.straight i (by rw [hi]; simp)
    cases continues_of_step hs with
    | op hx =>
      obtain ⟨rfl, hx'⟩ := Op.exec_setsUp ho hx
      have hpl : Item.Plain (.op o) := by
        cases o <;> first | exact trivial | cases ho
      have hu := Op.exec_updates hpl hx
      have hi' : init = (d ++ [.op o]) ++ c := by
        rw [hi, List.append_assoc]
        rfl
      have he' (w : World σ) : exec P.rt (d ++ [.op o]) ⟨[], l₀, w⟩ = .ok ⟨s', l', w⟩ := by
        rw [exec_append, he, Outcome.bind_ok, exec_op, hx' w]
        rfl
      refine of_exec hi' he' ?_ ?_
      · intro u hm
        rcases hu.stack u hm with hm | hm
        · exact hst u hm
        · exact hm
      · intro n
        rcases hu.locals with ⟨-, hl⟩ | ⟨k, v, -, hv, hl⟩
        · exact (show l' = l from hl) ▸ hlt n
        · obtain rfl : l' = setLocal l k v := hl
          rw [setLocal]
          split
          · exact hv.elim (hst v) id
          · exact hlt n
    | next hne | jump hne => exact absurd rfl (hne o)
  | settled h => exact .settled (h.step hp hs)

theorem settled_of_call (hp : Prologue init rest) (h : Located rt init rest f)
    (hc : f.code = .op (.external e) :: c) : Settled rt init rest f := by
  cases h with
  | @starting d i _ _ _ _ hi =>
    obtain ⟨o, ho, hs⟩ := hp.straight i (by rw [hi]; simp)
    obtain ⟨hi, -⟩ := List.cons.inj hc
    rw [ho] at hi
    cases hi
    cases hs
  | settled h => exact h

theorem settled_of_handler (hp : Prologue init rest) (h : Located rt init rest f)
    (hh : findHandler isInstance f.body f.code = some e) : Settled rt init rest f := by
  cases h with
  | starting hi =>
    rw [hp.findHandler_init _ (by simp only [List.length_cons, List.length_append]; omega)] at hh
    cases hh
  | settled h => exact h

end Located

theorem Program.call_some {f : Activation} (h : P.call f = some (body, args, s)) :
    ∃ e c, f.code = .op (.external e) :: c ∧ P.resolve e = some body ∧
      args.map Value.ty = e.args ∧ s ⊆ f.stack := by
  rw [call.eq_def] at h
  split at h
  · next e c hc =>
    cases hr : P.resolve e with
    | none =>
      rw [hr] at h
      cases h
    | some b =>
      rw [hr, Option.bind_some] at h
      obtain ⟨⟨vs, t⟩, hp, he⟩ := Option.map_eq_some_iff.mp h
      cases he
      exact ⟨e, c, hc, hr, popArgs_ty hp, popArgs_sub hp⟩
  · cases h

/-- The methods of a program are cut into a beginning and the rest, and take no return address. -/
structure Cut (P : Program σ) (cuts : List Item → List Item → Prop) : Prop where
  prologue : cuts init rest → Prologue init rest
  method : P.resolve e = some body → ∃ init rest, cuts init rest ∧ body = init ++ rest
  args : P.resolve e = some body → .ret ∉ e.args

/-- All activations are in methods that are cut, and all but the innermost wait for a call. -/
structure Thread.Placed (P : Program σ) (cuts : List Item → List Item → Prop) (t : Thread σ) :
    Prop where
  located : ∀ f ∈ t.frames, ∃ init rest, cuts init rest ∧ Located P.rt init rest f
  waits : ∀ f ∈ t.frames.tail, ∃ e c, f.code = .op (.external e) :: c

theorem mem_tail_append {g : α} (xs : List α) (f : α) (h : g ∈ ys) : g ∈ (xs ++ f :: ys).tail := by
  cases xs with
  | nil => exact h
  | cons x xs => exact List.mem_append_right _ (List.mem_cons_of_mem _ h)

/-- An activation stays in its method as long as there are more than those below it. -/
theorem Moves.keeps {t u : Thread σ} (h : Moves P t u) (ht : t.frames = above ++ f :: below) :
    u.frames.length ≤ below.length ∨
      ∃ above' f', u.frames = above' ++ f' :: below ∧ f'.body = f.body := by
  cases h with
  | call | run =>
    right
    rcases above with _ | ⟨a, above⟩
    · obtain ⟨rfl, rfl⟩ := List.cons.inj ht
      first
        | exact ⟨[_], _, rfl, rfl⟩
        | exact ⟨[], _, rfl, rfl⟩
    · obtain ⟨rfl, rfl⟩ := List.cons.inj ht
      first
        | exact ⟨_ :: _ :: above, f, rfl, rfl⟩
        | exact ⟨_ :: above, f, rfl, rfl⟩
  | return_ hv =>
    rcases above with _ | ⟨a, _ | ⟨b, above⟩⟩
    · obtain ⟨rfl, rfl⟩ := List.cons.inj ht
      exact .inl (Nat.le_refl _)
    · obtain ⟨-, ht⟩ := List.cons.inj ht
      obtain ⟨rfl, rfl⟩ := List.cons.inj ht
      exact .inr ⟨[], _, rfl, rfl⟩
    · obtain ⟨-, ht⟩ := List.cons.inj ht
      obtain ⟨rfl, rfl⟩ := List.cons.inj ht
      exact .inr ⟨_ :: above, f, rfl, rfl⟩
  | throw hh hl =>
    rcases List.append_eq_append_iff.mp ht with ⟨xs, rfl, hx⟩ | ⟨xs, rfl, hx⟩
    · rcases xs with _ | ⟨x, xs⟩
      · obtain ⟨rfl, rfl⟩ := List.cons.inj hx
        exact .inr ⟨[], _, rfl, rfl⟩
      · obtain ⟨rfl, rfl⟩ := List.cons.inj hx
        exact .inr ⟨_ :: xs, f, rfl, rfl⟩
    · rcases xs with _ | ⟨x, xs⟩
      · obtain ⟨rfl, rfl⟩ := List.cons.inj hx
        exact .inr ⟨[], _, rfl, rfl⟩
      · obtain ⟨rfl, rfl⟩ := List.cons.inj hx
        left
        simp

namespace Thread

variable {cuts : List Item → List Item → Prop}

theorem Placed.moves {t u : Thread σ} (hc : Cut P cuts) (h : Moves P t u) (ht : t.Placed P cuts) :
    u.Placed P cuts := by
  cases h with
  | @call f body args s fs w hcall =>
    obtain ⟨e, c, hf, hr, hty, hs⟩ := Program.call_some hcall
    obtain ⟨init, rest, hm, rfl⟩ := hc.method hr
    have ha : ∀ u ∈ args, u.ty ≠ .ret := by
      intro u hu hret
      refine hc.args hr ?_
      rw [← hty, ← hret]
      exact List.mem_map_of_mem hu
    obtain ⟨hf', hfs⟩ := List.forall_mem_cons.mp ht.located
    obtain ⟨init', rest', hm', hl⟩ := hf'
    refine ⟨List.forall_mem_cons.mpr ⟨⟨init, rest, hm, .enter ha⟩,
      List.forall_mem_cons.mpr ⟨⟨init', rest', hm', ?_⟩, hfs⟩⟩,
      List.forall_mem_cons.mpr ⟨⟨e, c, hf⟩, ht.waits⟩⟩
    exact .settled ((hl.settled_of_call (hc.prologue hm') hf).call hs)
  | run hcall hs =>
    obtain ⟨hf, hfs⟩ := List.forall_mem_cons.mp ht.located
    obtain ⟨init, rest, hm, hl⟩ := hf
    exact ⟨List.forall_mem_cons.mpr ⟨⟨init, rest, hm, hl.step (hc.prologue hm) hs⟩, hfs⟩, ht.waits⟩
  | return_ hv =>
    obtain ⟨-, hfs⟩ := List.forall_mem_cons.mp ht.located
    obtain ⟨hf, hfs⟩ := List.forall_mem_cons.mp hfs
    obtain ⟨⟨e, c, hcode⟩, hw⟩ := List.forall_mem_cons.mp ht.waits
    obtain ⟨init, rest, hm, hl⟩ := hf
    refine ⟨List.forall_mem_cons.mpr ⟨⟨init, rest, hm, ?_⟩, hfs⟩, hw⟩
    exact .settled ((hl.settled_of_call (hc.prologue hm) hcode).back hcode hv)
  | throw hh hl =>
    have hloc := ht.located
    obtain ⟨init, rest, hm, hf⟩ := hloc _ (List.mem_append_right _ (List.mem_cons_self ..))
    refine ⟨List.forall_mem_cons.mpr ⟨⟨init, rest, hm, ?_⟩, fun g hg => ?_⟩, fun g hg => ?_⟩
    · exact .settled ((hf.settled_of_handler (hc.prologue hm) hh).handler (hc.prologue hm) hl _)
    · exact hloc g (List.mem_append_right _ (List.mem_cons_of_mem _ hg))
    · exact ht.waits g (mem_tail_append _ _ hg)

theorem Placed.runs {t u : Thread σ} (hc : Cut P cuts) (h : Runs P t u) (ht : t.Placed P cuts) :
    u.Placed P cuts := by
  induction h with
  | refl => exact ht
  | tail _ hs ih => exact ih.moves hc (moves_of_step hs)

end Thread

end Jvm

end Cibyl
