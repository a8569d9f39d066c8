import Cibyl.EmittedLines

namespace Cibyl
set_option autoImplicit true

open Jvm (Op Item Live)

namespace Bc

/-- A finished line names no local. -/
def Nameless : Bc → Prop
  | .item i => i.reads = [] ∧ i.writes = none
  | _ => True

/-- The lines name locals by their registers only. -/
def ByRegister (bs : List Bc) : Prop := ∀ b ∈ bs, b.Nameless

theorem EmittedLines.byRegister {ok : Reg → Prop} {P : Prop} (h : EmittedLines ok P bs) :
    ByRegister bs := by
  intro b hb
  have hb := h b hb
  cases b with
  | item i => exact ⟨hb.1, hb.2.1⟩
  | _ => trivial

/-- The locals of the finished lines are those of registers. -/
theorem ByRegister.local {ra : RegisterAllocator} (h : ByRegister bs) (hi : i ∈ lowerAll ra bs)
    (hn : n ∈ i.reads ∨ n ∈ i.writes) : ∃ r, ra.regToLocal r = some n := by
  obtain ⟨b, hb, hi⟩ := List.mem_flatMap.mp hi
  have hb := h b hb
  have hnone {j : Item} (hr : j.reads = []) (hw : j.writes = none)
      (hn : n ∈ j.reads ∨ n ∈ j.writes) : False := by
    rw [hr, hw] at hn
    rcases hn with hn | hn <;> cases hn
  have hone {j : Item} {r : Reg} (hr : ∀ k ∈ j.reads, ra.regToLocal r = some k)
      (hw : ∀ k ∈ j.writes, ra.regToLocal r = some k) (hn : n ∈ j.reads ∨ n ∈ j.writes) :
      ∃ r, ra.regToLocal r = some n := ⟨r, hn.elim (hr n) (hw n)⟩
  cases b with
  | pushregister r =>
    rw [lower] at hi
    split at hi
    · cases List.mem_singleton.mp hi
      exact (hnone rfl rfl hn).elim
    · rw [pushregisterItem] at hi
      split at hi
      · cases List.mem_singleton.mp hi
        exact (hnone rfl rfl hn).elim
      · next k hk =>
        split at hi <;> cases List.mem_singleton.mp hi <;>
          exact hone (fun j hj => List.mem_singleton.mp hj ▸ hk) (fun j hj => by cases hj) hn
  | popregister r =>
    rw [lower] at hi
    split at hi
    · cases hi
    · next k hk =>
      split at hi <;> cases List.mem_singleton.mp hi <;>
        exact hone (fun j hj => by cases hj) (fun j hj => by cases hj; exact hk) hn
  | astore r =>
    rw [lower] at hi
    split at hi
    · cases List.mem_singleton.mp hi
      exact (hnone rfl rfl hn).elim
    · next k hk =>
      cases List.mem_singleton.mp hi
      exact hone (fun j hj => by cases hj) (fun j hj => by cases hj; exact hk) hn
  | ret r =>
    rw [lower] at hi
    split at hi
    · cases List.mem_singleton.mp hi
      exact (hnone rfl rfl hn).elim
    · next k hk =>
      cases List.mem_singleton.mp hi
      exact hone (fun j hj => List.mem_singleton.mp hj ▸ hk) (fun j hj => by cases hj) hn
  | iinc r extra =>
    rw [lower] at hi
    split at hi
    · cases List.mem_singleton.mp hi
      exact (hnone rfl rfl hn).elim
    · next k hk =>
      cases List.mem_singleton.mp hi
      exact hone (fun j hj => List.mem_singleton.mp hj ▸ hk) (fun j hj => by cases hj; exact hk) hn
  | item j =>
    cases List.mem_singleton.mp hi
    exact (hnone hb.1 hb.2 hn).elim

end Bc

namespace Jvm

theorem Dead.append_right (h : Dead n w) (c : List Item) : Dead n (w ++ c) := by
  induction w with
  | nil => cases h
  | cons i w ih =>
    obtain ⟨hr, ht, hret, hd⟩ := h
    exact ⟨hr, ht, hret, hd.imp_right (.imp_right ih)⟩

/-- What is live in code of a body is read in the body. -/
theorem Live.read_of_suffix (h : Live body n c) (hc : c <:+ body) : ∃ i ∈ body, n ∈ i.reads := by
  induction h with
  | read h c => exact ⟨_, hc.subset (List.mem_cons_self ..), h⟩
  | step _ hf _ ih =>
    apply ih
    cases hf with
    | next => exact (List.suffix_cons ..).trans hc
    | jump _ hd => exact Labelled.find_suffix hd
    | ret h => exact (List.suffix_cons ..).trans h

section

variable {rt : Runtime σ} {body : List Item} {f g : Frame σ} {res : Result σ}

/-- The same step with other locals, unless the first is stuck. -/
inductive SameNext (body : List Item) (l l' : Nat → Value) : Next σ → Next σ → Prop where
  | run (h : d <:+ body) (s : List Value) (w : World σ) :
    SameNext body l l' (.run ⟨d, ⟨s, l, w⟩⟩) (.run ⟨d, ⟨s, l', w⟩⟩)
  | result {x y : Next σ} (hx : ∀ c, x ≠ .run c) (h : y.result? = x.result?) :
    SameNext body l l' x y
  | stuck (y : Next σ) : SameNext body l l' .stuck y

theorem jump_sameNext (body : List Item) (k : Label) (s : List Value) (l l' : Nat → Value)
    (w : World σ) : SameNext body l l' (jump body k ⟨s, l, w⟩) (jump body k ⟨s, l', w⟩) := by
  rw [jump, jump]
  cases hk : findLabel body k with
  | none => exact .stuck _
  | some d => exact .run (Labelled.find_suffix hk) s w

/-- Lines that are no operations do the same whatever the locals hold. -/
theorem step_sameNext (hi : i :: c <:+ body) (ho : i.isOp = false) (s : List Value)
    {l : Nat → Value} (hl : ∀ n, (l n).ty ≠ .ret) (l' : Nat → Value) (w : World σ) :
    SameNext body l l' (step rt body ⟨i :: c, ⟨s, l, w⟩⟩)
      (step rt body ⟨i :: c, ⟨s, l', w⟩⟩) := by
  have hc : c <:+ body := (List.suffix_cons i c).trans hi
  cases i with
  | op => cases ho
  | label | catch_ => exact .run hc s w
  | goto k => exact jump_sameNext body k s l l' w
  | jsr k => exact jump_sameNext body k (.ret c :: s) l l' w
  | ret n =>
    have hstuck : step rt body ⟨.ret n :: c, ⟨s, l, w⟩⟩ = .stuck := by
      rw [step]
      dsimp only
      split
      · next h => exact absurd (congrArg Value.ty h) (hl n)
      · rfl
    rw [hstuck]
    exact .stuck _
  | cond1 k m =>
    rcases s with - | ⟨v, s⟩
    · exact .stuck _
    cases v with
    | int x =>
      rw [step, step]
      split
      · exact jump_sameNext body m s l l' w
      · exact .run hc s w
    | _ => exact .stuck _
  | cond2 k m =>
    rcases s with - | ⟨v, - | ⟨u, s⟩⟩
    · exact .stuck _
    · cases v <;> exact .stuck _
    cases v with
    | int y =>
      cases u with
      | int x =>
        rw [step, step]
        split
        · exact jump_sameNext body m s l l' w
        · exact .run hc s w
      | _ => exact .stuck _
    | _ => exact .stuck _
  | tableswitch ts k =>
    rcases s with - | ⟨v, s⟩
    · exact .stuck _
    cases v with
    | int x => exact jump_sameNext body _ s l l' w
    | _ => exact .stuck _
  | lookupswitch ts k =>
    rcases s with - | ⟨v, s⟩
    · exact .stuck _
    cases v with
    | int x => exact jump_sameNext body _ s l l' w
    | _ => exact .stuck _
  | ireturn | lreturn | athrow =>
    rcases s with - | ⟨v, s⟩
    · exact .stuck _
    cases v <;> first
      | exact .stuck _
      | exact .result (fun c hc => by cases hc) rfl
  | return_ => exact .result (fun c hc => by cases hc) rfl
  | abort => exact .stuck _

/-- A run without operations. -/
theorem ends_withLocals (hb : ∀ i ∈ body, i.isOp = false) (hc : c <:+ body) {l : Nat → Value}
    (hl : ∀ n, (l n).ty ≠ .ret) (l' : Nat → Value) (h : Ends rt body ⟨c, ⟨s, l, w⟩⟩ res) :
    Ends rt body ⟨c, ⟨s, l', w⟩⟩ res := by
  obtain ⟨e, he, hres⟩ := h
  generalize hx : (⟨c, ⟨s, l, w⟩⟩ : Config σ) = x at he
  induction he using Relation.ReflTransGen.head_induction_on generalizing c s w with
  | refl =>
    subst hx
    cases c with
    | nil => cases hres
    | cons i c =>
      have hi := hb i (hc.subset (List.mem_cons_self ..))
      have hnext := @step_sameNext σ rt body i c hc hi s l hl
        l' w
      refine ⟨_, Runs.refl _, ?_⟩
      generalize step rt body ⟨i :: c, ⟨s, l, w⟩⟩ = x, step rt body ⟨i :: c, ⟨s, l', w⟩⟩ = y at *
      cases hnext with
      | run => cases hres
      | result _ h => exact h.trans hres
      | stuck => cases hres
  | head hstep _ ih =>
    subst hx
    cases c with
    | nil => cases hstep
    | cons i c =>
      have hi := hb i (hc.subset (List.mem_cons_self ..))
      have hnext := @step_sameNext σ rt body i c hc hi s l hl
        l' w
      generalize hy : step rt body ⟨i :: c, ⟨s, l', w⟩⟩ = y at hnext
      rw [hstep] at hnext
      cases hnext with
      | run hd s' w' =>
        obtain ⟨f, hf, hend⟩ := ih hd rfl
        exact ⟨f, .head hy hf, hend⟩
      | result h => exact absurd rfl (h _)

/-- Runs from frames whose live locals are the same leave the method in the same way. -/
theorem ends_of_live (hrt : rt.NoReturnAddresses) (hf : f.NoReturns) (hs : g.stack = f.stack)
    (hw : g.world = f.world) (hl : ∀ n, Live body n body → g.locals n = f.locals n)
    (h : Ends rt body ⟨body, f⟩ res) : Ends rt body ⟨body, g⟩ res := by
  by_cases hop : ∃ i ∈ body, i.isOp = true
  · obtain ⟨i, hi, ho⟩ := hop
    obtain ⟨before, after, rfl⟩ := List.append_of_mem hi
    -- the rewriting of an operation with itself
    have hops : ∀ j ∈ [i] ++ [i], j.isOp = true := by
      intro j hj
      have hji : j = i := by simpa using hj
      exact hji ▸ ho
    let r : Rewrite := ⟨before, [i], [i], after, hops, List.cons_ne_nil _ _⟩
    have hframes : r.Frames r.source f g := by
      refine ⟨?_, fun n hn => ?_, hw.symm⟩
      · rw [hs]
        exact StackRel.refl hf.stack
      · rw [hl n hn]
        exact .refl (hf.locals n)
    have hsound : r.Sound rt := by
      intro x y hxy
      have hx := exec_agree (D := fun _ => True) hrt
        (fun j hj => hops j (List.mem_append_left _ hj)) (fun _ _ _ _ => trivial)
        ⟨hxy.stack, fun n hn => hxy.locals n hn.1, hxy.world⟩
      exact hx.mono fun n hn => ⟨hn, trivial⟩
    exact (Rewrite.Sim.of_code (.inl ⟨before, List.suffix_rfl, rfl, rfl⟩) hframes).ends hrt hsound h
  · have hnone : ∀ i ∈ body, i.isOp = false :=
      fun i hi => Bool.eq_false_iff.mpr fun ho => hop ⟨i, hi, ho⟩
    obtain ⟨s, l, w⟩ := f
    obtain ⟨s', l', w'⟩ := g
    cases hs
    cases hw
    exact ends_withLocals hnone List.suffix_rfl hf.locals l' h

end

end Jvm

namespace JavaMethod

open Bc (ByRegister lowerAll)

theorem pass2Lines_byRegister (env : Env) (m : JavaMethod) : ByRegister (m.pass2Lines env) :=
  (m.pass2Lines_any env).byRegister

section

variable {m : JavaMethod} {env : Env}

theorem initRegister_passes {ra : RegisterAllocator} (hi : i ∈ lowerAll ra (m.initRegister r))
    (n : Nat) : i.Passes n := by
  obtain ⟨b, hb, hi⟩ := List.mem_flatMap.mp hi
  obtain ⟨o, rfl, ho⟩ := initRegister_straight hb hi
  have hr : o.reads = [] := by
    cases o <;> first | rfl | cases ho
  refine ⟨?_, rfl, rfl⟩
  rw [Item.reads, hr]
  exact List.not_mem_nil

theorem initStep_passes {ra : RegisterAllocator} {p : MethodPass1}
    (hi : i ∈ lowerAll ra (m.initStep p r)) (n : Nat) : i.Passes n := by
  rw [initStep] at hi
  split at hi
  · cases List.mem_singleton.mp hi
    exact ⟨List.not_mem_nil, rfl, rfl⟩
  split at hi
  · cases hi
  split at hi
  · exact initRegister_passes hi n
  · cases hi

/-- The first lines set the local of a register that is no argument, or the translation is given
up. -/
theorem initStep_dead (hr : (m.pass1 env).regalloc.regToLocal r = some n)
    (ha : (m.pass1 env).registerIsArgument r = false) :
    Jvm.Dead n (lowerAll (m.pass1 env).regalloc (m.initStep (m.pass1 env) r)) := by
  have hu := (RegisterAllocator.regToLocal_isSome _ r).mp ⟨n, hr⟩
  by_cases hf : r = Reg.fna ∧ (m.pass1 env).registerUsage.count r > 0 ∧
      m.hasMultipleFunctions = false
  · rw [initStep, if_pos hf]
    exact ⟨List.not_mem_nil, rfl, rfl, .inr (.inl rfl)⟩
  · rw [initStep, if_neg hf, ha, if_neg Bool.false_ne_true, if_pos hu]
    have hpasses := fun i => @initRegister_passes m r i (m.pass1 env).regalloc
    rw [initRegister, Bc.lowerAll_cons] at hpasses ⊢
    refine Jvm.Dead.append (fun i hi => hpasses i (List.mem_append_left _ hi) n) ?_
    rw [Bc.lowerAll_cons, Bc.lower, hr]
    dsimp only
    split
    · exact Jvm.Op.Stores.dead (.inr rfl) _
    · exact Jvm.Op.Stores.dead (.inl rfl) _

theorem initCode_dead (hr : (m.pass1 env).regalloc.regToLocal r = some n)
    (ha : (m.pass1 env).registerIsArgument r = false) : Jvm.Dead n (m.initCode env) := by
  have hall (rs : List Reg) (h : r ∈ rs) : Jvm.Dead n
      (lowerAll (m.pass1 env).regalloc (rs.flatMap (m.initStep (m.pass1 env)))) := by
    induction rs with
    | nil => cases h
    | cons q rs ih =>
      rw [List.flatMap_cons, Bc.lowerAll_append]
      rcases List.mem_cons.mp h with rfl | h
      · exact (initStep_dead hr ha).append_right _
      · exact (ih h).append fun i hi => initStep_passes hi n
  exact hall (List.finRange 86) (List.mem_finRange r)

/-- The local of an argument is among the first. -/
theorem argument_lt (hr : (m.pass1 env).regalloc.regToLocal r = some n)
    (ha : (m.pass1 env).registerIsArgument r = true) :
    n < (m.pass1 env).registersToPass.length := by
  have hu := (RegisterAllocator.regToLocal_isSome _ r).mp ⟨n, hr⟩
  obtain ⟨k, hk, rfl⟩ := List.mem_iff_getElem.mp
    (((m.pass1 env).mem_registersToPass r).mpr ⟨ha, hu⟩)
  have hlocal : (m.pass1 env).regalloc.regToLocal _ = some k :=
    RegisterAllocator.regToLocal_prefix _ (m.registersToPass_prefix env _) hk
  exact Option.some.inj (hlocal.symm.trans hr) ▸ hk

/-- No path reads a local that it has not written, but for the arguments. -/
theorem live_argument (h : Live (m.pass2 env) n (m.pass2 env)) :
    n < (m.pass1 env).registersToPass.length := by
  obtain ⟨i, hi, hn⟩ := h.read_of_suffix List.suffix_rfl
  obtain ⟨r, hr⟩ := (m.pass2Lines_byRegister env).local hi (.inl hn)
  cases ha : (m.pass1 env).registerIsArgument r with
  | true => exact argument_lt hr ha
  | false =>
    rw [pass2_code] at h
    exact absurd h (initCode_dead hr ha).not_live

/-- Every local that the body names is within the limit that it declares. -/
theorem local_lt (hi : i ∈ m.pass2 env) (hn : n ∈ i.reads ∨ n ∈ i.writes) :
    n < (m.pass1 env).regalloc.numberOfLocals := by
  obtain ⟨r, hr⟩ := (m.pass2Lines_byRegister env).local hi hn
  exact RegisterAllocator.regToLocal_lt _ hr

theorem arguments_le : (m.pass1 env).registersToPass.length ≤
    (m.pass1 env).regalloc.numberOfLocals := by
  refine Nat.le_of_not_lt fun h => ?_
  exact absurd (RegisterAllocator.regToLocal_lt _
    (RegisterAllocator.regToLocal_prefix _ (m.registersToPass_prefix env _) h)) (Nat.lt_irrefl _)

/-- The verifier of Java finds every local assigned before its use, and within the limit. -/
theorem locals_assigned (env : Env) (m : JavaMethod) :
    (∀ n, Live (m.pass2 env) n (m.pass2 env) → n < (m.pass1 env).registersToPass.length) ∧
      (∀ i ∈ m.pass2 env, ∀ n, n ∈ i.reads ∨ n ∈ i.writes →
        n < (m.pass1 env).regalloc.numberOfLocals) ∧
      (m.pass1 env).registersToPass.length ≤ (m.pass1 env).regalloc.numberOfLocals :=
  ⟨fun _ => live_argument, fun _ hi _ => local_lt hi, arguments_le⟩

/-- What a method does depends on its arguments alone, whatever else its locals hold at first. -/
theorem result_of_arguments {rt : Jvm.Runtime σ} (hrt : rt.NoReturnAddresses)
    {l l' : Nat → Jvm.Value} (hl : ∀ n, (l n).ty ≠ .ret)
    (ha : ∀ n < (m.pass1 env).registersToPass.length, l' n = l n)
    (h : Jvm.Ends rt (m.pass2 env) ⟨m.pass2 env, ⟨[], l, w⟩⟩ res) :
    Jvm.Ends rt (m.pass2 env) ⟨m.pass2 env, ⟨[], l', w⟩⟩ res :=
  Jvm.ends_of_live (f := ⟨[], l, w⟩) hrt ⟨fun _ hv => absurd hv List.not_mem_nil, hl⟩ rfl rfl
    (fun n hn => ha n (live_argument hn)) h

end

open Peephole in
/-- The method that calls another unless its argument is zero, with longs in its other locals. -/
theorem result_of_arguments_unless : Jvm.Ends nineSeven (callUnlessMethod.pass2 callUnlessEnv)
    ⟨callUnlessMethod.pass2 callUnlessEnv,
      ⟨[], fun n => if n < 5 then onesFrame.locals n else .long 0, onesFrame.world⟩⟩
    (.returned (some (.int 7)) ⟨⟨[], by decide⟩, 9, ()⟩) := by
  have hbody : callUnlessMethod.pass2 callUnlessEnv = unlessBody resultLines := callUnless_pass2
  have hends := unless_returns
  rw [← hbody] at hends
  have hlen : (callUnlessMethod.pass1 callUnlessEnv).registersToPass.length = 5 := by
    decide +kernel
  refine result_of_arguments nineSeven_noReturn (fun n h => ?_) (fun n hn => ?_) hends
  · cases h
  · exact if_pos (hlen ▸ hn)

end JavaMethod

end Cibyl
