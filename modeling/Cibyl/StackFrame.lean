import Cibyl.Machine

namespace Cibyl
set_option autoImplicit true

namespace Jvm

/-- The same outcome with the values `t` below the operand stack. -/
def Outcome.below (t : List Value) : Outcome σ → Outcome σ
  | .ok ⟨s, l, w⟩ => .ok ⟨s ++ t, l, w⟩
  | .throw e w => .throw e w
  | .stuck => .stuck

theorem ofMemM_below (s t : List Value) (l : Nat → Value) (w : World σ) (push : α → List Value)
    (x : MemM α) : ofMemM (s ++ t) l w push x = (ofMemM s l w push x).below t := by
  rw [ofMemM, ofMemM]
  cases x w.memory with
  | mk r m =>
    cases r with
    | ok a => exact congrArg (fun s => Outcome.ok ⟨s, l, _⟩) (List.append_assoc _ _ _).symm
    | error e => rfl

theorem ofExcept_below (s t : List Value) (l : Nat → Value) (w : World σ)
    (r : Except JavaException Value) :
    ofExcept (s ++ t) l w r = (ofExcept s l w r).below t := by
  cases r <;> rfl

theorem popArgs_append (h : popArgs args s = some (vs, r)) (t : List Value) :
    popArgs args (s ++ t) = some (vs, r ++ t) := by
  rw [popArgs] at h
  split at h
  · next ht =>
    have hlen := congrArg List.length ht
    rw [List.length_map, List.length_reverse, List.length_take] at hlen
    have hle : args.length ≤ s.length := by omega
    cases h
    rw [popArgs, List.take_append_of_le_length hle, List.drop_append_of_le_length hle, if_pos ht]
  · cases h

/-- An operation does not look below the operands it takes. -/
theorem Op.exec_below {rt : Runtime σ} (o : Op) (h : o.exec rt ⟨s, l, w⟩ ≠ .stuck)
    (t : List Value) : o.exec rt ⟨s ++ t, l, w⟩ = (o.exec rt ⟨s, l, w⟩).below t := by
  cases o with
  | iconst | bipush | sipush | ldc | ldc2_w | getMemory | getSavedV1 => rfl
  | iload n | aload n | iinc n =>
    rw [Op.exec, Op.exec]
    cases l n <;> rfl
  | external e =>
    rw [Op.exec] at h
    rw [Op.exec, Op.exec]
    cases hp : popArgs e.args s with
    | none =>
      rw [hp] at h
      exact absurd rfl h
    | some p =>
      rw [popArgs_append hp]
      dsimp only
      cases rt.call e p.1 w with
      | mk r w' =>
        cases r with
        | ok vs => exact congrArg (fun s => Outcome.ok ⟨s, l, w'⟩) (List.append_assoc _ _ _).symm
        | error x => rfl
  | istore | astore | intUn | i2l | l2i | dup | pop | putSavedV1 | memoryRead =>
    rcases s with _ | ⟨x, s⟩
    · exact absurd rfl h
    · cases x <;> first
        | exact absurd rfl h
        | rfl
        | exact ofMemM_below ..
  | intOp | longOp | longShift | lcmp | swap | multu | divu | dup2 | memoryWrite =>
    rcases s with _ | ⟨x, _ | ⟨y, s⟩⟩
    · exact absurd rfl h
    · cases x <;> first
        | exact absurd rfl h
        | rfl
    · cases x <;> cases y <;> first
        | exact absurd rfl h
        | rfl
        | exact ofMemM_below ..
        | exact ofExcept_below ..
  | iaload =>
    rcases s with _ | ⟨x, _ | ⟨y, s⟩⟩
    · exact absurd rfl h
    · cases x <;> exact absurd rfl h
    · cases x <;> cases y with
        | ref r => cases r <;> first
          | exact absurd rfl h
          | exact ofMemM_below ..
        | _ => exact absurd rfl h
  | iastore =>
    rcases s with _ | ⟨x, _ | ⟨y, _ | ⟨z, s⟩⟩⟩
    · exact absurd rfl h
    · cases x <;> exact absurd rfl h
    · cases x <;> cases y <;> exact absurd rfl h
    · cases x <;> cases y <;> cases z with
        | ref r => cases r <;> first
          | exact absurd rfl h
          | exact ofMemM_below ..
        | _ => exact absurd rfl h
  | dup_x2 | memoryWritePc =>
    rcases s with _ | ⟨x, _ | ⟨y, _ | ⟨z, s⟩⟩⟩
    · exact absurd rfl h
    · cases x <;> exact absurd rfl h
    · cases x <;> cases y <;> exact absurd rfl h
    · cases x <;> cases y <;> cases z <;> first
        | exact absurd rfl h
        | rfl
        | exact ofMemM_below ..

/-- The same configuration with the values `t` below the operand stack. -/
def Config.below (t : List Value) (c : Config σ) : Config σ :=
  ⟨c.code, ⟨c.frame.stack ++ t, c.frame.locals, c.frame.world⟩⟩

theorem jump_below (h : jump body lb ⟨s, l, w⟩ = .run d) (t : List Value) :
    jump body lb ⟨s ++ t, l, w⟩ = .run (d.below t) := by
  rw [jump] at h ⊢
  cases hf : findLabel body lb with
  | none =>
    rw [hf] at h
    cases h
  | some c =>
    rw [hf] at h
    cases h
    rfl

theorem branch_below {p : Prop} [Decidable p]
    (h : (if p then jump body lb ⟨s, l, w⟩ else .run ⟨c, ⟨s, l, w⟩⟩) = .run d)
    (t : List Value) :
    (if p then jump body lb ⟨s ++ t, l, w⟩ else .run ⟨c, ⟨s ++ t, l, w⟩⟩) =
      .run (d.below t) := by
  split at h
  · next hp =>
    rw [if_pos hp]
    exact jump_below h t
  · next hp =>
    rw [if_neg hp]
    cases h
    rfl

/-- Code runs the same way with more values below its operands. -/
theorem step_below {rt : Runtime σ} {c d : Config σ} (h : step rt body c = .run d)
    (t : List Value) : step rt body (c.below t) = .run (d.below t) := by
  obtain ⟨code, s, l, w⟩ := c
  rcases code with _ | ⟨i, c⟩
  · cases h
  cases i with
  | op o =>
    have hb : o.exec rt ⟨s, l, w⟩ ≠ .stuck → _ := fun hs => Op.exec_below o hs t
    rw [step] at h
    rw [Config.below, step]
    dsimp only at h ⊢
    cases ho : o.exec rt ⟨s, l, w⟩ with
    | ok f =>
      rw [ho] at h hb
      rw [hb (fun h => by cases h)]
      cases h
      rfl
    | throw | stuck =>
      rw [ho] at h
      cases h
  | label | catch_ =>
    cases h
    rfl
  | goto lb => exact jump_below h t
  | jsr lb => exact jump_below h t
  | ret n =>
    rw [step] at h
    rw [Config.below, step]
    dsimp only at h ⊢
    cases hn : l n with
    | ret c' =>
      rw [hn] at h
      cases h
      rfl
    | _ =>
      rw [hn] at h
      cases h
  | cond1 k lb =>
    rcases s with _ | ⟨x, s⟩
    · cases h
    · cases x with
      | int x => exact branch_below h t
      | _ => cases h
  | cond2 k lb =>
    rcases s with _ | ⟨x, _ | ⟨y, s⟩⟩
    · cases h
    · cases x <;> cases h
    · cases x with
      | int x =>
        cases y with
        | int y => exact branch_below h t
        | _ => cases h
      | _ => cases h
  | tableswitch targets default | lookupswitch targets default =>
    rcases s with _ | ⟨x, s⟩
    · cases h
    · cases x with
      | int x => exact jump_below h t
      | _ => cases h
  | ireturn | lreturn | athrow =>
    rcases s with _ | ⟨x, s⟩
    · cases h
    · cases x <;> cases h
  | return_ | abort => cases h

theorem Runs.below {rt : Runtime σ} (h : Runs rt body c d) (t : List Value) :
    Runs rt body (c.below t) (d.below t) := by
  induction h with
  | refl => exact .refl _
  | tail _ hs ih => exact ih.trans (.of_step (step_below hs t))

theorem jump_ne_throw (body : List Item) (lb : Label) (f : Frame σ) :
    jump body lb f ≠ .throw x g w := by
  rw [jump]
  split <;> exact fun h => by cases h

/-- Only an operation raises an exception of its own. -/
theorem step_throw {rt : Runtime σ} {c : Config σ} (h : step rt body c = .throw x f w) :
    ∃ o k, c.code = .op o :: k ∧ f = c.frame ∧ o.exec rt c.frame = .throw x w := by
  rw [step.eq_def] at h
  split at h
  case h_2 o k f =>
    split at h
    · cases h
    · next ho =>
      cases h
      exact ⟨o, k, rfl, rfl, ho⟩
    · cases h
  all_goals first
    | cases h
    | exact (jump_ne_throw _ _ _ h).elim
    | (split at h <;> first | cases h | exact (jump_ne_throw _ _ _ h).elim)

theorem step_below_throw {rt : Runtime σ} {c : Config σ} (h : step rt body c = .throw x f w)
    (t : List Value) : step rt body (c.below t) = .throw x (c.below t).frame w := by
  obtain ⟨o, k, hc, -, ho⟩ := step_throw h
  obtain ⟨code, s, l, w₀⟩ := c
  cases hc
  have hb := Op.exec_below o (by rw [ho]; exact nofun) t
  rw [ho] at hb
  rw [Config.below, step]
  dsimp only
  rw [hb]
  rfl

end Jvm

end Cibyl
