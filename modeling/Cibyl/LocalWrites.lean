import Cibyl.Thread

namespace Cibyl
set_option autoImplicit true

namespace Jvm

/-- The local that an operation changes. -/
def Op.writes : Op → Option Nat
  | .istore n | .astore n | .iinc n _ => some n
  | _ => none

def Item.writes : Item → Option Nat
  | .op o => o.writes
  | _ => none

/-- No operation outside the code makes a return address. -/
def Item.Plain : Item → Prop
  | .op (.external e) => e.result ≠ some .ret
  | _ => True

/-- The return addresses of `t` are those of `s`. -/
def Inherits (s t : List Value) : Prop := ∀ v ∈ t, v ∈ s ∨ v.ty ≠ .ret

theorem Inherits.refl (s : List Value) : Inherits s s := fun _ => .inl

theorem Inherits.cons (h : Inherits s t) (hv : v.ty ≠ .ret) : Inherits s (v :: t) := by
  intro u hu
  rcases List.mem_cons.mp hu with rfl | hu
  · exact .inr hv
  · exact h u hu

theorem Inherits.keep (h : Inherits s t) (hv : v ∈ s) : Inherits s (v :: t) := by
  intro u hu
  rcases List.mem_cons.mp hu with rfl | hu
  · exact .inl hv
  · exact h u hu

theorem Inherits.of_subset (h : t ⊆ s) : Inherits s t := fun _ hv => .inl (h hv)

/-- The stack and the locals after an operation. -/
structure Updates (o : Op) (s : List Value) (l : Nat → Value) (f : Frame σ) : Prop where
  stack : Inherits s f.stack
  locals : (o.writes = none ∧ f.locals = l) ∨
    ∃ n v, o.writes = some n ∧ (v ∈ s ∨ v.ty ≠ .ret) ∧ f.locals = setLocal l n v

theorem ofMemM_updates {push : α → List Value} (ho : o.writes = none)
    (hp : ∀ a, ∀ v ∈ push a, v.ty ≠ .ret) (hs : t ⊆ s) (h : ofMemM t l w push x = .ok f) :
    Updates o s l f := by
  rw [ofMemM] at h
  split at h
  · cases h
    refine ⟨fun v hv => ?_, .inl ⟨ho, rfl⟩⟩
    rcases List.mem_append.mp hv with hv | hv
    · exact .inr (hp _ v hv)
    · exact .inl (hs hv)
  · cases h

theorem ofExcept_updates {r : Except JavaException α} {g : α → Value} (ho : o.writes = none)
    (hg : ∀ a, (g a).ty ≠ .ret) (hs : t ⊆ s) (h : ofExcept t l w (r.map g) = .ok f) :
    Updates o s l f := by
  cases r with
  | ok a =>
    cases h
    exact ⟨(Inherits.of_subset hs).cons (hg a), .inl ⟨ho, rfl⟩⟩
  | error e => cases h

theorem popArgs_ty (h : popArgs args s = some (vs, t)) : vs.map Value.ty = args := by
  rw [popArgs] at h
  split at h
  · next hv =>
    cases h
    exact hv
  · cases h

theorem popArgs_sub (h : popArgs args s = some (vs, t)) : t ⊆ s := by
  rw [popArgs] at h
  split at h
  · cases h
    exact List.drop_subset _ _
  · cases h

/-- An operation adds no return address, and changes the local it writes and no other one. -/
theorem Op.exec_updates {rt : Runtime σ} {o : Op} (hp : Item.Plain (.op o))
    (h : o.exec rt ⟨s, l, w⟩ = .ok f) : Updates o s l f := by
  have hsub {x : Value} {s : List Value} : s ⊆ x :: s := List.subset_cons_self _ _
  have hsub₂ {x y : Value} {s : List Value} : s ⊆ x :: y :: s := fun _ h =>
    List.mem_cons_of_mem _ (List.mem_cons_of_mem _ h)
  have hsub₃ {x y z : Value} {s : List Value} : s ⊆ x :: y :: z :: s := fun _ h =>
    List.mem_cons_of_mem _ (hsub₂ h)
  cases o with
  | iconst | bipush | sipush | ldc | ldc2_w | getMemory | getSavedV1 =>
    cases h
    exact ⟨(Inherits.refl s).cons nofun, .inl ⟨rfl, rfl⟩⟩
  | iload n | aload n =>
    rw [Op.exec] at h
    cases hn : l n <;> rw [hn] at h <;> cases h
    exact ⟨(Inherits.refl s).cons nofun, .inl ⟨rfl, rfl⟩⟩
  | iinc n k =>
    rw [Op.exec] at h
    cases hn : l n <;> rw [hn] at h <;> cases h
    refine ⟨Inherits.refl s, .inr ⟨n, _, rfl, ?_, rfl⟩⟩
    exact .inr nofun
  | istore n | astore n =>
    rcases s with _ | ⟨x, s⟩
    · cases h
    · cases x <;> cases h <;>
        exact ⟨.of_subset hsub, .inr ⟨n, _, rfl, .inl (List.mem_cons_self ..), rfl⟩⟩
  | external e =>
    rw [Op.exec] at h
    cases hp' : popArgs e.args s with
    | none =>
      rw [hp'] at h
      cases h
    | some p =>
      rw [hp'] at h
      dsimp only at h
      cases hc : rt.call e p.1 w with
      | mk r w' =>
        rw [hc] at h
        cases r with
        | ok vs =>
          cases h
          refine ⟨fun v hv => ?_, .inl ⟨rfl, rfl⟩⟩
          rcases List.mem_append.mp hv with hv | hv
          · have ht := List.mem_map_of_mem (f := Value.ty) hv
            rw [rt.typed e _ _ _ _ hc, Option.mem_toList] at ht
            right
            intro hr
            rw [hr] at ht
            exact hp ht
          · exact .inl (popArgs_sub hp' hv)
        | error x => cases h
  | memoryRead what =>
    rcases s with _ | ⟨x, s⟩
    · cases h
    · cases x with
      | int a => exact ofMemM_updates rfl (fun a v hv => by simp_all [Value.ty]) hsub h
      | _ => cases h
  | intUn | i2l | l2i =>
    rcases s with _ | ⟨x, s⟩
    · cases h
    · cases x <;> cases h
      exact ⟨(Inherits.of_subset hsub).cons nofun, .inl ⟨rfl, rfl⟩⟩
  | putSavedV1 =>
    rcases s with _ | ⟨x, s⟩
    · cases h
    · cases x <;> cases h
      exact ⟨.of_subset hsub, .inl ⟨rfl, rfl⟩⟩
  | dup | pop =>
    rcases s with _ | ⟨x, s⟩
    · cases h
    · simp only [Op.exec] at h
      split at h <;> cases h
      exact ⟨.of_subset (by grind), .inl ⟨rfl, rfl⟩⟩
  | intOp o =>
    rcases s with _ | ⟨x, _ | ⟨y, s⟩⟩
    · cases h
    · cases x <;> cases h
    · cases x <;> cases y <;> first
        | cases h
        | exact ofExcept_updates (g := Value.int) rfl (fun _ => nofun) hsub₂ h
  | longOp | divu =>
    rcases s with _ | ⟨x, _ | ⟨y, s⟩⟩
    · cases h
    · cases x <;> cases h
    · cases x <;> cases y <;> first
        | cases h
        | exact ofExcept_updates (g := Value.long) rfl (fun _ => nofun) hsub₂ h
  | longShift | lcmp | multu =>
    rcases s with _ | ⟨x, _ | ⟨y, s⟩⟩
    · cases h
    · cases x <;> cases h
    · cases x <;> cases y <;> cases h
      exact ⟨(Inherits.of_subset hsub₂).cons nofun, .inl ⟨rfl, rfl⟩⟩
  | swap =>
    rcases s with _ | ⟨x, _ | ⟨y, s⟩⟩
    · cases h
    · cases h
    · simp only [Op.exec] at h
      split at h <;> cases h
      exact ⟨.of_subset (by grind), .inl ⟨rfl, rfl⟩⟩
  | dup2 =>
    rcases s with _ | ⟨x, s⟩
    · cases h
    · simp only [Op.exec] at h
      repeat' split at h
      all_goals cases h
      all_goals exact ⟨.of_subset (by grind), .inl ⟨rfl, rfl⟩⟩
  | dup_x2 =>
    rcases s with _ | ⟨x, _ | ⟨y, _ | ⟨z, s⟩⟩⟩
    · cases h
    · cases h
    · cases h
    · simp only [Op.exec] at h
      split at h <;> cases h
      exact ⟨.of_subset (by grind), .inl ⟨rfl, rfl⟩⟩
  | iaload =>
    rcases s with _ | ⟨x, _ | ⟨y, s⟩⟩
    · cases h
    · cases x <;> cases h
    · cases x <;> cases y with
        | ref r => cases r <;> first
          | cases h
          | exact ofMemM_updates rfl (fun a v hv => by simp_all [Value.ty]) hsub₂ h
        | _ => cases h
  | memoryWrite what =>
    rcases s with _ | ⟨x, _ | ⟨y, s⟩⟩
    · cases h
    · cases x <;> cases h
    · cases x <;> cases y <;> first
        | cases h
        | exact ofMemM_updates rfl (fun a v hv => by cases hv) hsub₂ h
  | iastore =>
    rcases s with _ | ⟨x, _ | ⟨y, _ | ⟨z, s⟩⟩⟩
    · cases h
    · cases x <;> cases h
    · cases x <;> cases y <;> cases h
    · cases x <;> cases y <;> cases z with
        | ref r => cases r <;> first
          | cases h
          | exact ofMemM_updates rfl (fun a v hv => by cases hv) hsub₃ h
        | _ => cases h
  | memoryWritePc what =>
    rcases s with _ | ⟨x, _ | ⟨y, _ | ⟨z, s⟩⟩⟩
    · cases h
    · cases x <;> cases h
    · cases x <;> cases y <;> cases h
    · cases x <;> cases y <;> cases z <;> first
        | cases h
        | exact ofMemM_updates rfl (fun a v hv => by cases hv) hsub₃ h

end Jvm

end Cibyl
