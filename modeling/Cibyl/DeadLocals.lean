import Cibyl.Alu
import Cibyl.JalArguments

namespace Cibyl
set_option autoImplicit true

namespace Jvm

/-- Frames that are the same but for locals outside `P`. -/
structure Frame.Agree (P : Nat → Prop) (f g : Frame σ) : Prop where
  stack : g.stack = f.stack
  locals : ∀ n, P n → g.locals n = f.locals n
  world : g.world = f.world

/-- What the first code is stuck at, the other may do in some way. -/
inductive Outcome.Agree (P : Nat → Prop) : Outcome σ → Outcome σ → Prop where
  | ok {f g : Frame σ} (h : f.Agree P g) : Agree P (.ok f) (.ok g)
  | throw (e : JavaException) (w : World σ) : Agree P (.throw e w) (.throw e w)
  | stuck (o : Outcome σ) : Agree P .stuck o

theorem Outcome.Agree.refl (P : Nat → Prop) (o : Outcome σ) : o.Agree P o := by
  cases o with
  | ok f => exact .ok ⟨rfl, fun _ _ => rfl, rfl⟩
  | throw e w => exact .throw e w
  | stuck => exact .stuck _

theorem Outcome.Agree.of_eq {P : Nat → Prop} {o o' : Outcome σ} (h : o' = o) : o.Agree P o' := by
  subst h
  exact .refl P o'

theorem OutcomeRel.agree {R : List Item → List Item → Prop} {P L : Nat → Prop}
    {x y z : Outcome σ} (h : OutcomeRel R L x y) (hz : y.Agree P z) (hp : ∀ n, L n → P n) :
    OutcomeRel R L x z := by
  cases h with
  | ok hf =>
    cases hz with
    | ok hg =>
      refine .ok ⟨?_, ?_, ?_⟩
      · rw [hg.stack]
        exact hf.stack
      · intro n hn
        rw [hg.locals n (hp n hn)]
        exact hf.locals n hn
      · rw [hg.world]
        exact hf.world
  | throw e w =>
    cases hz with
    | throw => exact .throw e w
  | stuck => exact .stuck _

/-- The lines leave the method or overwrite the local before any of them reads it. -/
def Dead (n : Nat) : List Item → Prop
  | [] => False
  | i :: c => n ∉ i.reads ∧ i.targets = [] ∧ i.isRet = false ∧
      (n ∈ i.writes ∨ i.continues = false ∨ Dead n c)

theorem Dead.not_live (h : Dead n w) : ¬ Live body n (w ++ c) := by
  induction w with
  | nil => exact fun _ => h
  | cons i w ih =>
    obtain ⟨hr, ht, hret, hd⟩ := h
    intro hl
    rw [List.cons_append] at hl
    cases hl with
    | read h => exact hr h
    | step hw hf hl =>
      cases hf with
      | next hc =>
        rcases hd with hd | hd | hd
        · exact hw hd
        · rw [hd] at hc
          cases hc
        · exact ih hd hl
      | jump hi =>
        rw [ht] at hi
        cases hi
      | ret => cases hret

/-- Lines that neither read the local nor go elsewhere. -/
def Item.Passes (n : Nat) (i : Item) : Prop := n ∉ i.reads ∧ i.targets = [] ∧ i.isRet = false

theorem Dead.append (hw : ∀ i ∈ w, i.Passes n) (h : Dead n c) : Dead n (w ++ c) := by
  induction w with
  | nil => exact h
  | cons i w ih =>
    obtain ⟨hr, ht, hret⟩ := hw i (List.mem_cons_self ..)
    exact ⟨hr, ht, hret, .inr (.inr (ih fun i hi => hw i (List.mem_cons_of_mem _ hi)))⟩

theorem Op.Stores.dead {o : Op} (h : o.Stores n) (c : List Item) : Dead n (.op o :: c) := by
  refine ⟨?_, rfl, rfl, .inl ?_⟩
  · rw [Item.reads, h.reads]
    exact List.not_mem_nil
  · rw [Item.writes, h.writes]
    rfl

theorem dead_ireturn (n : Nat) (c : List Item) : Dead n (.ireturn :: c) :=
  ⟨List.not_mem_nil, rfl, rfl, .inr (.inl rfl)⟩

/-- Before `tail`, the lines `r` do what the lines `w` do. They may leave other values in locals
that are dead there. -/
structure Replaces (w r tail : List Item) : Prop where
  ops : ∀ i ∈ w ++ r, i.isOp = true
  ne : w ≠ []
  agree : ∃ P : Nat → Prop, (∀ n, ¬ P n → Dead n tail) ∧
    ∀ (σ : Type) (rt : Runtime σ) (f : Frame σ), (exec rt w f).Agree P (exec rt r f)

theorem Replaces.sameRuns (h : Replaces w r tail) (pre post : List Item) :
    SameRuns pre w r (tail ++ post) := by
  obtain ⟨P, hp, hagree⟩ := h.agree
  refine Rewrite.sameRuns ⟨pre, w, r, tail ++ post, h.ops, h.ne⟩ fun σ rt hrt f f' hf => ?_
  have hw : ∀ i ∈ w, i.isOp = true := fun i hi => h.ops i (List.mem_append_left _ hi)
  have hx := exec_agree (D := fun _ => True) hrt hw (fun _ _ _ _ => trivial)
    ⟨hf.stack, fun n hn => hf.locals n hn.1, hf.world⟩
  refine (hx.mono fun n hn => ⟨hn, trivial⟩).agree (hagree σ rt f') fun n hn => ?_
  refine Classical.byContradiction fun hnot => ?_
  exact (hp n hnot).not_live hn

section

variable {σ : Type} {rt : Runtime σ} {f : Frame σ}

def Frame.withLocal (f : Frame σ) (n : Nat) (v : Value) : Frame σ :=
  { f with locals := setLocal f.locals n v }

@[simp] theorem Frame.withLocal_same (f : Frame σ) (n : Nat) (v : Value) :
    (f.withLocal n v).locals n = v := setLocal_same ..

theorem Frame.withLocal_self (f : Frame σ) (n : Nat) : f.withLocal n (f.locals n) = f := by
  obtain ⟨s, l, w⟩ := f
  refine congrArg (Frame.mk s · w) (funext fun i => ?_)
  by_cases h : i = n
  · subst h
    exact setLocal_same ..
  · exact setLocal_ne _ _ h

theorem setLocal_twice (l : Nat → Value) (n : Nat) (u v : Value) :
    setLocal (setLocal l n u) n v = setLocal l n v := by
  refine funext fun i => ?_
  by_cases h : i = n
  · subst h
    rw [setLocal_same, setLocal_same]
  · rw [setLocal_ne _ _ h, setLocal_ne _ _ h, setLocal_ne _ _ h]

theorem Frame.withLocal_twice (f : Frame σ) (n : Nat) (u v : Value) :
    (f.withLocal n u).withLocal n v = f.withLocal n v :=
  congrArg (Frame.mk f.stack · f.world) (setLocal_twice f.locals n u v)

/-- The code does the same whatever the local holds, and leaves it alone. -/
def Ignores (n : Nat) (w : List Item) : Prop :=
  ∀ (σ : Type) (rt : Runtime σ) (f : Frame σ), exec rt w f = .stuck ∨
    ∃ g : Frame σ, ∀ v, exec rt w (f.withLocal n v) = .ok (g.withLocal n v)

theorem Ignores.append (h : Ignores n w) (h' : Ignores n w') : Ignores n (w ++ w') := by
  intro σ rt f
  rcases h σ rt f with hs | ⟨g, hg⟩
  · rw [exec_append, hs]
    exact .inl rfl
  · have hf := hg (f.locals n)
    rw [f.withLocal_self] at hf
    rcases h' σ rt (g.withLocal n (f.locals n)) with hs | ⟨k, hk⟩
    · rw [exec_append, hf, Outcome.bind_ok, hs]
      exact .inl rfl
    · refine .inr ⟨k, fun v => ?_⟩
      rw [exec_append, hg, Outcome.bind_ok, ← hk v, Frame.withLocal_twice]

/-- What a constant pushes. -/
def Op.pushed : Op → Option Word
  | .iconst n | .ldc n => some (BitVec.ofInt 32 n)
  | .bipush n => some ((BitVec.ofInt 8 n).signExtend 32)
  | .sipush n => some ((BitVec.ofInt 16 n).signExtend 32)
  | _ => none

theorem Op.exec_pushed {o : Op} (h : o.pushed = some x) (rt : Runtime σ) (s : List Value)
    (l : Nat → Value) (w : World σ) : o.exec rt ⟨s, l, w⟩ = .ok ⟨.int x :: s, l, w⟩ := by
  cases o with
  | iconst | bipush | sipush | ldc =>
    cases h
    rfl
  | _ => cases h

/-- A load does the same with all locals that have this one. -/
theorem Op.Loads.exec_cases {o : Op} (h : o.Loads n) (l : Nat → Value) :
    (∀ (σ : Type) (rt : Runtime σ) s w, o.exec rt ⟨s, l, w⟩ = .stuck) ∨
      (l n).slots = 1 ∧ ∀ (σ : Type) (rt : Runtime σ) s l' w, l' n = l n →
        o.exec rt ⟨s, l', w⟩ = .ok ⟨l n :: s, l', w⟩ := by
  rcases h with rfl | rfl
  · cases hv : l n with
    | int x => exact .inr ⟨rfl, fun σ rt s l' w hl => exec_iload rt s l' w hl⟩
    | _ => exact .inl fun σ rt s w => by simp only [Op.exec, hv]
  · cases hv : l n with
    | ref r => exact .inr ⟨rfl, fun σ rt s l' w hl => exec_aload rt s l' w hl⟩
    | _ => exact .inl fun σ rt s w => by simp only [Op.exec, hv]

theorem Op.Stores.exec_stack {o : Op} (h : o.Stores n) (rt : Runtime σ) (s : List Value)
    (l : Nat → Value) (w : World σ) : o.exec rt ⟨s, l, w⟩ = .stuck ∨
      ∃ v t, s = v :: t ∧ v.slots = 1 ∧
        ∀ t l w, o.exec rt ⟨v :: t, l, w⟩ = .ok ⟨t, setLocal l n v, w⟩ := by
  cases s with
  | nil => rcases h with rfl | rfl <;> exact .inl rfl
  | cons v s =>
    rcases h with rfl | rfl <;> cases v <;> first
      | exact .inl rfl
      | exact .inr ⟨_, _, rfl, rfl, fun _ _ _ => rfl⟩

theorem ignores_const {o : Op} (h : o.pushed = some x) (n : Nat) : Ignores n [.op o] := by
  intro σ rt ⟨s, l, w⟩
  refine .inr ⟨⟨.int x :: s, l, w⟩, fun v => ?_⟩
  rw [Frame.withLocal, exec_op, Op.exec_pushed h]
  rfl

theorem ignores_getSavedV1 (n : Nat) : Ignores n [.op .getSavedV1] := by
  intro σ rt ⟨s, l, w⟩
  exact .inr ⟨⟨.int w.savedV1 :: s, l, w⟩, fun v => rfl⟩

theorem ignores_dup (n : Nat) : Ignores n [.op .dup] := by
  intro σ rt ⟨s, l, w⟩
  cases s with
  | nil => exact .inl rfl
  | cons x s =>
    by_cases hx : x.slots = 1
    · refine .inr ⟨⟨x :: x :: s, l, w⟩, fun v => ?_⟩
      rw [Frame.withLocal, exec_op, Op.exec, if_pos hx]
      rfl
    · refine .inl ?_
      rw [exec_op, Op.exec, if_neg hx]
      rfl

theorem Op.Loads.ignores {o : Op} (h : o.Loads m) (hn : m ≠ n) : Ignores n [.op o] := by
  intro σ rt ⟨s, l, w⟩
  rcases h.exec_cases l with hx | ⟨-, hx⟩
  · refine .inl ?_
    rw [exec_op, hx]
    rfl
  · refine .inr ⟨⟨l m :: s, l, w⟩, fun v => ?_⟩
    rw [Frame.withLocal, exec_op, hx σ rt s _ w (setLocal_ne l v hn)]
    rfl

theorem Op.Stores.ignores {o : Op} (h : o.Stores m) (hn : m ≠ n) : Ignores n [.op o] := by
  intro σ rt ⟨s, l, w⟩
  rcases h.exec_stack rt s l w with hx | ⟨x, t, rfl, -, hx⟩
  · refine .inl ?_
    rw [exec_op, hx]
    rfl
  · refine .inr ⟨⟨t, setLocal l m x, w⟩, fun v => ?_⟩
    rw [Frame.withLocal, exec_op, hx, Frame.withLocal, setLocal_comm l v x hn.symm]
    rfl

/-- An increment of a local goes before code that ignores it. -/
theorem Ignores.iinc_first (h : Ignores n w) (k : Int) (rt : Runtime σ) (f : Frame σ) :
    (exec rt (w ++ [.op (.iinc n k)]) f).Agree P (exec rt (.op (.iinc n k) :: w) f) := by
  rcases h σ rt f with hs | ⟨g, hg⟩
  · rw [exec_append, hs]
    exact .stuck _
  have hf := hg (f.locals n)
  rw [f.withLocal_self] at hf
  rw [exec_append, hf, Outcome.bind_ok, exec_op, exec_op]
  obtain ⟨s, l, m⟩ := f
  cases hv : l n with
  | int x =>
    have hinc : (Op.iinc n k).exec rt (g.withLocal n (.int x)) =
        .ok (g.withLocal n (.int (x + (BitVec.ofInt 16 k).signExtend 32))) := by
      rw [Op.exec.eq_def]
      simp only [Frame.withLocal, setLocal_same, setLocal_twice]
    dsimp only
    rw [hv, hinc, Op.exec.eq_def]
    simp only [hv]
    exact .of_eq (hg _)
  | _ =>
    simp only [Op.exec, Frame.withLocal, setLocal_same, hv]
    exact .stuck _

end

section

variable {o o₁ o₂ o₃ : Op}

theorem replaces_of_eq (ho : ∀ i ∈ w ++ r, i.isOp = true) (hw : w ≠ [])
    (h : ∀ (σ : Type) (rt : Runtime σ) (f : Frame σ),
      exec rt w f = .stuck ∨ exec rt r f = exec rt w f) : Replaces w r tail where
  ops := ho
  ne := hw
  agree := by
    refine ⟨fun _ => True, fun n hn => absurd trivial hn, fun σ rt f => ?_⟩
    rcases h σ rt f with h | h
    · rw [h]
      exact .stuck _
    · exact .of_eq h

/-- What the code may leave in a dead local. -/
theorem replaces_of_dead (ho : ∀ i ∈ w ++ r, i.isOp = true) (hw : w ≠ []) (hd : Dead n tail)
    (h : ∀ (σ : Type) (rt : Runtime σ) (f : Frame σ), exec rt w f = .stuck ∨
      ∃ g v, exec rt w f = .ok (g.withLocal n v) ∧ exec rt r f = .ok g) : Replaces w r tail where
  ops := ho
  ne := hw
  agree := by
    refine ⟨(· ≠ n), fun m hm => Classical.not_not.mp hm ▸ hd, fun σ rt f => ?_⟩
    rcases h σ rt f with h | ⟨g, v, hg, hr⟩
    · rw [h]
      exact .stuck _
    · rw [hg, hr]
      exact .ok ⟨rfl, fun m hm => (setLocal_ne g.locals v hm).symm, rfl⟩

theorem const_inc_replaces {c c' : Op} (hc : c.pushed = some x)
    (hc' : c'.pushed = some (x + (BitVec.ofInt 16 k).signExtend 32)) (hs : o.Stores n) :
    Replaces [.op c, .op o, .op (.iinc n k)] [.op c', .op o] tail := by
  refine replaces_of_eq (by simp [Item.isOp]) (fun h => by cases h) fun σ rt ⟨s, l, w⟩ => ?_
  simp only [exec_op, Op.exec_pushed hc, Op.exec_pushed hc', Outcome.bind_ok]
  rcases hs with rfl | rfl
  · refine .inr ?_
    have hinc : (Op.iinc n k).exec rt ⟨s, setLocal l n (.int x), w⟩ =
        .ok ⟨s, setLocal l n (.int (x + (BitVec.ofInt 16 k).signExtend 32)), w⟩ := by
      rw [Op.exec.eq_def]
      simp only [setLocal_same, setLocal_twice]
    rw [Op.exec, Op.exec, Outcome.bind_ok, Outcome.bind_ok, exec_op, hinc]
    rfl
  · exact .inl rfl

theorem push_pop_replaces (h : ∀ (σ : Type) (rt : Runtime σ) s l w, o.exec rt ⟨s, l, w⟩ = .stuck ∨
      ∃ v, v.slots = 1 ∧ o.exec rt ⟨s, l, w⟩ = .ok ⟨v :: s, l, w⟩) :
    Replaces [.op o, .op .pop] [] tail := by
  refine replaces_of_eq (by simp [Item.isOp]) (fun h => by cases h) fun σ rt ⟨s, l, w⟩ => ?_
  rcases h σ rt s l w with h | ⟨v, hv, h⟩
  · rw [exec_op, h]
    exact .inl rfl
  · refine .inr ?_
    rw [exec_op, h, Outcome.bind_ok, exec_op, Op.exec, if_pos hv]
    rfl

theorem dup_pop_replaces : Replaces [.op .dup, .op .pop] [] tail := by
  refine replaces_of_eq (by simp [Item.isOp]) (fun h => by cases h) fun σ rt ⟨s, l, w⟩ => ?_
  cases s with
  | nil => exact .inl rfl
  | cons x s =>
    by_cases hx : x.slots = 1
    · refine .inr ?_
      rw [exec_op, Op.exec, if_pos hx, Outcome.bind_ok, exec_op, Op.exec, if_pos hx]
      rfl
    · refine .inl ?_
      rw [exec_op, Op.exec, if_neg hx]
      rfl

theorem const_store_aload_replaces {c : Op} (hc : c.pushed = some x) (hs : o.Stores n) :
    Replaces [.op c, .op o, .op (.aload m)] [.op (.aload m), .op c, .op o] tail := by
  refine replaces_of_eq (by simp [Item.isOp]) (fun h => by cases h) fun σ rt ⟨s, l, w⟩ => ?_
  have hload : (Op.aload m).Loads m := .inr rfl
  rcases hs with rfl | rfl
  · rw [exec_op, Op.exec_pushed hc, Outcome.bind_ok, exec_op, Op.exec, Outcome.bind_ok, exec_op]
    by_cases hm : m = n
    · subst hm
      refine .inl ?_
      rw [Op.exec.eq_def]
      simp only [setLocal_same]
      rfl
    · have hl : l m = setLocal l n (.int x) m := (setLocal_ne l _ hm).symm
      rcases hload.exec_cases (setLocal l n (.int x)) with h | ⟨-, h⟩
      · refine .inl ?_
        rw [h]
        rfl
      · refine .inr ?_
        rw [h σ rt s _ w rfl, exec_op, h σ rt s l w hl, Outcome.bind_ok, exec_op,
          Op.exec_pushed hc]
        rfl
  · refine .inl ?_
    rw [exec_op, Op.exec_pushed hc]
    rfl

/-- The first two of three stores and loads of one local do nothing. -/
theorem store_load_replaces (h₁ : o₁.Stores n) (h₂ : o₂.Loads n) (hd : Dead n tail) :
    Replaces [.op o₁, .op o₂] [] tail := by
  refine replaces_of_dead (by simp [Item.isOp]) (fun h => by cases h) hd fun σ rt ⟨s, l, w⟩ => ?_
  rcases h₁.exec_stack rt s l w with h | ⟨v, t, rfl, -, h⟩
  · rw [exec_op, h]
    exact .inl rfl
  · rw [exec_op, h, Outcome.bind_ok, exec_op]
    have hv : setLocal l n v n = v := setLocal_same ..
    rcases h₂.exec_cases (setLocal l n v) with h | ⟨-, h⟩
    · rw [h]
      exact .inl rfl
    · refine .inr ⟨⟨v :: t, l, w⟩, v, ?_, rfl⟩
      rw [h σ rt t _ w rfl, hv]
      rfl

theorem store_replaces_pop (h₁ : o₁.Stores n) (hd : Dead n tail) :
    Replaces [.op o₁] [.op .pop] tail := by
  refine replaces_of_dead (by simp [Item.isOp]) (fun h => by cases h) hd fun σ rt ⟨s, l, w⟩ => ?_
  rcases h₁.exec_stack rt s l w with h | ⟨v, t, rfl, hv, h⟩
  · rw [exec_op, h]
    exact .inl rfl
  · refine .inr ⟨⟨t, l, w⟩, v, ?_, ?_⟩
    · rw [exec_op, h]
      rfl
    · rw [exec_op, Op.exec, if_pos hv]
      rfl

theorem store_load_replaces_dup (h₁ : o₁.Stores n) (h₂ : o₂.Loads n) :
    Replaces [.op o₁, .op o₂] [.op .dup, .op o₁] tail := by
  refine replaces_of_eq (by simp [Item.isOp]) (fun h => by cases h) fun σ rt ⟨s, l, w⟩ => ?_
  rcases h₁.exec_stack rt s l w with h | ⟨v, t, rfl, hv, h⟩
  · rw [exec_op, h]
    exact .inl rfl
  · rw [exec_op, h, Outcome.bind_ok, exec_op, exec_op, Op.exec, if_pos hv, Outcome.bind_ok,
      exec_op, h]
    rcases h₂.exec_cases (setLocal l n v) with h | ⟨-, h⟩
    · rw [h]
      exact .inl rfl
    · refine .inr ?_
      rw [h σ rt t _ w rfl, setLocal_same]

theorem dup_store_replaces (h₁ : o₁.Stores n) (hd : Dead n tail) :
    Replaces [.op .dup, .op o₁] [] tail := by
  refine replaces_of_dead (by simp [Item.isOp]) (fun h => by cases h) hd fun σ rt ⟨s, l, w⟩ => ?_
  cases s with
  | nil => exact .inl rfl
  | cons x s =>
    by_cases hx : x.slots = 1
    · rw [exec_op, Op.exec, if_pos hx, Outcome.bind_ok, exec_op]
      rcases h₁.exec_stack rt (x :: x :: s) l w with h | ⟨v, t, hv, -, h⟩
      · rw [h]
        exact .inl rfl
      · cases hv
        refine .inr ⟨⟨x :: s, l, w⟩, x, ?_, rfl⟩
        rw [h]
        rfl
    · refine .inl ?_
      rw [exec_op, Op.exec, if_neg hx]
      rfl

theorem swap_replaces (h₁ : o₁.Stores n) (h₂ : o₂.Loads m) (h₃ : o₃.Loads n) (hm : m ≠ n)
    (hd : Dead n tail) :
    Replaces [.op o₁, .op o₂, .op o₃] [.op o₂, .op .swap] tail := by
  refine replaces_of_dead (by simp [Item.isOp]) (fun h => by cases h) hd fun σ rt ⟨s, l, w⟩ => ?_
  rcases h₁.exec_stack rt s l w with h | ⟨v, t, rfl, hv, h⟩
  · rw [exec_op, h]
    exact .inl rfl
  · rw [exec_op, h, Outcome.bind_ok, exec_op]
    have hl : l m = setLocal l n v m := (setLocal_ne l v hm).symm
    rcases h₂.exec_cases (setLocal l n v) with h' | ⟨hx, h'⟩
    · rw [h']
      exact .inl rfl
    · rw [h' σ rt t _ w rfl, Outcome.bind_ok, exec_op]
      rcases h₃.exec_cases (setLocal l n v) with h'' | ⟨-, h''⟩
      · rw [h'']
        exact .inl rfl
      · refine .inr ⟨⟨v :: setLocal l n v m :: t, l, w⟩, v, ?_, ?_⟩
        · rw [h'' σ rt _ _ w rfl, setLocal_same]
          rfl
        · rw [exec_op, h' σ rt _ l w hl, Outcome.bind_ok, exec_op, exec_swap _ _ _ _ hx hv]
          rfl

theorem store_putstatic_load_replaces (h₁ : o₁.Stores n) (h₂ : o₂.Loads m) (h₃ : o₃.Loads n)
    (hm : m ≠ n) (hd : Dead n tail) :
    Replaces [.op o₁, .op o₂, .op .putSavedV1, .op o₃] [.op o₂, .op .putSavedV1] tail := by
  refine replaces_of_dead (by simp [Item.isOp]) (fun h => by cases h) hd fun σ rt ⟨s, l, w⟩ => ?_
  rcases h₁.exec_stack rt s l w with h | ⟨v, t, rfl, hv, h⟩
  · rw [exec_op, h]
    exact .inl rfl
  · rw [exec_op, h, Outcome.bind_ok, exec_op]
    have hl : l m = setLocal l n v m := (setLocal_ne l v hm).symm
    rcases h₂.exec_cases (setLocal l n v) with h' | ⟨hx, h'⟩
    · rw [h']
      exact .inl rfl
    · rw [h' σ rt t _ w rfl, Outcome.bind_ok, exec_op]
      generalize hu : setLocal l n v m = u at hl h'
      cases u with
      | int x =>
        rw [Op.exec, Outcome.bind_ok, exec_op]
        rcases h₃.exec_cases (setLocal l n v) with h'' | ⟨-, h''⟩
        · rw [h'']
          exact .inl rfl
        · refine .inr ⟨⟨v :: t, l, { w with savedV1 := x }⟩, v, ?_, ?_⟩
          · rw [h'' σ rt _ _ _ rfl, setLocal_same]
            rfl
          · rw [exec_op, h' σ rt _ l w hl, Outcome.bind_ok, exec_op]
            rfl
      | _ => exact .inl rfl

theorem push_store_inc_replaces (h : Ignores n [.op o₁]) (h' : Ignores n [.op o₂]) :
    Replaces [.op o₁, .op o₂, .op (.iinc n k)] [.op (.iinc n k), .op o₁, .op o₂] tail where
  ops := by simp [Item.isOp]
  ne h := by cases h
  agree := ⟨fun _ => True, fun n hn => absurd trivial hn,
    fun σ rt f => (h.append h').iinc_first k rt f⟩

/-- A local with a reference is not incremented. -/
theorem astore_inc_replaces (h : o.Stores m) (hm : m ≠ n) :
    Replaces [.op (.astore n), .op o, .op (.iinc n k)] [.op (.iinc n k), .op (.astore n), .op o]
      tail := by
  refine replaces_of_eq (by simp [Item.isOp]) (fun h => by cases h) fun σ rt ⟨s, l, w⟩ => .inl ?_
  have hstuck : ∀ v t, (∀ x, v ≠ .int x) →
      exec rt [.op o, .op (.iinc n k)] ⟨t, setLocal l n v, w⟩ = .stuck := by
    intro v t hv
    rw [exec_op]
    rcases h.exec_stack rt t (setLocal l n v) w with h | ⟨u, t, rfl, -, h⟩
    · rw [h]
      rfl
    · rw [h, Outcome.bind_ok, exec_op, Op.exec.eq_def]
      simp only [setLocal_ne _ u hm.symm, setLocal_same]
      cases v with
      | int x => exact absurd rfl (hv x)
      | _ => rfl
  cases s with
  | nil => rfl
  | cons v s =>
    cases v with
    | ref r => exact hstuck (.ref r) s fun x h => by cases h
    | ret c => exact hstuck (.ret c) s fun x h => by cases h
    | _ => rfl

end

end Jvm

end Cibyl
