import Cibyl.Jvm
import Cibyl.Library.LabelledCode

namespace Cibyl
set_option autoImplicit true

namespace Jvm

def Item.label? : Item → Option Label
  | .label l => some l
  | _ => none

def findLabel (body : List Item) (l : Label) : Option (List Item) :=
  Labelled.find Item.label? l body

/-- The code still to run, and the frame it runs on. -/
structure Config (σ : Type) where
  code : List Item
  frame : Frame σ

/-- What one instruction of a method does. -/
inductive Next (σ : Type) where
  | run (c : Config σ)
  | return_ (value : Option Value) (w : World σ)
  | throw (e : JavaException) (f : Frame σ) (w : World σ)
  | athrow (exception : Ref) (f : Frame σ)
  | stuck

def jump (body : List Item) (l : Label) (f : Frame σ) : Next σ :=
  match findLabel body l with
  | some c => .run ⟨c, f⟩
  | none => .stuck

/-- A step of the method `body`. Falling off its end is an error. -/
def step (rt : Runtime σ) (body : List Item) : Config σ → Next σ
  | ⟨[], _⟩ => .stuck
  | ⟨.op o :: c, f⟩ =>
    match o.exec rt f with
    | .ok f' => .run ⟨c, f'⟩
    | .throw e w => .throw e f w
    | .stuck => .stuck
  | ⟨.label _ :: c, f⟩ => .run ⟨c, f⟩
  | ⟨.catch_ .. :: c, f⟩ => .run ⟨c, f⟩
  | ⟨.goto l :: _, f⟩ => jump body l f
  | ⟨.cond1 k l :: c, ⟨.int x :: s, lo, w⟩⟩ =>
    if k.holds x then jump body l ⟨s, lo, w⟩ else .run ⟨c, ⟨s, lo, w⟩⟩
  | ⟨.cond2 k l :: c, ⟨.int y :: .int x :: s, lo, w⟩⟩ =>
    if k.holds x y then jump body l ⟨s, lo, w⟩ else .run ⟨c, ⟨s, lo, w⟩⟩
  | ⟨.jsr l :: c, ⟨s, lo, w⟩⟩ => jump body l ⟨.ret c :: s, lo, w⟩
  | ⟨.ret n :: _, f⟩ =>
    match f.locals n with
    | .ret c => .run ⟨c, f⟩
    | _ => .stuck
  | ⟨.tableswitch targets default :: _, ⟨.int x :: s, lo, w⟩⟩ =>
    jump body (targets.getD x.toNat default) ⟨s, lo, w⟩
  | ⟨.lookupswitch targets default :: _, ⟨.int x :: s, lo, w⟩⟩ =>
    jump body ((targets.lookup x).getD default) ⟨s, lo, w⟩
  | ⟨.ireturn :: _, ⟨.int v :: _, _, w⟩⟩ => .return_ (some (.int v)) w
  | ⟨.lreturn :: _, ⟨.long v :: _, _, w⟩⟩ => .return_ (some (.long v)) w
  | ⟨.return_ :: _, ⟨_, _, w⟩⟩ => .return_ none w
  | ⟨.athrow :: _, ⟨.ref r :: s, lo, w⟩⟩ => .athrow r ⟨s, lo, w⟩
  | _ => .stuck

/-- Runs of a method, any number of steps long. -/
def Runs (rt : Runtime σ) (body : List Item) : Config σ → Config σ → Prop :=
  Relation.ReflTransGen (fun c d => step rt body c = .run d)

namespace Runs

variable {rt : Runtime σ} {body : List Item}

theorem refl (c : Config σ) : Runs rt body c c := Relation.ReflTransGen.refl

theorem trans (h : Runs rt body c d) (h' : Runs rt body d e) : Runs rt body c e :=
  Relation.ReflTransGen.trans h h'

theorem head (h : step rt body c = .run d) (h' : Runs rt body d e) : Runs rt body c e :=
  Relation.ReflTransGen.head h h'

theorem of_step (h : step rt body c = .run d) : Runs rt body c d := Relation.ReflTransGen.single h

theorem goto (h : findLabel body l = some c) (d : List Item) (f : Frame σ) :
    Runs rt body ⟨.goto l :: d, f⟩ ⟨c, f⟩ := by
  refine of_step ?_
  rw [step, jump, h]

theorem label (l : Label) (c : List Item) (f : Frame σ) : Runs rt body ⟨.label l :: c, f⟩ ⟨c, f⟩ :=
  of_step rfl

/-- Straight-line code runs to what follows it. -/
theorem of_exec (h : exec rt c f = .ok f') (d : List Item) : Runs rt body ⟨c ++ d, f⟩ ⟨d, f'⟩ := by
  induction c generalizing f with
  | nil =>
    cases h
    exact refl _
  | cons i c ih =>
    cases i with
    | op o =>
      rw [exec_op] at h
      cases ho : o.exec rt f with
      | ok f₁ =>
        rw [ho] at h
        refine head ?_ (ih h)
        rw [List.cons_append, step, ho]
      | throw e w =>
        rw [ho] at h
        cases h
      | stuck =>
        rw [ho] at h
        cases h
    | _ => cases h

/-- Straight-line code that raises an exception runs up to the instruction that does. -/
theorem of_throw (body : List Item) (h : exec rt c f = .throw e w) (d : List Item) :
    ∃ g, Runs rt body ⟨c ++ d, f⟩ g ∧ step rt body g = .throw e g.frame w := by
  induction c generalizing f with
  | nil => cases h
  | cons i c ih =>
    cases i with
    | op o =>
      rw [exec_op] at h
      cases ho : o.exec rt f with
      | ok f₁ =>
        rw [ho] at h
        obtain ⟨g, hr, hg⟩ := ih h
        refine ⟨g, head ?_ hr, hg⟩
        rw [List.cons_append, step, ho]
      | throw e' w' =>
        rw [ho] at h
        cases h
        refine ⟨_, refl _, ?_⟩
        rw [List.cons_append, step, ho]
      | stuck =>
        rw [ho] at h
        cases h
    | _ => cases h

/-- A step has one outcome, so of two runs one continues the other. -/
theorem total (h : Runs rt body c d) (h' : Runs rt body c e) :
    Runs rt body d e ∨ Runs rt body e d := by
  refine Relation.ReflTransGen.total_of_right_unique ?_ h h'
  intro a b b' hb hb'
  cases hb.symm.trans hb'
  rfl

theorem eq_of_halted (hc : ∀ d, step rt body c ≠ .run d) (h : Runs rt body c d) : d = c := by
  rcases Relation.ReflTransGen.cases_head h with h | ⟨e, he, -⟩
  · exact h.symm
  · exact absurd he (hc e)

/-- Two runs that both stop, stop at one configuration. -/
theorem halted_unique (h : Runs rt body c d) (h' : Runs rt body c e)
    (hd : ∀ g, step rt body d ≠ .run g) (he : ∀ g, step rt body e ≠ .run g) : d = e := by
  rcases total h h' with h | h
  · exact (eq_of_halted hd h).symm
  · exact eq_of_halted he h

end Runs

end Jvm

end Cibyl
