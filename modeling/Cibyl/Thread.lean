import Cibyl.Machine

namespace Cibyl
set_option autoImplicit true

namespace Jvm

/-- A line of the exception table of a method. -/
structure CatchEntry where
  exception : String
  start : Label
  stop : Label
  handler : Label
  deriving DecidableEq, Repr

def Item.entry? : Item → Option CatchEntry
  | .catch_ exception start stop handler => some ⟨exception, start, stop, handler⟩
  | _ => none

/-- The table has the entries in the order of the `.catch` lines. -/
def exceptionTable (body : List Item) : List CatchEntry := body.filterMap Item.entry?

namespace CatchEntry

/-- The instruction that `code` begins with lies between the labels of the entry. -/
def covers (body code : List Item) (e : CatchEntry) : Bool :=
  match findLabel body e.start, findLabel body e.stop with
  | some a, some b => b.length < code.length && code.length ≤ a.length
  | _, _ => false

end CatchEntry

/-- The entry that takes an exception thrown at `code`, by the classes it is an instance of. -/
def findHandler (isInstance : String → Bool) (body code : List Item) : Option CatchEntry :=
  (exceptionTable body).find? (fun e => isInstance e.exception && e.covers body code)

/-- A method that has been called and has not returned. While it waits for a method it has called
itself, its code begins with that call. -/
structure Activation where
  body : List Item
  code : List Item
  stack : List Value
  locals : Nat → Value

/-- The active methods, the innermost first. -/
structure Thread (σ : Type) where
  frames : List Activation
  world : World σ

/-- What there is besides the code of one method: the code of the others, the classes of objects,
and the objects for exceptions of the virtual machine. -/
structure Program (σ : Type) where
  rt : Runtime σ
  resolve : External → Option (List Item)
  isInstance : World σ → Nat → String → Bool
  create : JavaException → World σ → Nat × World σ

inductive ThreadNext (σ : Type) where
  | run (t : Thread σ)
  | finished (value : Option Value) (w : World σ)
  | uncaught (object : Nat) (w : World σ)
  | stuck

namespace Program

variable (P : Program σ)

def raised : JavaException → World σ → Nat × World σ
  | .thrown n, w => (n, w)
  | e, w => P.create e w

/-- The method that an activation calls next, its arguments and the stack below them. -/
def call (f : Activation) : Option (List Item × List Value × List Value) :=
  match f.code with
  | .op (.external e) :: _ =>
    (P.resolve e).bind (fun body => (popArgs e.args f.stack).map (fun p => (body, p.1, p.2)))
  | _ => none

/-- The innermost activation with a handler for the object takes it; those above are gone. -/
def throwObject (n : Nat) (w : World σ) : List Activation → ThreadNext σ
  | [] => .uncaught n w
  | f :: fs =>
    match findHandler (P.isInstance w n) f.body f.code with
    | some e =>
      match findLabel f.body e.handler with
      | some c => .run ⟨{ f with code := c, stack := [.ref (.object n)] } :: fs, w⟩
      | none => .stuck
    | none => throwObject n w fs

end Program

def returnValue (v : Option Value) (w : World σ) : List Activation → ThreadNext σ
  | [] => .finished v w
  | f :: fs => .run ⟨{ f with code := f.code.tail, stack := v.toList ++ f.stack } :: fs, w⟩

def Activation.enter (body : List Item) (args : List Value) : Activation :=
  ⟨body, body, [], fun i => args.getD i (.int 0)⟩

namespace Thread

/-- A step of the innermost activation that is no call. -/
def stepTop (P : Program σ) (f : Activation) (fs : List Activation) (w : World σ) : ThreadNext σ :=
  match Jvm.step P.rt f.body ⟨f.code, ⟨f.stack, f.locals, w⟩⟩ with
  | .run ⟨c, ⟨s, l, w⟩⟩ => .run ⟨⟨f.body, c, s, l⟩ :: fs, w⟩
  | .return_ v w => returnValue v w fs
  | .throw e _ w => P.throwObject (P.raised e w).1 (P.raised e w).2 (f :: fs)
  | .athrow (.object n) g => P.throwObject n g.world (f :: fs)
  | .athrow _ _ => .stuck
  | .stuck => .stuck

def step (P : Program σ) : Thread σ → ThreadNext σ
  | ⟨[], _⟩ => .stuck
  | ⟨f :: fs, w⟩ =>
    match P.call f with
    | some (body, args, s) => .run ⟨.enter body args :: { f with stack := s } :: fs, w⟩
    | none => stepTop P f fs w

/-- Runs of a thread, any number of steps long. -/
def Runs (P : Program σ) : Thread σ → Thread σ → Prop :=
  Relation.ReflTransGen (fun t u => t.step P = .run u)

variable {P : Program σ}

theorem Runs.refl (t : Thread σ) : Runs P t t := Relation.ReflTransGen.refl

theorem Runs.trans {t u v : Thread σ} (h : Runs P t u) (h' : Runs P u v) : Runs P t v :=
  Relation.ReflTransGen.trans h h'

theorem Runs.head {t u v : Thread σ} (h : t.step P = .run u) (h' : Runs P u v) : Runs P t v :=
  Relation.ReflTransGen.head h h'

theorem step_of_no_call (h : P.call f = none) (fs : List Activation) (w : World σ) :
    step P ⟨f :: fs, w⟩ = stepTop P f fs w := by
  rw [step, h]

/-- A method that calls no other method runs in the thread as it does alone. -/
theorem runs_of_step (hc : P.call ⟨body, c, s, l⟩ = none)
    (h : Jvm.step P.rt body ⟨c, ⟨s, l, w⟩⟩ = .run ⟨c', ⟨s', l', w'⟩⟩) (fs : List Activation) :
    step P ⟨⟨body, c, s, l⟩ :: fs, w⟩ = .run ⟨⟨body, c', s', l'⟩ :: fs, w'⟩ := by
  rw [step_of_no_call hc, stepTop, h]

end Thread

/-- A line that calls no method of the program. -/
def Item.Internal (P : Program σ) : Item → Prop
  | .op (.external e) => P.resolve e = none
  | _ => True

theorem Program.call_none {P : Program σ} {i : Item} (h : i.Internal P) (c s l body) :
    P.call ⟨body, i :: c, s, l⟩ = none := by
  rw [call.eq_def]
  dsimp only
  split
  · next e _ heq =>
    cases heq
    rw [show P.resolve e = none from h]
    rfl
  · rfl

/-- Straight-line code that calls no method of the program. -/
theorem Thread.runs_of_exec {P : Program σ} (hi : ∀ i ∈ c, i.Internal P)
    (h : exec P.rt c ⟨s, l, w⟩ = .ok ⟨s', l', w'⟩) (body d : List Item) (fs : List Activation) :
    Thread.Runs P ⟨⟨body, c ++ d, s, l⟩ :: fs, w⟩ ⟨⟨body, d, s', l'⟩ :: fs, w'⟩ := by
  induction c generalizing s l w with
  | nil =>
    cases h
    exact .refl _
  | cons i c ih =>
    cases i with
    | op o =>
      rw [exec_op] at h
      cases ho : o.exec P.rt ⟨s, l, w⟩ with
      | ok f₁ =>
        rw [ho] at h
        refine .head (runs_of_step ?_ ?_ fs) (ih (fun i hm => hi i (List.mem_cons_of_mem _ hm)) h)
        · exact Program.call_none (hi _ (List.mem_cons_self ..)) ..
        · rw [List.cons_append, Jvm.step, ho]
      | throw e w₁ =>
        rw [ho] at h
        cases h
      | stuck =>
        rw [ho] at h
        cases h
    | _ => cases h

end Jvm

end Cibyl
