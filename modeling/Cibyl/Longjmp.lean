import Cibyl.Blocks
import Cibyl.CatchTable
import Cibyl.RegisterWrites

namespace Cibyl
set_option autoImplicit true

open Jvm (Item Op Label Value World exec Activation Thread Runtime findLabel findHandler
  exceptionTable setLocal External)
open Emit (op intOp pushconst)
open Bc (lowerAll allMarks)

/-- The methods of the program are translated ones, called with the registers they take. -/
structure Translated (env : Env) (array : List Entry) (ms : List JavaMethod)
    (P : Jvm.Program σ) : Prop where
  made : ∀ m ∈ ms, m.Made array
  method : P.resolve e = some body → ∃ m ∈ ms, body = m.pass2 env
  args : P.resolve e = some body → .ret ∉ e.args

def Cuts (env : Env) (ms : List JavaMethod) (init rest : List Item) : Prop :=
  ∃ m ∈ ms, init = m.initCode env ∧ rest = m.restCode env

theorem Translated.cut {P : Jvm.Program σ} (h : Translated env array ms P)
    (hp : Controller.pass0 base text = some array) : Jvm.Cut P (Cuts env ms) where
  prologue := by
    rintro init rest ⟨m, hm, rfl, rfl⟩
    exact JavaMethod.prologue (h.made m hm) hp env
  method := by
    intro e body hr
    obtain ⟨m, hm, rfl⟩ := h.method hr
    exact ⟨_, _, ⟨m, hm, rfl, rfl⟩, m.pass2_code env⟩
  args := h.args

def getCookie : External := ⟨"SetjmpException/getCookie", [.ref], some .int⟩

def getValue : External := ⟨"SetjmpException/getValue", [.ref], some .int⟩

/-- The word of the memory array at an address, as the handlers read it. -/
def Holds32 (w : World σ) (a v : Word) : Prop := Memory.load (ishr a 2) w.memory = (.ok v, w.memory)

/-- The object is a `SetjmpException`. -/
structure IsSetjmpException (P : Jvm.Program σ) (w : World σ) (n : Nat) (cookie value : Word) :
    Prop where
  isInstance : P.isInstance w n "SetjmpException" = true
  cookie : P.rt.call getCookie [.ref (.object n)] w = (.ok [.int cookie], w)
  value : P.rt.call getValue [.ref (.object n)] w = (.ok [.int value], w)
  cookie_java : P.resolve getCookie = none
  value_java : P.resolve getValue = none

section Handler

variable {P : Jvm.Program σ} {w : World σ} {m : JavaMethod}

/-- The handler loads the word the cookie points to. -/
theorem exec_compare (ho : IsSetjmpException P w n cookie v) (hw : Holds32 w cookie a)
    (hr : ra.regToLocal Reg.mem = some k) (hk : l k = .ref .memory) (target : Word) :
    exec P.rt (lowerAll ra [op .dup, op (.external getCookie), pushconst 2, intOp .ishr,
      .pushregister Reg.mem, op .swap, op .iaload, pushconst target])
        ⟨[.ref (.object n)], l, w⟩ =
      .ok ⟨[.int target, .int a, .ref (.object n)], l, w⟩ := by
  have hcall : Op.exec P.rt (.external getCookie) ⟨[.ref (.object n), .ref (.object n)], l, w⟩ =
      .ok ⟨[.int cookie, .ref (.object n)], l, w⟩ := by
    have hp : Jvm.popArgs getCookie.args [.ref (.object n), .ref (.object n)] =
        some ([.ref (.object n)], [.ref (.object n)]) := rfl
    simp only [Op.exec, hp, ho.cookie]
    rfl
  have hdup : Op.exec P.rt .dup ⟨[.ref (.object n)], l, w⟩ =
      .ok ⟨[.ref (.object n), .ref (.object n)], l, w⟩ := rfl
  have hload : Op.exec P.rt .iaload
      ⟨[.int (ishr cookie 2), .ref .memory, .ref (.object n)], l, w⟩ =
      .ok ⟨[.int a, .ref (.object n)], l, w⟩ := by
    rw [Holds32] at hw
    simp only [Op.exec, Jvm.ofMemM, hw]
    rfl
  rw [Bc.lowerAll_op, Jvm.exec_op, hdup, Jvm.Outcome.bind_ok, Bc.lowerAll_op, Jvm.exec_op, hcall,
    Jvm.Outcome.bind_ok, Bc.exec_pushconst, Bc.lowerAll_intOp, Jvm.exec_op,
    Jvm.exec_intOp P.rt _ l w (show Jvm.IntOp.eval .ishr cookie 2 = .ok (ishr cookie 2) from rfl),
    Jvm.Outcome.bind_ok, Bc.exec_pushmem hr hk, Bc.lowerAll_op, Jvm.exec_op,
    Jvm.exec_swap P.rt _ l w rfl rfl, Jvm.Outcome.bind_ok, Bc.lowerAll_op, Jvm.exec_op, hload,
    Jvm.Outcome.bind_ok, Bc.exec_pushconst]
  rfl

theorem internal_external (h : P.resolve e = none) : Item.Internal P (.op (.external e)) := h

/-- The lines of a setjmp handler up to the comparison. -/
def compareLines (target : Word) : List Bc :=
  [op .dup, op (.external getCookie), pushconst 2, intOp .ishr, .pushregister Reg.mem, op .swap,
    op .iaload, pushconst target]

theorem compareLines_internal (hc : P.resolve getCookie = none) (ra : RegisterAllocator)
    (target : Word) : ∀ i ∈ lowerAll ra (compareLines target), i.Internal P := by
  have hconst (v : Word) : ∀ i ∈ (pushconst v).lower ra, i.Internal P := by
    intro i hi
    rw [pushconst] at hi
    repeat' split at hi
    all_goals
      cases List.mem_singleton.mp hi
      exact trivial
  have hmem : ∀ i ∈ (Bc.pushregister Reg.mem).lower ra, i.Internal P := by
    intro i hi
    rw [Bc.lower, if_neg (by decide), Bc.pushregisterItem] at hi
    repeat' split at hi
    all_goals
      cases List.mem_singleton.mp hi
      exact trivial
  intro i hi
  simp only [compareLines, Bc.lowerAll_cons, Bc.lowerAll_nil, List.append_nil, List.mem_append]
    at hi
  rcases hi with hi | hi | hi | hi | hi | hi | hi | hi
  · cases List.mem_singleton.mp hi
    exact trivial
  · cases List.mem_singleton.mp hi
    exact hc
  · exact hconst _ i hi
  · cases List.mem_singleton.mp hi
    exact trivial
  · exact hmem i hi
  · cases List.mem_singleton.mp hi
    exact trivial
  · cases List.mem_singleton.mp hi
    exact trivial
  · exact hconst _ i hi

/-- A setjmp handler that is not meant throws the exception on. -/
theorem handler_rethrows (ho : IsSetjmpException P w n cookie v) (hw : Holds32 w cookie a)
    (hr : (m.pass1 env).regalloc.regToLocal Reg.mem = some k) (hk : l k = .ref .memory)
    (ht : target ≠ a)
    (hn : findLabel (m.pass2 env) (.setjmpNotThis start stop) =
      some (.athrow :: lowerAll (m.pass1 env).regalloc post)) (fs : List Activation) :
    Thread.Runs P ⟨⟨m.pass2 env, lowerAll (m.pass1 env).regalloc
        ((ExceptionHandler.pass2 env (.setjmp start stop target)).tail ++ post),
        [.ref (.object n)], l⟩ :: fs, w⟩
      ⟨⟨m.pass2 env, .athrow :: lowerAll (m.pass1 env).regalloc post, [.ref (.object n)], l⟩ :: fs,
        w⟩ := by
  have hsplit : (ExceptionHandler.pass2 env (.setjmp start stop target)).tail ++ post =
      compareLines target ++ .item (.cond2 .if_icmpne (.setjmpNotThis start stop)) ::
        ([op (.external getValue), .popregister Reg.v0, .item (.goto (.addr target)),
          .item (.label (.setjmpNotThis start stop)), .item .athrow] ++ post) := rfl
  rw [hsplit, Bc.lowerAll_append]
  refine (Jvm.Thread.runs_of_exec (compareLines_internal ho.cookie_java _ target)
    (exec_compare ho hw hr hk target) _ _ fs).trans (.head ?_ (.refl _))
  refine Jvm.Thread.runs_of_step
    (Jvm.Program.call_none (show Item.Internal P (.cond2 ..) from trivial) ..) ?_ fs
  have hne : (a != target) = true := by simpa using ht.symm
  simp only [Jvm.step, Jvm.Cond2.holds, hne, if_true, Jvm.jump, hn]

/-- The setjmp handler that is meant goes on behind the call of `setjmp`. -/
theorem handler_resumes (ho : IsSetjmpException P w n cookie v) (hw : Holds32 w cookie target)
    (hr : (m.pass1 env).regalloc.regToLocal Reg.mem = some k) (hk : l k = .ref .memory)
    (hv : (m.pass1 env).regalloc.regToLocal Reg.v0 = some j)
    (ht : findLabel (m.pass2 env) (.addr target) = some c) (fs : List Activation) :
    Thread.Runs P ⟨⟨m.pass2 env, lowerAll (m.pass1 env).regalloc
        ((ExceptionHandler.pass2 env (.setjmp start stop target)).tail ++ post),
        [.ref (.object n)], l⟩ :: fs, w⟩
      ⟨⟨m.pass2 env, c, [], setLocal l j (.int v)⟩ :: fs, w⟩ := by
  have hsplit : (ExceptionHandler.pass2 env (.setjmp start stop target)).tail ++ post =
      compareLines target ++ .item (.cond2 .if_icmpne (.setjmpNotThis start stop)) ::
        ([op (.external getValue), .popregister Reg.v0] ++ .item (.goto (.addr target)) ::
          ([.item (.label (.setjmpNotThis start stop)), .item .athrow] ++ post)) := rfl
  rw [hsplit, Bc.lowerAll_append]
  have hcmp : Jvm.step P.rt (m.pass2 env)
      ⟨lowerAll (m.pass1 env).regalloc (.item (.cond2 .if_icmpne (.setjmpNotThis start stop)) ::
        ([op (.external getValue), .popregister Reg.v0] ++ .item (.goto (.addr target)) ::
          ([.item (.label (.setjmpNotThis start stop)), .item .athrow] ++ post))),
        ⟨[.int target, .int target, .ref (.object n)], l, w⟩⟩ =
      .run ⟨lowerAll (m.pass1 env).regalloc
        ([op (.external getValue), .popregister Reg.v0] ++ .item (.goto (.addr target)) ::
          ([.item (.label (.setjmpNotThis start stop)), .item .athrow] ++ post)),
        ⟨[.ref (.object n)], l, w⟩⟩ := by
    simp [Bc.lowerAll_cons, Bc.lower, Jvm.step, Jvm.Cond2.holds]
  refine (Jvm.Thread.runs_of_exec (compareLines_internal ho.cookie_java _ target)
    (exec_compare ho hw hr hk target) _ _ fs).trans (.head (Jvm.Thread.runs_of_step
      (Jvm.Program.call_none (show Item.Internal P (.cond2 ..) from trivial) ..) hcmp fs) ?_)
  have hget : exec P.rt (lowerAll (m.pass1 env).regalloc
      [op (.external getValue), .popregister Reg.v0]) ⟨[.ref (.object n)], l, w⟩ =
      .ok ⟨[], setLocal l j (.int v), w⟩ := by
    have hcall : Op.exec P.rt (.external getValue) ⟨[.ref (.object n)], l, w⟩ =
        .ok ⟨[.int v], l, w⟩ := by
      have hp : Jvm.popArgs getValue.args [.ref (.object n)] = some ([.ref (.object n)], []) := rfl
      simp only [Op.exec, hp, ho.value]
      rfl
    rw [Bc.lowerAll_op, Jvm.exec_op, hcall, Jvm.Outcome.bind_ok,
      Bc.exec_popregister hv (by decide)]
    rfl
  have hint : ∀ i ∈ lowerAll (m.pass1 env).regalloc
      [op (.external getValue), .popregister Reg.v0], i.Internal P := by
    intro i hi
    rw [Bc.lowerAll_op, Bc.lowerAll_cons, Bc.lower, hv] at hi
    rcases List.mem_cons.mp hi with rfl | hi
    · exact ho.value_java
    · cases List.mem_singleton.mp hi
      exact trivial
  rw [Bc.lowerAll_append]
  refine (Jvm.Thread.runs_of_exec hint hget _ _ fs).trans (.head ?_ (.refl _))
  refine Jvm.Thread.runs_of_step
    (Jvm.Program.call_none (show Item.Internal P (.goto _) from trivial) ..) ?_ fs
  simp only [Jvm.step, Jvm.jump, ht]

end Handler

end Cibyl
