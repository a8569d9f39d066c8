import Mathlib.Data.List.GetD
import Mathlib.Data.List.Infix

namespace Cibyl
set_option autoImplicit true

/-- The functions of a program and the memory around its lists of them: the handlers that a call
registers, and what a place of a list holds once the list has moved. -/
structure ExitProgram (φ σ : Type) where
  body : φ → σ → List φ × σ
  dtors : List φ
  freed : Nat → Nat → φ

/-- `atexit_list` with its `atexit_n` entries, and what the functions work on. -/
structure AtExit (φ σ : Type) where
  list : List φ
  world : σ

namespace AtExit

variable {φ σ : Type} (p : ExitProgram φ σ)

def atexit (fn : φ) (st : AtExit φ σ) : AtExit φ σ := { st with list := st.list ++ [fn] }

/-- The registrations one after the other. -/
def registered (fns : List φ) (world : σ) : AtExit φ σ :=
  fns.foldl (fun st fn => atexit fn st) ⟨[], world⟩

/-- A call of a function, with the registrations it makes. -/
def call (f : φ) (st : AtExit φ σ) : AtExit φ σ :=
  let (fns, world) := p.body f st.world
  fns.foldl (fun st fn => atexit fn st) { st with world := world }

/-- `run_list` from `addr` on, with `n` addresses to the end: the functions it calls. -/
def runList (slot : Nat → AtExit φ σ → φ) (addr : Nat) :
    Nat → AtExit φ σ → List φ × AtExit φ σ
  | 0, st => ([], st)
  | n + 1, st =>
    let f := slot addr st
    let (fs, st) := runList slot (addr + 1) n (call p f st)
    (f :: fs, st)

/-- The places of the list as it began the walk: a registration moves it. -/
def slot (n addr : Nat) (st : AtExit φ σ) : φ :=
  if st.list.length = n then st.list.getD addr (p.freed n addr) else p.freed st.list.length addr

/-- The places from `__dtors_begin` on. -/
def dtorSlot (addr : Nat) (_ : AtExit φ σ) : φ := p.dtors.getD addr (p.freed 0 addr)

def doGlobalDtorsAux (st : AtExit φ σ) : List φ × AtExit φ σ :=
  runList p (dtorSlot p) 0 p.dtors.length st

def atexitRun (st : AtExit φ σ) : List φ × AtExit φ σ :=
  let (fs, st) := runList p (slot p st.list.length) 0 st.list.length st
  let (ds, st) := doGlobalDtorsAux p st
  (fs ++ ds, st)

/-- The calls of handlers at exit: always the last registered one that has not run. -/
inductive Exits : List φ → σ → List φ → σ → Prop
  | done : Exits [] w [] w
  | call : Exits ((p.body f w).1.reverse ++ pending) (p.body f w).2 fs w' →
      Exits (f :: pending) w (f :: fs) w'

/-- The handlers run in reverse order, each once for each registration, and then the destructors. -/
def Reversed (st : AtExit φ σ) (out : List φ × AtExit φ σ) : Prop :=
  ∃ fs w, Exits p st.list.reverse st.world fs w ∧ out.1 = fs ++ p.dtors ∧
    out.2.list.length = fs.length

/-- None of the functions, called one after the other, registers a handler. -/
def Quiet : List φ → σ → Prop
  | [], _ => True
  | f :: fs, w => (p.body f w).1 = [] ∧ Quiet fs (p.body f w).2

theorem foldl_atexit (fns : List φ) (st : AtExit φ σ) :
    fns.foldl (fun st fn => atexit fn st) st = ⟨st.list ++ fns, st.world⟩ := by
  induction fns generalizing st with
  | nil => rw [List.foldl_nil, List.append_nil]
  | cons fn fns ih => rw [List.foldl_cons, ih, atexit, List.append_assoc, List.singleton_append]

theorem registered_eq (fns : List φ) (world : σ) :
    registered fns world = ⟨fns, world⟩ := foldl_atexit fns ⟨[], world⟩

theorem call_eq (f : φ) (st : AtExit φ σ) :
    call p f st = ⟨st.list ++ (p.body f st.world).1, (p.body f st.world).2⟩ :=
  foldl_atexit (p.body f st.world).1 ⟨st.list, (p.body f st.world).2⟩

theorem quiet_append (fs gs : List φ) (w : σ) :
    Quiet p (fs ++ gs) w ↔
      Quiet p fs w ∧ Quiet p gs (fs.foldl (fun w f => (p.body f w).2) w) := by
  induction fs generalizing w with
  | nil => exact ⟨fun h => ⟨trivial, h⟩, And.right⟩
  | cons f fs ih =>
    rw [List.cons_append, Quiet, Quiet, ih, and_assoc]
    rfl

section

variable {p}

theorem runList_length (slot : Nat → AtExit φ σ → φ) (addr n : Nat) (st : AtExit φ σ) :
    (runList p slot addr n st).1.length = n := by
  induction n generalizing addr st with
  | zero => rfl
  | succ n ih => exact congrArg (· + 1) (ih (addr + 1) (call p (slot addr st) st))

/-- A walk leaves the registered handlers as they are and adds to them. -/
theorem runList_list (slot : Nat → AtExit φ σ → φ) (addr n : Nat) (st : AtExit φ σ) :
    st.list <+: (runList p slot addr n st).2.list := by
  induction n generalizing addr st with
  | zero => exact List.prefix_rfl
  | succ n ih =>
    refine List.IsPrefix.trans ?_ (ih (addr + 1) (call p (slot addr st) st))
    rw [call_eq]
    exact List.prefix_append ..

/-- A walk over places that hold `fs` calls them in this order, while they are quiet. -/
theorem runList_quiet {slot : Nat → AtExit φ σ → φ} {fs list : List φ} {w : σ}
    (hs : ∀ i (hi : i < fs.length) w, slot (addr + i) ⟨list, w⟩ = fs.get ⟨i, hi⟩)
    (hq : Quiet p fs w) :
    runList p slot addr fs.length ⟨list, w⟩ =
      (fs, ⟨list, fs.foldl (fun w f => (p.body f w).2) w⟩) := by
  induction fs generalizing addr w with
  | nil => rfl
  | cons f fs ih =>
    have hf : slot addr ⟨list, w⟩ = f := hs 0 (Nat.zero_lt_succ _) w
    have hrest := ih (w := (p.body f w).2) (fun i hi w => by
      rw [Nat.add_assoc, Nat.add_comm 1 i]
      exact hs (i + 1) (Nat.succ_lt_succ hi) w) hq.2
    rw [List.length_cons, runList, hf, call_eq, hq.1, List.append_nil, hrest]
    rfl

/-- Where a walk over places that hold `fs` registers nothing, they are quiet. -/
theorem quiet_of_length {slot : Nat → AtExit φ σ → φ} {fs list : List φ} {w : σ}
    (hs : ∀ i (hi : i < fs.length) w, slot (addr + i) ⟨list, w⟩ = fs.get ⟨i, hi⟩)
    (hn : (runList p slot addr fs.length ⟨list, w⟩).2.list.length = list.length) :
    Quiet p fs w := by
  induction fs generalizing addr w with
  | nil => trivial
  | cons f fs ih =>
    have hf : slot addr ⟨list, w⟩ = f := hs 0 (Nat.zero_lt_succ _) w
    rw [List.length_cons, runList, hf, call_eq] at hn
    have hle := (runList_list (p := p) slot (addr + 1) fs.length
      ⟨list ++ (p.body f w).1, (p.body f w).2⟩).length_le
    rw [List.length_append] at hle
    have hnone : (p.body f w).1 = [] := by
      apply List.eq_nil_of_length_eq_zero
      dsimp only at hn hle
      omega
    have hs' (i : Nat) (hi : i < fs.length) (w : σ) :
        slot (addr + 1 + i) ⟨list, w⟩ = fs.get ⟨i, hi⟩ := by
      rw [Nat.add_assoc, Nat.add_comm 1 i]
      exact hs (i + 1) (Nat.succ_lt_succ hi) w
    rw [hnone, List.append_nil] at hn
    exact ⟨hnone, ih hs' hn⟩

theorem Exits.eq_of_quiet (h : Exits p pending w fs w') (hq : Quiet p fs w) : fs = pending := by
  induction h with
  | done => rfl
  | call h ih =>
    rw [hq.1] at ih
    rw [ih hq.2]
    rfl

theorem exits_of_quiet {fs : List φ} {w : σ} (hq : Quiet p fs w) :
    Exits p fs w fs (fs.foldl (fun w f => (p.body f w).2) w) := by
  induction fs generalizing w with
  | nil => exact .done
  | cons f fs ih =>
    refine .call ?_
    rw [hq.1]
    exact ih hq.2

theorem slot_registered (list : List φ) (i : Nat) (hi : i < list.length) (w : σ) :
    slot p list.length (0 + i) ⟨list, w⟩ = list.get ⟨i, hi⟩ := by
  rw [slot, if_pos rfl, Nat.zero_add, List.getD_eq_getElem _ _ hi]
  rfl

theorem slot_dtors (list : List φ) (i : Nat) (hi : i < p.dtors.length) (w : σ) :
    dtorSlot p (0 + i) ⟨list, w⟩ = p.dtors.get ⟨i, hi⟩ := by
  rw [dtorSlot, Nat.zero_add, List.getD_eq_getElem _ _ hi]
  rfl

/-- Quiet handlers and destructors run in the order of their lists. -/
theorem atexitRun_quiet {fns : List φ} {w : σ} (hq : Quiet p (fns ++ p.dtors) w) :
    atexitRun p ⟨fns, w⟩ =
      (fns ++ p.dtors, ⟨fns, (fns ++ p.dtors).foldl (fun w f => (p.body f w).2) w⟩) := by
  obtain ⟨hf, hd⟩ := (quiet_append p fns p.dtors w).mp hq
  have h₁ := runList_quiet (slot_registered (p := p) fns) hf
  have h₂ := runList_quiet (slot_dtors (p := p) fns) hd
  simp only [atexitRun, doGlobalDtorsAux, h₁, h₂, List.foldl_append]

/-- Where no handler is there at the end that was not there before, all were quiet. -/
theorem quiet_of_atexitRun {fns : List φ} {w : σ}
    (hn : (atexitRun p ⟨fns, w⟩).2.list.length = fns.length) : Quiet p (fns ++ p.dtors) w := by
  have hle₁ := (runList_list (p := p) (slot p fns.length) 0 fns.length ⟨fns, w⟩).length_le
  have hle₂ := (runList_list (p := p) (dtorSlot p) 0 p.dtors.length
    (runList p (slot p fns.length) 0 fns.length ⟨fns, w⟩).2).length_le
  simp only [atexitRun, doGlobalDtorsAux] at hn
  dsimp only at hle₁
  have hf : Quiet p fns w := quiet_of_length (slot_registered (p := p) fns) (by omega)
  refine (quiet_append p fns p.dtors w).mpr ⟨hf, quiet_of_length (slot_dtors fns) ?_⟩
  rw [runList_quiet (slot_registered fns) hf] at hn
  exact hn

end

/-- At exit the handlers run in reverse order just where the list of them is the same both ways and
nothing that is called registers another. -/
theorem atexit_reversed_iff (fns : List φ) (w : σ) :
    Reversed p (registered fns w) (atexitRun p (registered fns w)) ↔
      fns.reverse = fns ∧ Quiet p (fns ++ p.dtors) w := by
  rw [registered_eq]
  constructor
  · rintro ⟨fs, w', he, hout, hn⟩
    have hlen : (atexitRun p ⟨fns, w⟩).1.length = fns.length + p.dtors.length := by
      simp only [atexitRun, doGlobalDtorsAux]
      rw [List.length_append, runList_length, runList_length]
    rw [hout, List.length_append, Nat.add_right_cancel_iff] at hlen
    have hq := quiet_of_atexitRun (hn.trans hlen)
    rw [atexitRun_quiet hq] at hout
    cases List.append_cancel_right hout
    exact ⟨(he.eq_of_quiet ((quiet_append p fns p.dtors w).mp hq).1).symm, hq⟩
  · rintro ⟨hr, hq⟩
    rw [atexitRun_quiet hq]
    refine ⟨fns, fns.foldl (fun w f => (p.body f w).2) w, ?_, rfl, rfl⟩
    dsimp only
    rw [hr]
    exact exits_of_quiet ((quiet_append p fns p.dtors w).mp hq).1

/-- Two handlers that register nothing run in the order of registration. -/
theorem atexit_two_forward :
    let p : ExitProgram Nat Unit := ⟨fun _ w => ([], w), [9], fun _ _ => 0⟩
    (atexitRun p (registered [1, 2] ())).1 = [1, 2, 9] ∧
      ¬ Reversed p (registered [1, 2] ()) (atexitRun p (registered [1, 2] ())) := by
  refine ⟨rfl, ?_⟩
  rintro ⟨fs, w, he, hout, -⟩
  have hq (fs : List Nat) : Quiet ⟨fun _ w => ([], w), [9], fun _ _ => 0⟩ fs () := by
    induction fs with
    | nil => trivial
    | cons f fs ih => exact ⟨rfl, ih⟩
  cases he.eq_of_quiet (hq fs)
  cases hout

end AtExit

end Cibyl
