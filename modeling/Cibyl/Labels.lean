import Cibyl.DelaySlot
import Cibyl.Handlers
import Cibyl.Layout
import Cibyl.RegisterUse
import Cibyl.Thread

namespace Cibyl
set_option autoImplicit true

open Jvm (Item Op Label CatchEntry)
open Emit (op intOp pushconst pushconst_u pushconst_l pushaddress pushindex)

/-- What a line does with labels. -/
inductive Mark where
  | defines (l : Label)
  | names (l : Label)
  | protects (e : CatchEntry)
  deriving DecidableEq, Repr

namespace Mark

def defines? : Mark → Option Label
  | defines l => some l
  | _ => none

def entry? : Mark → Option CatchEntry
  | protects e => some e
  | _ => none

def labels : Mark → List Label
  | defines _ => []
  | names l => [l]
  | protects e => [e.start, e.stop, e.handler]

def defined (ms : List Mark) : List Label := ms.filterMap defines?

def named (ms : List Mark) : List Label := ms.flatMap labels

def entries (ms : List Mark) : List CatchEntry := ms.filterMap entry?

@[simp] theorem defined_nil : defined [] = [] := rfl

@[simp] theorem defined_defines (l : Label) (ms : List Mark) :
    defined (defines l :: ms) = l :: defined ms := rfl

@[simp] theorem defined_names (l : Label) (ms : List Mark) :
    defined (names l :: ms) = defined ms := rfl

@[simp] theorem defined_protects (e : CatchEntry) (ms : List Mark) :
    defined (protects e :: ms) = defined ms := rfl

@[simp] theorem defined_append (ms ns : List Mark) :
    defined (ms ++ ns) = defined ms ++ defined ns := List.filterMap_append

@[simp] theorem defined_map_names (ls : List Label) : defined (ls.map names) = [] := by
  rw [defined, List.filterMap_map]
  exact List.filterMap_eq_nil_iff.mpr fun _ _ => rfl

@[simp] theorem defined_map_protects (es : List CatchEntry) : defined (es.map protects) = [] := by
  rw [defined, List.filterMap_map]
  exact List.filterMap_eq_nil_iff.mpr fun _ _ => rfl

theorem defined_flatMap (xs : List α) (f : α → List Mark) :
    defined (xs.flatMap f) = xs.flatMap (fun x => defined (f x)) := List.filterMap_flatMap

@[simp] theorem named_nil : named [] = [] := rfl

@[simp] theorem named_defines (l : Label) (ms : List Mark) :
    named (defines l :: ms) = named ms := rfl

@[simp] theorem named_names (l : Label) (ms : List Mark) :
    named (names l :: ms) = l :: named ms := rfl

@[simp] theorem named_protects (e : CatchEntry) (ms : List Mark) :
    named (protects e :: ms) = e.start :: e.stop :: e.handler :: named ms := rfl

@[simp] theorem named_append (ms ns : List Mark) :
    named (ms ++ ns) = named ms ++ named ns := List.flatMap_append

@[simp] theorem named_map_names (ls : List Label) : named (ls.map names) = ls := by
  rw [named, List.flatMap_map]
  exact List.flatMap_singleton' ls

theorem named_flatMap (xs : List α) (f : α → List Mark) :
    named (xs.flatMap f) = xs.flatMap (fun x => named (f x)) := List.flatMap_assoc

theorem mem_named_protects {es : List CatchEntry} : l ∈ named (es.map protects) ↔
    ∃ e ∈ es, l = e.start ∨ l = e.stop ∨ l = e.handler := by
  rw [named, List.flatMap_map, List.mem_flatMap]
  simp only [labels, List.mem_cons, List.not_mem_nil, or_false]

@[simp] theorem entries_nil : entries [] = [] := rfl

@[simp] theorem entries_defines (l : Label) (ms : List Mark) :
    entries (defines l :: ms) = entries ms := rfl

@[simp] theorem entries_names (l : Label) (ms : List Mark) :
    entries (names l :: ms) = entries ms := rfl

@[simp] theorem entries_protects (e : CatchEntry) (ms : List Mark) :
    entries (protects e :: ms) = e :: entries ms := rfl

@[simp] theorem entries_append (ms ns : List Mark) :
    entries (ms ++ ns) = entries ms ++ entries ns := List.filterMap_append

@[simp] theorem entries_map_names (ls : List Label) : entries (ls.map names) = [] := by
  rw [entries, List.filterMap_map]
  exact List.filterMap_eq_nil_iff.mpr fun _ _ => rfl

@[simp] theorem entries_map_protects (es : List CatchEntry) : entries (es.map protects) = es := by
  rw [entries, List.filterMap_map]
  exact List.filterMap_some

theorem entries_flatMap (xs : List α) (f : α → List Mark) :
    entries (xs.flatMap f) = xs.flatMap (fun x => entries (f x)) := List.filterMap_flatMap

end Mark

namespace Bc

def marks : Bc → List Mark
  | .item (.label l) => [.defines l]
  | .item (.goto l) | .item (.cond1 _ l) | .item (.cond2 _ l) | .item (.jsr l) => [.names l]
  | .item (.tableswitch ls d) => (ls ++ [d]).map .names
  | .item (.lookupswitch cs d) => (cs.map Prod.snd ++ [d]).map .names
  | .item (.catch_ exception start stop h) => [.protects ⟨exception, start, stop, h⟩]
  | _ => []

/-- The marks of lines, in their order. -/
def allMarks (bs : List Bc) : List Mark := bs.flatMap marks

@[simp] theorem allMarks_nil : allMarks [] = [] := rfl

@[simp] theorem allMarks_cons (b : Bc) (bs : List Bc) :
    allMarks (b :: bs) = b.marks ++ allMarks bs := List.flatMap_cons

@[simp] theorem allMarks_append (bs cs : List Bc) :
    allMarks (bs ++ cs) = allMarks bs ++ allMarks cs := List.flatMap_append

@[simp] theorem marks_label (l : Label) : marks (.item (.label l)) = [.defines l] := rfl

@[simp] theorem marks_goto (l : Label) : marks (.item (.goto l)) = [.names l] := rfl

@[simp] theorem marks_jsr (l : Label) : marks (.item (.jsr l)) = [.names l] := rfl

@[simp] theorem marks_cond1 (bc : Jvm.Cond1) (l : Label) :
    marks (.item (.cond1 bc l)) = [.names l] := rfl

@[simp] theorem marks_cond2 (bc : Jvm.Cond2) (l : Label) :
    marks (.item (.cond2 bc l)) = [.names l] := rfl

@[simp] theorem marks_catch (c : String) (start stop h : Label) :
    marks (.item (.catch_ c start stop h)) = [.protects ⟨c, start, stop, h⟩] := rfl

@[simp] theorem marks_tableswitch (ls : List Label) (d : Label) :
    marks (.item (.tableswitch ls d)) = (ls ++ [d]).map .names := rfl

@[simp] theorem marks_lookupswitch (cs : List (Word × Label)) (d : Label) :
    marks (.item (.lookupswitch cs d)) = (cs.map Prod.snd ++ [d]).map .names := rfl

@[simp] theorem marks_athrow : marks (.item .athrow) = [] := rfl

@[simp] theorem marks_abort : marks (.item .abort) = [] := rfl

@[simp] theorem marks_return : marks (.item .return_) = [] := rfl

@[simp] theorem marks_ireturn : marks (.item .ireturn) = [] := rfl

@[simp] theorem marks_lreturn : marks (.item .lreturn) = [] := rfl

@[simp] theorem marks_astore (r : Reg) : marks (.astore r) = [] := rfl

@[simp] theorem marks_ret (r : Reg) : marks (.ret r) = [] := rfl

@[simp] theorem marks_iinc (r : Reg) (extra : Int) : marks (.iinc r extra) = [] := rfl

@[simp] theorem marks_pushregister (r : Reg) : marks (.pushregister r) = [] := rfl

@[simp] theorem marks_popregister (r : Reg) : marks (.popregister r) = [] := rfl

@[simp] theorem marks_op (o : Op) : marks (op o) = [] := rfl

@[simp] theorem marks_intOp (o : Jvm.IntOp) : marks (intOp o) = [] := rfl

@[simp] theorem marks_pushconst (v : Word) : marks (pushconst v) = [] := by
  rw [pushconst]
  repeat' split
  all_goals rfl

@[simp] theorem marks_pushconst_u (v : Word) : marks (pushconst_u v) = [] := by
  rw [pushconst_u]
  repeat' split
  all_goals rfl

@[simp] theorem marks_pushconst_l (v : DWord) : marks (pushconst_l v) = [] := rfl

@[simp] theorem allMarks_pushaddress (r : Reg) (extra : Word) :
    allMarks (pushaddress r extra) = [] := by
  rw [pushaddress]
  split <;> simp

@[simp] theorem allMarks_pushindex (r : Reg) (extra : Word) :
    allMarks (pushindex r extra) = [] := by
  rw [pushindex]
  repeat' split
  all_goals simp

theorem allMarks_flatMap (xs : List α) (f : α → List Bc) :
    allMarks (xs.flatMap f) = xs.flatMap (fun x => allMarks (f x)) := List.flatMap_assoc

end Bc

open Bc (allMarks)

namespace Emission

/-- The lines of the emission have the marks, in any state. -/
def Marks (e : Emission) (ms : List Mark) : Prop := ∀ st, allMarks (e st).1 = ms

theorem marks_nothing : nothing.Marks [] := fun _ => rfl

theorem marks_lines (bs : List Bc) : (lines bs).Marks (allMarks bs) := fun _ => rfl

theorem Marks.seq {e f : Emission} (he : e.Marks ms) (hf : f.Marks ns) :
    (e.seq f).Marks (ms ++ ns) := by
  intro st
  rw [seq_lines, Bc.allMarks_append, he, hf]

theorem marks_all {es : List α} {f : α → Emission} {g : α → List Mark}
    (h : ∀ x ∈ es, (f x).Marks (g x)) : (all (es.map f)).Marks (es.flatMap g) := by
  induction es with
  | nil => exact marks_nothing
  | cons x es ih =>
    rw [List.flatMap_cons]
    exact (h x (List.mem_cons_self ..)).seq (ih fun y hy => h y (List.mem_cons_of_mem _ hy))

end Emission

namespace Instruction

/-- The whole method is protected. -/
def setjmpEntry (start stop : Word) : CatchEntry :=
  ⟨"SetjmpException", .javamethodBegin, .exceptionHandlers, .handler start stop⟩

/-- The range of a catch begins at its try. -/
def catchEntries (env : Env) (insn : Instruction) : List CatchEntry :=
  let start := env.tryInstruction insn.address
  (env.exceptionClasses insn.extra).map
    (fun cl => ⟨cl, .addr start, .addr insn.address, .handler start insn.address⟩)

/-- The marks of the call in a `jal`. -/
def callMarks (env : Env) (insn : Instruction) : List Mark :=
  if insn.builtin env = some .setjmp then
    [.protects (setjmpEntry (insn.methodRange env).1 (insn.methodRange env).2),
      .defines (.addr insn.address)]
  else if insn.staysInMethod env then [.names (.addr (insn.extra <<< 2))] else []

def loadMarks (env : Env) (bc : Jvm.ReadWhat) (insn : Instruction) : List Mark :=
  if env.config.optimizePartialMemoryOps ∧ insn.opcode ≠ .lwl ∧ insn.opcode ≠ .lwr then
    [.names (.memoryRead bc)]
  else []

/-- The marks of an instruction, those of its delay slot left out. -/
def marks (env : Env) (insn : Instruction) : List Mark :=
  match insn.kind with
  | .jump =>
    if env.getBranchTarget (insn.extra <<< 2) then [.names (.addr (insn.extra <<< 2))] else []
  | .jal | .jalr => insn.callMarks env
  | .jalReturn => insn.callMarks env ++ [.names .functionReturn]
  | .jr => if insn.rs = Reg.ra then [.names .functionReturn] else [.names .localJumptab]
  | .oneRegisterConditionalJump _ | .twoRegisterConditionalJump _ => [.names (.addr insn.dst)]
  | .loadXX bc => insn.loadMarks env bc
  | .partialLoad w isSigned =>
    if !insn.inlinesPartial env then insn.loadMarks env (w.readWhat isSigned) else []
  | .catchInsn => (insn.catchEntries env).map .protects ++ [.defines (.addr insn.address)]
  | _ => []

theorem splitLong_marks (high low : Reg) : allMarks (splitLong high low) = [] := by
  simp [splitLong]

theorem passRegister_marks (idx : Option Nat) (reg : Reg) : (passRegister idx reg).marks = [] := by
  rw [passRegister.eq_def]
  split
  · cases idx with
    | none => rfl
    | some i => exact Bc.marks_pushconst _
  · rfl

theorem popReturnValue_marks (env : Env) (p : MethodPass1) :
    allMarks (popReturnValue env p) = [] := by
  rw [popReturnValue]
  repeat' split
  all_goals simp [splitLong_marks]

theorem callCode_marks (env : Env) (insn : Instruction) : allMarks (insn.callCode env) = [] := by
  have hmap (idx : Option Nat) (rs : List Reg) : allMarks (rs.map (passRegister idx)) = [] := by
    rw [allMarks, List.flatMap_map]
    exact List.flatMap_eq_nil_iff.mpr (fun r _ => passRegister_marks idx r)
  rw [callCode]
  split
  · simp [hmap, popReturnValue_marks, invokeCallTable, invokestatic]
  · split
    · rfl
    · simp [hmap, popReturnValue_marks, invokestatic, passCode]

theorem builtin_marks (b : Builtin) (start stop target : Word) :
    allMarks (b.code start stop target) = if b = .setjmp then
      [.protects (setjmpEntry start stop), .defines (.addr target)] else [] := by
  cases b <;> simp [Builtin.code, setjmpEntry, splitLong_marks, Builtin.push64BitFrom32BitRegs,
    Builtin.intBitsToFloat, Builtin.floatToIntBits]

theorem jalCode_marks (env : Env) {insn : Instruction} (hk : insn.isCall = true) :
    Emission.Marks (insn.jalCode env) (insn.callMarks env) := by
  intro st
  rw [jalCode, callMarks, staysInMethod, hk, Bool.true_and]
  cases hb : insn.builtin env with
  | some b =>
    rw [Option.some_beq_none, Bool.false_and, Bool.false_and, if_neg Bool.false_ne_true]
    simp only [Option.some.injEq]
    exact builtin_marks b _ _ _
  | none =>
    rw [if_neg (Option.some_ne_none Builtin.setjmp).symm]
    dsimp only
    by_cases h : insn.opcode = .jal ∧ insn.callsOwnMethod env = true
    · rw [if_pos h, if_pos (by simp [h])]
      simp
    · rw [if_neg h, if_neg (by simpa using h)]
      exact callCode_marks env insn

theorem loadXXCode_marks (env : Env) (bc : Jvm.ReadWhat) (insn : Instruction) :
    allMarks (insn.loadXXCode env bc) = insn.loadMarks env bc := by
  rw [loadXXCode, loadMarks]
  split <;> simp

theorem storeXXCode_marks (env : Env) (bc : Jvm.WriteWhat) (insn : Instruction) :
    allMarks (insn.storeXXCode env bc) = [] := by
  rw [storeXXCode]
  split <;> simp [traceStore]

theorem catchCode_marks (env : Env) (insn : Instruction) : allMarks (insn.catchCode env) =
    (insn.catchEntries env).map .protects ++ [.defines (.addr insn.address)] := by
  rw [catchCode, Bc.allMarks_append, allMarks, List.flatMap_map, catchEntries, List.map_map,
    List.map_eq_flatMap]
  rfl

theorem pushLaneShift_marks (w : WordSize) (insn : Instruction) :
    allMarks (insn.pushLaneShift w) = [] := by
  simp [pushLaneShift]

theorem extendCode_marks (w : WordSize) (isSigned : Bool) :
    allMarks (extendCode w isSigned) = [] := by
  cases w <;> cases isSigned <;> simp [extendCode]

/-- The marks of an instruction that is no branch are those of its code. -/
theorem code_marks (env : Env) (insn : Instruction) (hb : insn.isBranch = false) :
    allMarks (insn.code env) = insn.marks env := by
  obtain ⟨kind, address, opcode, rs, rt, rd, extra⟩ := insn
  cases kind <;> simp only [isBranch, Kind.isBranch, reduceCtorEq] at hb <;>
    simp only [code, marks]
  case rfmt bc => simp [rfmtCode]
  case addu =>
    rw [adduCode]
    repeat' split
    all_goals simp [rfmtCode]
  case subu =>
    rw [subuCode]
    split <;> simp [rfmtCode]
  case nor =>
    rw [norCode]
    repeat' split
    all_goals simp
  case shiftInstruction bc =>
    rw [shiftCode]
    split <;> simp
  case shiftInstructionV bc => simp [shiftVCode]
  case ifmt bc => simp [ifmtCode]
  case addi =>
    rw [addiCode]
    repeat' split
    all_goals simp [ifmtCode]
  case lui => simp [luiCode]
  case mulDiv bc => simp [mulDivCode, splitLong_marks]
  case mult =>
    rw [multCode]
    split <;> simp [splitLong_marks]
  case div =>
    rw [divCode]
    split <;> simp
  case mfxx => simp [mfxxCode]
  case mtxx dst => simp [mtxxCode]
  case slt => simp [sltCode, lessCode]
  case sltu => simp [sltuCode, pushUnsigned, lessCode]
  case slti => simp [sltiCode, lessCode]
  case sltiu => simp [sltiuCode, pushUnsigned, lessCode]
  case loadXX bc => exact loadXXCode_marks ..
  case lw =>
    rw [lwCode]
    split <;> simp
  case partialLoad w isSigned =>
    rw [partialLoadCode]
    split
    · exact loadXXCode_marks ..
    · split <;> simp [pushLaneShift_marks, extendCode_marks]
  case storeXX bc => exact storeXXCode_marks ..
  case sw =>
    rw [swCode]
    repeat' split
    all_goals simp [traceStore]
  case partialStore w =>
    rw [partialStoreCode]
    repeat' split
    all_goals simp [storeXXCode_marks, pushLaneShift_marks]
  case syscallInsn =>
    rw [syscallCode]
    split <;> simp
  case syscallRegisterArgument => simp
  case catchInsn => exact catchCode_marks ..
  all_goals rfl

theorem pass2_marks {delayed : Emission} (hd : delayed.Marks ds) (env : Env)
    (insn : Instruction) : (insn.pass2 env delayed).Marks
      ((if insn.isBranch then ds else []) ++ insn.marks env) := by
  have hj (hk : insn.isCall = true) := jalCode_marks env hk
  have hl (bs : List Bc) (e : Emission) {ms : List Mark} (hb : allMarks bs = [])
      (he : e.Marks ms) : ((Emission.lines bs).seq e).Marks ms := by
    rw [← List.nil_append ms, ← hb]
    exact (Emission.marks_lines bs).seq he
  cases hk : insn.kind with
  | jump =>
    simp only [isBranch, pass2, marks, hk]
    refine hd.seq ?_
    split
    · exact Emission.marks_lines _
    · exact Emission.marks_nothing
  | jal =>
    simp only [isBranch, pass2, marks, hk]
    exact hd.seq (hj (by rw [isCall, hk]))
  | jalr =>
    simp only [isBranch, pass2, marks, hk]
    exact hl _ _ (by simp) (hd.seq (hj (by rw [isCall, hk])))
  | jalReturn =>
    simp only [isBranch, pass2, marks, hk]
    exact hd.seq ((hj (by rw [isCall, hk])).seq (Emission.marks_lines _))
  | jr =>
    simp only [isBranch, pass2, marks, hk]
    split
    · exact hd.seq (Emission.marks_lines _)
    · exact hl _ _ (by simp) (hd.seq (Emission.marks_lines _))
  | oneRegisterConditionalJump bc | twoRegisterConditionalJump bc =>
    simp only [isBranch, pass2, marks, hk]
    exact hl _ _ (by simp) (hd.seq (Emission.marks_lines _))
  | _ =>
    have hb : insn.isBranch = false := by rw [isBranch, hk]; rfl
    rw [pass2_of_not_branch hb, hb, ← code_marks env insn hb]
    exact Emission.marks_lines _

end Instruction

namespace Entry

/-- The instruction in the delay slot, where it is emitted again. -/
def again (env : Env) (e : Entry) : List Instruction :=
  e.delayed.toList.filter (fun d => env.hasJumptabLabel d.address)

def againMarks (env : Env) (d : Instruction) : List Mark :=
  [.names (.out d.address), .defines (.addr d.address)] ++ d.marks env ++
    [.defines (.out d.address)]

def marks (env : Env) (e : Entry) : List Mark :=
  (if e.hasLabel env then [.defines (.addr e.insn.address)] else []) ++
    e.delayed.toList.flatMap (Instruction.marks env) ++ e.insn.marks env ++
    (e.again env).flatMap (againMarks env)

theorem delayed_marks (env : Env) (d : Instruction) :
    (d.pass2 env .nothing).Marks (d.marks env) := by
  have h := Instruction.pass2_marks Emission.marks_nothing env d
  rw [ite_self, List.nil_append] at h
  exact h

theorem delayedPass2_marks (env : Env) (e : Entry) :
    (e.delayedPass2 env).Marks (e.delayed.toList.flatMap (Instruction.marks env)) := by
  rw [delayedPass2.eq_def]
  cases e.delayed with
  | none => exact Emission.marks_nothing
  | some d =>
    rw [Option.toList_some, List.flatMap_singleton]
    exact delayed_marks env d

theorem againCode_marks (env : Env) (e : Entry) :
    (e.againCode env).Marks ((e.again env).flatMap (againMarks env)) := by
  rw [againCode.eq_def, again]
  cases h : e.delayed with
  | none => exact Emission.marks_nothing
  | some d =>
    have hs : e.insn.hasDelaySlot = true := e.attached (by rw [h]; rfl)
    simp only [hs, Bool.true_and, Option.toList_some]
    cases hj : env.hasJumptabLabel d.address with
    | true =>
      rw [if_pos rfl, List.filter_singleton, hj, cond_true, List.flatMap_singleton, againMarks,
        List.append_assoc]
      exact (Emission.marks_lines _).seq ((delayed_marks env d).seq (Emission.marks_lines _))
    | false =>
      rw [if_neg Bool.false_ne_true, List.filter_singleton, hj]
      exact Emission.marks_nothing

theorem traceCode_marks (env : Env) (e : Entry) : allMarks (e.traceCode env) = [] := by
  have hr (reg : Reg) : (traceRegister reg).marks = [] := by
    rw [traceRegister]
    split <;> simp
  have hi (insn : Instruction) : allMarks (traceRegisterValues insn) = [] := by
    simp [traceRegisterValues, hr]
  rw [traceCode]
  split
  · simp [Bc.allMarks_flatMap, hi]
  · rfl

theorem pass2_marks (env : Env) (e : Entry) : (e.pass2 env).Marks (e.marks env) := by
  have hi := Instruction.pass2_marks (e.delayedPass2_marks env) env e.insn
  have hb : (if e.insn.isBranch then e.delayed.toList.flatMap (Instruction.marks env) else []) =
      e.delayed.toList.flatMap (Instruction.marks env) := by
    split
    · rfl
    · next h =>
      cases hd : e.delayed with
      | none => rfl
      | some d => exact absurd (e.attached (by rw [hd]; rfl)) h
  have hl : allMarks ((if e.hasLabel env then [.item (.label (.addr e.insn.address))] else []) ++
      e.traceCode env) = if e.hasLabel env then [.defines (.addr e.insn.address)] else [] := by
    rw [Bc.allMarks_append, traceCode_marks, List.append_nil]
    split <;> simp
  rw [hb] at hi
  have h := (Emission.marks_lines ((if e.hasLabel env then
    [.item (.label (.addr e.insn.address))] else []) ++ e.traceCode env)).seq
    (hi.seq (e.againCode_marks env))
  rw [hl] at h
  rw [marks, List.append_assoc, List.append_assoc, ← List.append_assoc (List.flatMap ..)]
  exact h

end Entry

theorem JavaMethod.functionCode_marks (env : Env) (m : JavaMethod) (fn : Function) :
    (m.functionCode env fn).Marks
      ((if m.hasMultipleFunctions then [.defines (.addr fn.address)] else []) ++
        (fn.pass1 env).flatMap (Entry.marks env)) := by
  have hl : allMarks (if m.hasMultipleFunctions then [.item (.label (.addr fn.address))] else []) =
      if m.hasMultipleFunctions then [.defines (.addr fn.address)] else [] := by
    split <;> simp
  rw [← hl]
  exact (Emission.marks_lines _).seq (Emission.marks_all fun e _ => e.pass2_marks env)

end Cibyl
