import Cibyl.LabelsOnce
import Cibyl.PeepholeRuns

namespace Cibyl
set_option autoImplicit true

open Jvm (Item Op Value Frame Runtime Live FrameRel OutcomeRel Rewrite SameRuns exec setLocal)

namespace Jvm

/-- Two stores leave nothing of what their locals held before. -/
theorem stores_rel {R : List Item → List Item → Prop} {D : Nat → Prop} {rt : Runtime σ}
    {f f' : Frame σ} (hrt : rt.NoReturnAddresses) {o₁ o₂ : Op} (h₁ : o₁.Stores n₁)
    (h₂ : o₂.Stores n₂) (hD : ∀ n, n ≠ n₁ → n ≠ n₂ → D n)
    (hf : FrameRel R (fun n => Live body n (.op o₁ :: .op o₂ :: c) ∧ D n) f f') :
    OutcomeRel R (fun n => Live body n c) (exec rt [.op o₁, .op o₂] f)
      (exec rt [.op o₁, .op o₂] f') := by
  refine (Op.exec_rel hrt hf fun n hn => ?_).bind fun g g' hg => ?_
  · rw [h₁.reads] at hn
    cases hn
  refine (Op.exec_rel hrt hg fun n hn => ?_).bind fun k k' hk =>
    .ok ⟨hk.stack, fun n hn => ?_, hk.world⟩
  · rw [h₂.reads] at hn
    cases hn
  refine hk.locals n ?_
  rw [h₁.writes, h₂.writes]
  by_cases e₂ : n = n₂
  · exact .inr (congrArg some e₂.symm)
  by_cases e₁ : n = n₁
  · exact .inl (.inr (congrArg some e₁.symm))
  refine .inl (.inl ⟨?_, hD n e₁ e₂⟩)
  refine .step ?_ (.next rfl _) (.step ?_ (.next rfl _) hn)
  · rw [Item.writes, h₁.writes]
    exact fun h => e₁ (Option.some.inj h).symm
  · rw [Item.writes, h₂.writes]
    exact fun h => e₂ (Option.some.inj h).symm

/-- The first result is read nowhere before the second is stored in its place. -/
theorem result_dropped {R : List Item → List Item → Prop} {rt : Runtime σ} {f f' : Frame σ}
    (hrt : rt.NoReturnAddresses) {o₁ o₂ o₃ o₄ : Op} (h₁ : o₁.Stores n₁) (h₂ : o₂.Stores n₂)
    (h₃ : o₃.Stores n₃) (h₄ : o₄.Stores n₄) {w : List Item} (hw : ∀ i ∈ w, i.isOp = true)
    (hr : ∀ i ∈ w, ∀ n ∈ i.reads, n ≠ n₁ ∧ n ≠ n₂)
    (hc : ∀ n, n ≠ n₃ → n ≠ n₄ → n ≠ n₁ ∧ n ≠ n₂)
    (hf : FrameRel R (fun n => Live body n
      (.op .getSavedV1 :: .op o₁ :: .op o₂ :: (w ++ (.op o₃ :: .op o₄ :: c)))) f f') :
    OutcomeRel R (fun n => Live body n c)
      (exec rt (.op .getSavedV1 :: .op o₁ :: .op o₂ :: (w ++ [.op o₃, .op o₄])) f)
      (exec rt (.op .pop :: (w ++ [.op o₃, .op o₄])) f') := by
  obtain ⟨s, l, m⟩ := f
  obtain ⟨s', l', m'⟩ := f'
  obtain rfl : m = m' := hf.world
  have hs : StackRel R s s' := hf.stack
  have hl : ∀ n, Live body n _ → ValRel R (l n) (l' n) := hf.locals
  rw [exec_op, exec_op]
  change OutcomeRel R _ ((o₁.exec rt ⟨.int m.savedV1 :: s, l, m⟩).bind _) _
  rcases h₁.exec_cases rt ⟨.int m.savedV1 :: s, l, m⟩ with h | ⟨v, t, hv, -, h⟩
  · rw [h]
    exact .stuck _
  cases hv
  rw [h, Outcome.bind_ok, exec_op]
  rcases h₂.exec_cases rt ⟨s, setLocal l n₁ (.int m.savedV1), m⟩ with h | ⟨v, t, hv, ht, h⟩
  · dsimp only
    rw [h]
    exact .stuck _
  dsimp only at hv h ⊢
  subst hv
  obtain _ | @⟨_, v', _, t', hx, hs⟩ := hs
  rw [h, Outcome.bind_ok, Op.exec, if_pos (hx.slots.trans ht), Outcome.bind_ok, exec_append,
    exec_append]
  have hfr : FrameRel R (fun n => Live body n (w ++ (.op o₃ :: .op o₄ :: c)) ∧ n ≠ n₁ ∧ n ≠ n₂)
      ⟨t, setLocal (setLocal l n₁ (.int m.savedV1)) n₂ v, m⟩ ⟨t', l', m⟩ := by
    refine ⟨hs, fun n hn => ?_, rfl⟩
    dsimp only
    rw [setLocal_ne _ _ hn.2.2, setLocal_ne _ _ hn.2.1]
    refine hl n (.step (fun h => by cases h) (.next rfl _)
      (.step ?_ (.next rfl _) (.step ?_ (.next rfl _) hn.1)))
    · rw [Item.writes, h₁.writes]
      exact fun h => hn.2.1 (Option.some.inj h).symm
    · rw [Item.writes, h₂.writes]
      exact fun h => hn.2.2 (Option.some.inj h).symm
  exact (exec_agree hrt hw hr hfr).bind fun g g' hg => stores_rel hrt h₃ h₄ hc hg

end Jvm

namespace Peephole

/-- An index of a list that counts from its end, as a negative one does. -/
def fromEnd (items : List Piece) (k : Nat) : Option Piece := items.reverse[k - 1]?

def targetAt (p : Option Piece) : Option Place := p.bind Piece.targetLocal

/-- `MatchJalReturn(n, m)`. -/
def jalReturn (n m : Nat) : Template Piece Class where
  classes := [.getstatic, .istore, .istore] ++
    (List.replicate n [.pushInstruction, .popInstruction]).flatten ++
    List.replicate m .pushInstruction ++ [.invokestatic, .getstatic, .istore, .istore]
  accepts _ items :=
    let regs := [targetAt items[1]?, targetAt items[2]?]
    .ok (regs.contains (targetAt (fromEnd items 1)) && regs.contains (targetAt (fromEnd items 2)) &&
      ((items.drop 3).takeWhile (fun p => !p.isInstance .getstatic)).all
        (fun p => p.sourceLocal.isNone || !regs.contains p.sourceLocal))
  execute _ items := .ok (.nop :: .nop :: .pop :: items.drop 3)

/-- The window is left at its end only: its lines are operations, and the method has no handler. The
template has checked all of what is between the stores, and the last ones are to both locals. -/
structure JalReturnStays (pre win post : List Piece) : Prop where
  ops : ∀ i ∈ emit win, i.isOp = true
  handlers : ∀ p ∈ pre ++ (win ++ post), p.isCatch = false
  getstatics : win.count .getstatic = 2
  stores : targetAt (fromEnd (win.filter (fun p => !p.isNop)) 2) ≠
    targetAt (fromEnd (win.filter (fun p => !p.isNop)) 1)

theorem jalReturn_found {test : List Piece} (h : List.Forall₂ (fun c (p : Piece) =>
    p.isInstance c = true) (jalReturn n m).classes test) :
    ∃ p q between call r s, test = .getstatic :: p :: q ::
      (between ++ [.invokestatic call, .getstatic, r, s]) ∧
      p.isInstance .istore = true ∧ q.isInstance .istore = true ∧
      r.isInstance .istore = true ∧ s.isInstance .istore = true := by
  rw [jalReturn, List.append_assoc, List.append_assoc] at h
  obtain ⟨a, bcd, rfl, ha, h⟩ := forall₂_split h
  rw [← List.append_assoc] at h
  obtain ⟨b, c, rfl, -, hc⟩ := forall₂_split h
  obtain _ | ⟨hg, _ | ⟨hp, _ | ⟨hq, ⟨⟩⟩⟩⟩ := ha
  obtain _ | ⟨hi, _ | ⟨hg', _ | ⟨hr, _ | ⟨hs, ⟨⟩⟩⟩⟩⟩ := hc
  obtain ⟨call, rfl⟩ := Piece.eq_invokestatic hi
  rw [Piece.eq_getstatic hg, Piece.eq_getstatic hg']
  exact ⟨_, _, b, call, _, _, rfl, hp, hq, hr, hs⟩

theorem fromEnd_last (xs : List Piece) (p q r s : Piece) :
    fromEnd (.getstatic :: p :: q :: (xs ++ [a, b, r, s])) 1 = some s := by
  simp [fromEnd]

theorem fromEnd_second (xs : List Piece) (p q r s : Piece) :
    fromEnd (.getstatic :: p :: q :: (xs ++ [a, b, r, s])) 2 = some r := by
  simp [fromEnd]

/-- What the template has checked of the window. -/
theorem jalReturn_accepted {p q r s : Piece} {between : List Piece} {call : Op}
    (h : (jalReturn n m).accepts contents (.getstatic :: p :: q ::
      (between ++ [.invokestatic call, .getstatic, r, s])) = .ok true)
    (hg : ∀ x ∈ between, x ≠ .getstatic) :
    (s.targetLocal = p.targetLocal ∨ s.targetLocal = q.targetLocal) ∧
    (r.targetLocal = p.targetLocal ∨ r.targetLocal = q.targetLocal) ∧
    ∀ x ∈ between, x.sourceLocal.isSome = true →
      x.sourceLocal ≠ p.targetLocal ∧ x.sourceLocal ≠ q.targetLocal := by
  have hin : ∀ x ∈ between, (!x.isInstance .getstatic) = true := by
    intro x hx
    rw [Bool.not_eq_true']
    exact Bool.eq_false_iff.mpr fun hi => hg x hx (Piece.eq_getstatic hi)
  have h := Except.ok.inj h
  rw [fromEnd_last, fromEnd_second] at h
  simp only [Bool.and_eq_true, List.contains_iff_mem, List.mem_cons, List.not_mem_nil, or_false,
    List.drop_succ_cons, List.drop_zero, List.all_eq_true] at h
  obtain ⟨⟨h₁, h₂⟩, h₃⟩ := h
  refine ⟨h₁, h₂, fun x hx hs => ?_⟩
  have hx' := h₃ x (by
    rw [List.takeWhile_append_of_pos hin]
    exact List.mem_append_left _ hx)
  rw [Bool.or_eq_true, Option.isNone_iff_eq_none] at hx'
  rcases hx' with hx' | hx'
  · rw [hx'] at hs
    cases hs
  · rw [Bool.not_eq_true', ← Bool.not_eq_true, List.contains_iff_mem, List.mem_cons,
      List.mem_singleton, not_or] at hx'
    exact hx'

/-- The code between the stores reads no local that they write. -/
theorem between_reads {between : List Piece} {call : Op}
    (hw : ∀ x ∈ between ++ [.invokestatic call, .getstatic], x.Wf)
    (hr : ∀ x ∈ between, x.sourceLocal.isSome = true →
      x.sourceLocal ≠ some (.local_ n₁) ∧ x.sourceLocal ≠ some (.local_ n₂))
    (hi : i ∈ emit (between ++ [.invokestatic call, .getstatic])) (ho : i.isOp = true)
    (hn : n ∈ i.reads) : n ≠ n₁ ∧ n ≠ n₂ := by
  obtain ⟨x, hx, hsrc⟩ := source_of_reads hw hi ho hn
  rcases List.mem_append.mp hx with hx | hx
  · obtain ⟨h₁, h₂⟩ := hr x hx (by rw [hsrc]; rfl)
    rw [hsrc] at h₁ h₂
    exact ⟨fun h => h₁ (h ▸ rfl), fun h => h₂ (h ▸ rfl)⟩
  · simp only [List.mem_cons, List.not_mem_nil, or_false] at hx
    rcases hx with rfl | rfl <;> cases hsrc

/-- The call of `f` by itself twice. -/
def callTwice : List Word := [0x0c000400, 0, 0x0c000400, 0, 0x03e00008, 0]

def callTwiceArray : List Entry := (Controller.pass0 0x1000 callTwice).getD []

theorem callTwice_pass0 : Controller.pass0 0x1000 callTwice = some callTwiceArray := rfl

def callTwiceMethod : JavaMethod :=
  ⟨(Function.ofSymbol "f" false callTwiceArray (Controller.pass0_attached callTwice_pass0) 0
    5).toList, by decide⟩

/-- The same with the second call for `$a0` zero only. -/
def callUnless : List Word := [0x0c000400, 0, 0x14800003, 0, 0x0c000400, 0, 0x03e00008, 0]

def callUnlessArray : List Entry := (Controller.pass0 0x1000 callUnless).getD []

theorem callUnless_pass0 : Controller.pass0 0x1000 callUnless = some callUnlessArray := rfl

def callUnlessMethod : JavaMethod :=
  ⟨(Function.ofSymbol "f" false callUnlessArray (Controller.pass0_attached callUnless_pass0) 0
    7).toList, by decide⟩

def callUnlessEnv : Env := { Env.single {} callUnlessMethod with isBranchTarget a := a == 0x1018 }

def callLines : List Item :=
  [.op (.iload 0), .op (.iload 1), .op (.iload 2), .op (.iload 3), .op (.iload 4),
    .op (.external ⟨"Cibyl/f_1000(IIIII)I", List.replicate 5 .int, some .int⟩)]

/-- The body up to the result of the first call. -/
def callBefore : List Item :=
  [.op (.iconst 0), .op (.istore 5), .op (.iconst 0), .op (.istore 6), .op (.iconst 0),
    .op (.istore 7), .label .javamethodBegin] ++ callLines

def resultLines : List Item := [.op .getSavedV1, .op (.istore 6), .op (.istore 5)]

/-- The body behind the result of the second call, where `ls` are the labels there. -/
def callAfter (ls : List Item) : List Item :=
  ls ++ [.goto .functionReturn, .label .exceptionHandlers, .label .functionReturn, .op (.iload 6),
    .op .putSavedV1, .op (.iload 5), .ireturn]

def unlessLines : List Item := [.op (.iload 1), .cond1 .ifne (.addr 0x1018)]

theorem callTwice_pass2 : callTwiceMethod.pass2 (.single {} callTwiceMethod) =
    callBefore ++ ((resultLines ++ callLines ++ resultLines) ++ callAfter []) := by decide +kernel

theorem callUnless_pass2 : callUnlessMethod.pass2 callUnlessEnv =
    callBefore ++ ((resultLines ++ (unlessLines ++ callLines ++ resultLines)) ++
      callAfter [.label (.addr 0x1018)]) := by decide +kernel

/-- Every call returns 7, and 9 in the high word. -/
def nineSeven : Runtime Unit where
  call e _ w :=
    if .ret ∉ e.args ∧ e.result = some .int then (.ok [.int 7], { w with savedV1 := 9 })
    else (.error .arithmetic, w)
  typed := by
    intro e args w vs w' h
    split at h
    · next hc =>
      cases h
      rw [hc.2]
      rfl
    · cases h

theorem nineSeven_noReturn : nineSeven.NoReturnAddresses := by
  intro e w h
  refine ⟨.arithmetic, w, fun args => if_neg ?_⟩
  rintro ⟨ha, hr⟩
  rcases h with h | h
  · exact ha h
  · rw [h] at hr
    cases hr

def onesFrame : Frame Unit := ⟨[], fun _ => .int 1, ⟨⟨[], by decide⟩, 0, ()⟩⟩

/-- The body with the lines `first` for the first result. -/
def unlessBody (first : List Item) : List Item :=
  callBefore ++ ((first ++ (unlessLines ++ callLines ++ resultLines)) ++
    callAfter [.label (.addr 0x1018)])

theorem unless_returns : Jvm.Ends nineSeven (unlessBody resultLines)
    ⟨unlessBody resultLines, onesFrame⟩ (.returned (some (.int 7)) ⟨⟨[], by decide⟩, 9, ()⟩) :=
  Jvm.ends_of_stepFor 40 rfl

theorem unless_drops : Jvm.Ends nineSeven (unlessBody [.op .pop])
    ⟨unlessBody [.op .pop], onesFrame⟩ (.returned (some (.int 0)) ⟨⟨[], by decide⟩, 0, ()⟩) :=
  Jvm.ends_of_stepFor 40 rfl

end Peephole

end Cibyl
