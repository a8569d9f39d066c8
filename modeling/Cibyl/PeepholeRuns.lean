import Cibyl.Peephole
import Cibyl.Rewriting

namespace Cibyl
set_option autoImplicit true

open Jvm (Item Op Label Value Frame World Runtime Config Live Ends Result Rewrite Runs exec)

def Jvm.Op.isConst : Op → Bool
  | .iconst _ | .bipush _ | .sipush _ | .ldc _ => true
  | _ => false

namespace Peephole

namespace Piece

/-- What `emit` writes. A `pop2` takes off two values that had a `pop` each. -/
def items : Piece → List Item
  | base (.item i) => [i]
  | base _ | defaultLabel _ | nop => []
  | label l => [.label l]
  | instruction i => [i]
  | ireturn => [.ireturn]
  | dup => [.op .dup]
  | pop => [.op .pop]
  | swap => [.op .swap]
  | pop2 => [.op .pop, .op .pop]
  | const _ o => [.op o]
  | iinc n v => [.op (.iinc n v)]
  | istore n => [.op (.istore n)]
  | iload n => [.op (.iload n)]
  | aload n => [.op (.aload n)]
  | astore n => [.op (.astore n)]
  | getstatic => [.op .getSavedV1]
  | putstatic => [.op .putSavedV1]
  | arithmeticInstructionPopTwo o | arithmeticInstructionPopOne o | invokestatic o => [.op o]
  | conditionalBranchOne c l => [.cond1 c l]
  | conditionalBranchTwo c l => [.cond2 c l]
  | goto l => [.goto l]

@[simp] theorem items_nop : nop.items = [] := rfl

@[simp] theorem items_pop : pop.items = [.op .pop] := rfl

@[simp] theorem items_getstatic : getstatic.items = [.op .getSavedV1] := rfl

@[simp] theorem items_invokestatic (o : Op) : (invokestatic o).items = [.op o] := rfl

/-- The locals of the operation are those that the class knows. A directive is no operation, and a
constant pushes a number. -/
structure Wf (p : Piece) : Prop where
  reads : ∀ o, .op o ∈ p.items → ∀ n ∈ o.reads, p.sourceLocal = some (.local_ n)
  writes : ∀ o, .op o ∈ p.items → ∀ n ∈ o.writes, p.targetLocal = some (.local_ n)
  directive : p.isNop = true → ∀ i ∈ p.items, i.isOp = false
  consts : ∀ v o, p = .const v o → o.isConst = true

end Piece

/-- The body that the contents are written as. -/
def emit (ps : List Piece) : List Item := ps.flatMap Piece.items

theorem emit_append (ps qs : List Piece) : emit (ps ++ qs) = emit ps ++ emit qs :=
  List.flatMap_append

theorem emit_cons (p : Piece) (ps : List Piece) : emit (p :: ps) = p.items ++ emit ps :=
  List.flatMap_cons

@[simp] theorem emit_nil : emit [] = [] := rfl

theorem matchInstruction_items (path : String) (o : Op) :
    (matchInstruction path o).items = [.op o] := by
  unfold matchInstruction
  repeat' split
  all_goals rfl

theorem emit_rows (path : String) (ls : List Label) :
    emit ((ls.map Line.row).map (read path)) = [] := by
  induction ls with
  | nil => rfl
  | cons l ls ih => exact ih

/-- Reading a body and writing it back changes nothing. -/
theorem emit_readItem (path : String) (i : Item) : emit (readItem path i) = [i] := by
  cases i with
  | op o => exact (List.append_nil _).trans (matchInstruction_items path o)
  | tableswitch ts d =>
    rw [readItem, lines, List.map_cons, List.map_append, emit_cons, emit_append, emit_rows]
    rfl
  | lookupswitch cs d =>
    have hr : cs.map (fun c => Line.row c.2) = (cs.map Prod.snd).map Line.row :=
      (List.map_map ..).symm
    rw [readItem, lines, List.map_cons, List.map_append, emit_cons, emit_append, hr, emit_rows]
    rfl
  | _ => rfl

theorem emit_readFile (path : String) (body : List Item) : emit (readFile path body) = body := by
  induction body with
  | nil => rfl
  | cons i body ih =>
    rw [readFile, List.flatMap_cons, emit_append, emit_readItem]
    exact congrArg (i :: ·) ih

theorem readFile_append (path : String) (b c : List Item) :
    readFile path (b ++ c) = readFile path b ++ readFile path c := List.flatMap_append

theorem wf_of_op {p : Piece} {o : Op} (hi : p.items = [.op o]) (hn : p.isNop = false)
    (hr : ∀ n ∈ o.reads, p.sourceLocal = some (.local_ n))
    (hw : ∀ n ∈ o.writes, p.targetLocal = some (.local_ n))
    (hc : ∀ v o', p = .const v o' → o'.isConst = true) : p.Wf where
  consts := hc
  reads o' ho := by
    rw [hi, List.mem_singleton, Item.op.injEq] at ho
    rwa [ho]
  writes o' ho := by
    rw [hi, List.mem_singleton, Item.op.injEq] at ho
    rwa [ho]
  directive h := by
    rw [hn] at h
    cases h

theorem matchInstruction_isNop (path : String) (o : Op) :
    (matchInstruction path o).isNop = false := by
  unfold matchInstruction
  repeat' split
  all_goals rfl

theorem wf_matchInstruction (path : String) (o : Op) : (matchInstruction path o).Wf := by
  refine wf_of_op (matchInstruction_items path o) (matchInstruction_isNop path o) ?_ ?_ ?_
  · intro n hn
    cases o with
    | iload | aload | iinc =>
      cases List.mem_singleton.mp hn
      rfl
    | _ => exact nomatch hn
  · intro n hn
    cases o with
    | istore | astore | iinc =>
      cases hn
      rfl
    | _ => exact nomatch hn
  · intro v o' h
    have hi := matchInstruction_items path o
    rw [h] at hi
    cases hi
    cases o with
    | iconst | bipush | sipush | ldc => rfl
    | _ =>
      unfold matchInstruction at h
      repeat' split at h
      all_goals exact nomatch h

theorem wf_plain {p : Piece} (hc : ∀ v o, p ≠ .const v o) (hi : ∀ i ∈ p.items, i.isOp = false) :
    p.Wf where
  reads _ ho := absurd (hi _ ho) Bool.noConfusion
  writes _ ho := absurd (hi _ ho) Bool.noConfusion
  directive _ := hi
  consts v o h := absurd h (hc v o)

theorem wf_read (path : String) (l : Line) : (read path l).Wf := by
  cases l with
  | row l => exact wf_plain (p := .base (.row l)) nofun fun i hi => nomatch hi
  | default l => exact wf_plain (p := .defaultLabel l) nofun fun i hi => nomatch hi
  | item i =>
    cases i with
    | op o => exact wf_matchInstruction path o
    | _ =>
      refine wf_plain nofun fun i hi => ?_
      cases List.mem_singleton.mp hi
      rfl

theorem wf_readFile (path : String) (body : List Item) : ∀ p ∈ readFile path body, p.Wf := by
  intro p hp
  obtain ⟨i, -, hp⟩ := List.mem_flatMap.mp hp
  obtain ⟨l, -, rfl⟩ := List.mem_map.mp hp
  exact wf_read path l

/-- The window with the items replaced, by a template that looks at nothing else. -/
def Template.replacement (t : Template Piece Class) (win : List Piece) : List Piece :=
  match t.execute win (win.filter (fun p => !p.isNop)) with
  | .ok items => replace win items
  | .error _ => win

/-- The window is one that the template has found and does not reject. -/
structure Template.Matches (t : Template Piece Class) (pre win post : List Piece) : Prop where
  classes : List.Forall₂ (fun c (p : Piece) => p.isInstance c = true) t.classes
    (win.filter (fun p => !p.isNop))
  accepts : t.accepts (pre ++ (win ++ post)) (win.filter (fun p => !p.isNop)) = .ok true

theorem forall₂_split {R : α → β → Prop} {as bs : List α} {cs : List β}
    (h : List.Forall₂ R (as ++ bs) cs) :
    ∃ cs₁ cs₂, cs = cs₁ ++ cs₂ ∧ List.Forall₂ R as cs₁ ∧ List.Forall₂ R bs cs₂ := by
  have h₁ := List.forall₂_take as.length h
  have h₂ := List.forall₂_drop as.length h
  rw [List.take_left] at h₁
  rw [List.drop_left] at h₂
  exact ⟨_, _, (List.take_append_drop ..).symm, h₁, h₂⟩

section

variable {win : List Piece}

/-- Among operations alone, what the templates skip is written as nothing. -/
theorem items_of_isNop (hw : ∀ p ∈ win, p.Wf) (ho : ∀ i ∈ emit win, i.isOp = true) :
    ∀ p ∈ win, p.isNop = true → p.items = [] := by
  intro p hp hn
  refine List.eq_nil_iff_forall_not_mem.mpr fun i hi => ?_
  have h := (hw p hp).directive hn i hi
  rw [ho i (List.mem_flatMap.mpr ⟨p, hp, hi⟩)] at h
  cases h

theorem emit_filter (hn : ∀ p ∈ win, p.isNop = true → p.items = []) :
    emit (win.filter (fun p => !p.isNop)) = emit win := by
  induction win with
  | nil => rfl
  | cons p win ih =>
    have hi := ih fun q hq => hn q (List.mem_cons_of_mem _ hq)
    cases h : p.isNop with
    | true =>
      rw [List.filter_cons_of_neg (by rw [h]; exact nofun), hi, emit_cons,
        hn p (List.mem_cons_self ..) h, List.nil_append]
    | false => rw [List.filter_cons_of_pos (by rw [h]; rfl), emit_cons, emit_cons, hi]

theorem emit_replace (hn : ∀ p ∈ win, p.isNop = true → p.items = [])
    (hl : rs.length = (win.filter (fun p => !p.isNop)).length) :
    emit (replace win rs) = emit rs := by
  induction win generalizing rs with
  | nil =>
    cases List.length_eq_zero_iff.mp hl
    rfl
  | cons p win ih =>
    have hn' : ∀ q ∈ win, q.isNop = true → q.items = [] := fun q hq =>
      hn q (List.mem_cons_of_mem _ hq)
    cases h : p.isNop with
    | true =>
      rw [List.filter_cons_of_neg (by rw [h]; exact nofun)] at hl
      rw [replace_nop h, emit_cons, hn p (List.mem_cons_self ..) h, List.nil_append, ih hn' hl]
    | false =>
      rw [List.filter_cons_of_pos (by rw [h]; rfl)] at hl
      cases rs with
      | nil => cases hl
      | cons r rs => rw [replace_item h, emit_cons, emit_cons, ih hn' (Nat.succ.inj hl)]

theorem emit_replacement {t : Template Piece Class}
    (hn : ∀ p ∈ win, p.isNop = true → p.items = [])
    (hx : t.execute win (win.filter (fun p => !p.isNop)) = .ok rs)
    (hl : rs.length = (win.filter (fun p => !p.isNop)).length) :
    emit (t.replacement win) = emit rs := by
  rw [Template.replacement, hx]
  exact emit_replace hn hl

end

namespace Piece

theorem eq_getstatic {p : Piece} (h : p.isInstance .getstatic = true) : p = getstatic := by
  cases p <;> first
    | rfl
    | exact nomatch h

theorem eq_invokestatic {p : Piece} (h : p.isInstance .invokestatic = true) :
    ∃ o, p = invokestatic o := by
  cases p <;> first
    | exact ⟨_, rfl⟩
    | exact nomatch h

theorem eq_istore {p : Piece} (h : p.isInstance .istore = true) :
    ∃ n, p = istore n ∨ p = astore n := by
  cases p <;> first
    | exact ⟨_, .inl rfl⟩
    | exact ⟨_, .inr rfl⟩
    | exact nomatch h

theorem eq_iload {p : Piece} (h : p.isInstance .iload = true) :
    ∃ n, p = iload n ∨ p = aload n := by
  cases p <;> first
    | exact ⟨_, .inl rfl⟩
    | exact ⟨_, .inr rfl⟩
    | exact nomatch h

end Piece

/-- A local that is read is the source of one of the pieces. -/
theorem source_of_reads (hw : ∀ p ∈ ps, p.Wf) (hi : i ∈ emit ps) (ho : i.isOp = true)
    (hn : n ∈ i.reads) : ∃ p ∈ ps, p.sourceLocal = some (.local_ n) := by
  obtain ⟨p, hp, hip⟩ := List.mem_flatMap.mp hi
  cases i with
  | op o => exact ⟨p, hp, (hw p hp).reads o hip n hn⟩
  | _ => cases ho

theorem stores_of_istore {p : Piece} (h : p.isInstance .istore = true) :
    ∃ o n, p.items = [.op o] ∧ p.targetLocal = some (.local_ n) ∧ o.Stores n := by
  obtain ⟨n, rfl | rfl⟩ := Piece.eq_istore h
  · exact ⟨_, n, rfl, rfl, .inl rfl⟩
  · exact ⟨_, n, rfl, rfl, .inr rfl⟩

end Peephole

end Cibyl
