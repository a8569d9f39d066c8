import Cibyl.DeadLocals

namespace Cibyl
set_option autoImplicit true

open Jvm (Item Op Replaces Dead Ignores)

/-- A call of a subroutine of the method, or the way back from it. -/
def Jvm.Item.isSubroutine : Item → Bool
  | jsr _ | ret _ => true
  | _ => false

namespace Peephole

def sourceAt (p : Option Piece) : Option Place := p.bind Piece.sourceLocal

/-- The line of a `Const` that is made without one. -/
def constLine (value : Int) : Op :=
  if value = -1 then .iconst (-1)
  else if 0 ≤ value ∧ value ≤ 5 then .iconst value
  else if -128 ≤ value ∧ value ≤ 127 then .bipush value
  else if -32768 ≤ value ∧ value ≤ 32767 then .sipush value
  else .ldc value

def midInstructionValid (n : Option Place) (item : Piece) : Bool :=
  !(item.sourceLocal == n || item.targetLocal == n || item.isBranchInstruction)

/-- The template of `const_and_inc.py`. -/
def constAndInc : Template Piece Class where
  classes := [.const, .istore, .iinc]
  accepts _ items := .ok (targetAt items[1]? == targetAt items[2]?)
  execute _ items :=
    match items with
    | [.const v _, p, .iinc _ k] => .ok [.const (v + k) (constLine (v + k)), p, .nop]
    | _ => .error (.other "AttributeError")

/-- The `execute` that leaves two nops. -/
def twoNops (items : List Piece) : List Piece := (items.set 0 .nop).set 1 .nop

/-- `MatchClass` of `const_and_pop.py`. -/
def constAndPop : Template Piece Class where
  classes := [.const, .pop]
  accepts _ _ := .ok true
  execute _ items := .ok (twoNops items)

/-- `IloadMatchClass`. -/
def iloadAndPop : Template Piece Class where
  classes := [.iload, .pop]
  accepts _ _ := .ok true
  execute _ items := .ok (twoNops items)

/-- The template of `const_store_aload.py`. -/
def constStoreAload : Template Piece Class where
  classes := [.const, .istore, .aload]
  accepts _ _ := .ok true
  execute _ items := .ok (items.drop 2 ++ items.take 2)

/-- The template of `double_pop.py`. -/
def doublePop : Template Piece Class where
  classes := [.pop, .pop]
  accepts _ _ := .ok true
  execute _ items := .ok ((items.set 0 .pop2).set 1 .nop)

/-- The template of `dup_pop.py`. -/
def dupPop : Template Piece Class where
  classes := [.dup, .pop]
  accepts _ _ := .ok true
  execute _ items := .ok (twoNops items)

/-- The template of `push_store_inc.py`. -/
def pushStoreInc : Template Piece Class where
  classes := [.pushInstruction, .istore, .iinc]
  accepts _ items := .ok (!(sourceAt items[0]? == targetAt items[2]? ||
    targetAt items[1]? == targetAt items[2]?))
  execute _ items := .ok (items.drop 2 ++ items.take 2)

/-- `MatchPop` of `getstatic_v1_pop.py`. -/
def matchPop : Template Piece Class where
  classes := [.getstatic, .pop]
  accepts _ _ := .ok true
  execute _ items := .ok (twoNops items)

/-- `MatchPop2` has no `match` of its own. -/
def matchPop2 : Template Piece Class where
  classes := [.getstatic, .pop2]
  accepts _ _ := .ok false
  execute _ items := .ok ((items.set 0 .nop).set 1 .pop)

/-- `MatchStoreLoadStore(0, m)`. -/
def matchStoreLoadStore (m : Nat) : Template Piece Class where
  classes := [.istore, .iload] ++ List.replicate m .instruction ++ [.istore]
  accepts _ items :=
    let n := targetAt items[0]?
    .ok (n == sourceAt items[1]? && n == targetAt (fromEnd items 1) &&
      (items.drop 2).dropLast.all (midInstructionValid n))
  execute _ items := .ok (twoNops items)

def matchStoreStore (n : Nat) : Template Piece Class where
  classes := [.istore] ++ List.replicate n .instruction ++ [.istore]
  accepts _ items :=
    let n := targetAt items[0]?
    .ok (n == targetAt (fromEnd items 1) && (items.drop 1).dropLast.all (midInstructionValid n))
  execute _ items := .ok (items.set 0 .pop)

/-- The `execute` of `MatchStoreLoadIreturn`. -/
def firstAndLoad (items : List Piece) : List Piece :=
  (items.set 0 .nop).set (items.length - 2) .nop

def matchStoreLoadIreturn : Template Piece Class where
  classes := [.istore, .iload, .ireturn]
  accepts _ items := .ok (targetAt items[0]? == sourceAt (fromEnd items 2))
  execute _ items := .ok (firstAndLoad items)

def matchStorePutstaticLoadIreturn : Template Piece Class where
  classes := [.istore, .iload, .putstatic, .iload, .ireturn]
  accepts _ items := .ok (targetAt items[0]? == sourceAt (fromEnd items 2) &&
    !(sourceAt items[1]? == targetAt items[0]?))
  execute _ items := .ok (firstAndLoad items)

def matchDupIstoreIreturn : Template Piece Class where
  classes := [.dup, .istore, .ireturn]
  accepts _ _ := .ok true
  execute _ items := .ok (twoNops items)

def matchStoreLoad : Template Piece Class where
  classes := [.istore, .iload]
  accepts _ items := .ok (targetAt items[0]? == sourceAt items[1]?)
  execute _ items := .ok (.dup :: items.take 1)

def matchSwap : Template Piece Class where
  classes := [.istore, .iload, .iload, .instruction, .istore]
  accepts _ items :=
    let n := targetAt items[0]?
    .ok (!(n == sourceAt items[1]?) && n == sourceAt items[2]? &&
      (items.drop 3).dropLast.all (midInstructionValid n) && targetAt (fromEnd items 1) == n)
  execute _ items := .ok ((items.set 0 .nop).set 2 .swap)

/-- `MatchSwapDup` is switched off. -/
def matchSwapDup : Template Piece Class where
  classes := [.istore, .iload, .iload, .instruction, .dup, .istore]
  accepts _ _ := .ok false
  execute _ items := .ok ((items.set 0 .nop).set 2 .swap)

namespace Piece

/-- The instructions that have labels and are no `BranchInstruction`. -/
def isSwitch : Piece → Bool
  | instruction i => !i.targets.isEmpty
  | _ => false

/-- A piece of a method without handlers and subroutines, with the operands that its operations
can have. -/
structure Straight (p : Piece) : Prop where
  wf : p.Wf
  silent : p.isNop = true → p.items = []
  value : ∀ v o, p = .const v o → o.pushed = some (BitVec.ofInt 32 v)
  increment : ∀ n k, p = .iinc n k → (BitVec.ofInt 16 k).signExtend 32 = BitVec.ofInt 32 k
  inline : ∀ i ∈ p.items, i.isSubroutine = false

variable {p : Piece}

theorem eq_const (h : p.isInstance .const = true) : ∃ v o, p = .const v o := by
  cases p <;> first
    | exact ⟨_, _, rfl⟩
    | cases h

theorem eq_iinc (h : p.isInstance .iinc = true) : ∃ n k, p = .iinc n k := by
  cases p <;> first
    | exact ⟨_, _, rfl⟩
    | cases h

theorem eq_aload (h : p.isInstance .aload = true) : ∃ n, p = .aload n := by
  cases p <;> first
    | exact ⟨_, rfl⟩
    | cases h

theorem eq_pop (h : p.isInstance .pop = true) : p = .pop := by
  cases p <;> first
    | rfl
    | cases h

theorem eq_dup (h : p.isInstance .dup = true) : p = .dup := by
  cases p <;> first
    | rfl
    | cases h

theorem eq_ireturn (h : p.isInstance .ireturn = true) : p = .ireturn := by
  cases p <;> first
    | rfl
    | cases h

theorem eq_putstatic (h : p.isInstance .putstatic = true) : p = .putstatic := by
  cases p <;> first
    | rfl
    | cases h

theorem isSwitch_of_items (h : p.items = [.op o]) : p.isSwitch = false := by
  cases p with
  | instruction i =>
    cases h
    rfl
  | _ => rfl

end Piece

theorem load_of_iload {p : Piece} (h : p.isInstance .iload = true) :
    ∃ o n, p.items = [.op o] ∧ p.sourceLocal = some (.local_ n) ∧ o.Loads n := by
  obtain ⟨n, rfl | rfl⟩ := Piece.eq_iload h
  · exact ⟨_, n, rfl, rfl, .inl rfl⟩
  · exact ⟨_, n, rfl, rfl, .inr rfl⟩

/-- The operations that take no operand and touch no local. -/
theorem straight_of_stack {p : Piece}
    (hi : ∀ i ∈ p.items, i = .op .pop ∨ i = .op .dup ∨ i = .op .swap)
    (hc : ∀ v o, p ≠ .const v o) (hk : ∀ n k, p ≠ .iinc n k)
    (hn : p.isNop = true → p.items = []) : p.Straight where
  wf :=
    { reads := by
        intro o ho n hn
        rcases hi _ ho with h | h | h <;> cases h <;> cases hn
      writes := by
        intro o ho n hn
        rcases hi _ ho with h | h | h <;> cases h <;> cases hn
      directive := by
        intro h i hi
        rw [hn h] at hi
        cases hi
      consts := fun v o h => absurd h (hc v o) }
  silent := hn
  value v o h := absurd h (hc v o)
  increment n k h := absurd h (hk n k)
  inline := by
    intro i h
    rcases hi i h with rfl | rfl | rfl <;> rfl

theorem straight_nop : Piece.nop.Straight :=
  straight_of_stack (fun i h => by cases h) (fun _ _ h => by cases h) (fun _ _ h => by cases h)
    fun _ => rfl

theorem straight_pop : Piece.pop.Straight :=
  straight_of_stack (by simp [Piece.items]) (fun _ _ h => by cases h) (fun _ _ h => by cases h)
    fun h => by cases h

theorem straight_pop2 : Piece.pop2.Straight :=
  straight_of_stack (by simp [Piece.items]) (fun _ _ h => by cases h) (fun _ _ h => by cases h)
    fun h => by cases h

theorem straight_dup : Piece.dup.Straight :=
  straight_of_stack (by simp [Piece.items]) (fun _ _ h => by cases h) (fun _ _ h => by cases h)
    fun h => by cases h

theorem straight_swap : Piece.swap.Straight :=
  straight_of_stack (by simp [Piece.items]) (fun _ _ h => by cases h) (fun _ _ h => by cases h)
    fun h => by cases h

/-- A signed operand of fewer bits is the number itself. -/
theorem signExtend_ofInt {w : Nat} (hw : 0 < w) {v : Int} (hl : -2 ^ (w - 1) ≤ v)
    (hu : v < 2 ^ (w - 1)) : (BitVec.ofInt w v).signExtend 32 = BitVec.ofInt 32 v := by
  rw [BitVec.signExtend, BitVec.toInt_ofInt_eq_self hw hl hu]

theorem pushed_constLine (v : Int) : (constLine v).pushed = some (BitVec.ofInt 32 v) := by
  rw [constLine]
  split
  · next h =>
    subst h
    rfl
  split
  · rfl
  split
  · next h =>
    exact congrArg some (signExtend_ofInt (by decide) h.1 (Int.lt_add_one_of_le h.2))
  split
  · next h =>
    exact congrArg some (signExtend_ofInt (by decide) h.1 (Int.lt_add_one_of_le h.2))
  · rfl

theorem straight_const (v : Int) : (Piece.const v (constLine v)).Straight where
  wf := by
    have ho : ∃ n, constLine v = .iconst n ∨ constLine v = .bipush n ∨ constLine v = .sipush n ∨
        constLine v = .ldc n := by
      rw [constLine]
      repeat' split
      all_goals simp
    obtain ⟨n, ho⟩ := ho
    refine wf_of_op rfl rfl ?_ ?_ ?_
    · intro m hm
      rcases ho with h | h | h | h <;> rw [h] at hm <;> cases hm
    · intro m hm
      rcases ho with h | h | h | h <;> rw [h] at hm <;> cases hm
    · intro u o h
      cases h
      rcases ho with h | h | h | h <;> rw [h] <;> rfl
  silent h := by cases h
  value := by
    intro u o h
    cases h
    exact pushed_constLine v
  increment n k h := by cases h
  inline := by
    intro i h
    cases List.mem_singleton.mp h
    rfl

/-- The default of a switch is the next piece behind it. -/
def Settled (p q : Piece) : Prop := p.isSwitch = true → q.isInstance .label = true

/-- What a template puts in for the pieces that it has found. -/
structure Exchange (test rs : List Piece) : Prop where
  length : rs.length = test.length
  straight : ∀ p ∈ rs, p.Straight
  switches : ∀ p ∈ rs, p.isSwitch = false
  lines : ∃ w r tail, emit test = w ++ tail ∧ emit rs = r ++ tail ∧ Replaces w r tail

/-- The template raises nothing, and what it puts in does the same. -/
structure Template.Keeps (t : Template Piece Class) : Prop where
  instructions : .label ∉ t.classes
  classes : t.classes ≠ []
  exchange : ∀ contents test,
    List.Forall₂ (fun c (p : Piece) => p.isInstance c = true) t.classes test →
    (∀ p ∈ test, p.Straight) → List.IsChain Settled test →
    t.accepts contents test = .ok false ∨ t.accepts contents test = .ok true ∧
      ∃ rs, t.execute contents test = .ok rs ∧ Exchange test rs

section

variable {t : Template Piece Class} {test : List Piece}

theorem isInstance_instruction {p : Piece} (hc : c ≠ .label) (h : p.isInstance c = true) :
    p.isInstance .instruction = true := by
  cases p with
  | base => cases h
  | label | defaultLabel => exact absurd (eq_of_beq h) hc
  | _ => rfl

theorem not_label_of_instruction {p : Piece} (h : p.isInstance .instruction = true) :
    p.isInstance .label = false := by
  cases p with
  | base => cases h
  | label | defaultLabel => cases h
  | _ => rfl

/-- No instruction comes right behind a switch. -/
theorem switches_settled {ps : List Piece} {q : Piece} (hc : List.IsChain Settled (ps ++ [q]))
    (hi : ∀ p ∈ ps ++ [q], p.isInstance .instruction = true) : ∀ p ∈ ps, p.isSwitch = false := by
  induction ps with
  | nil =>
    intro p hp
    cases hp
  | cons p ps ih =>
    have hnext : ∀ r, Settled p r → r.isInstance .instruction = true → p.isSwitch = false := by
      intro r hr hi
      rw [← Bool.not_eq_true]
      intro hp
      have h := hr hp
      rw [not_label_of_instruction hi] at h
      cases h
    have htail := ih hc.tail fun r hr => hi r (List.mem_cons_of_mem _ hr)
    intro r hr
    rcases List.mem_cons.mp hr with rfl | hr
    · cases ps with
      | nil =>
        rw [List.singleton_append, List.isChain_cons_cons] at hc
        exact hnext q hc.1 (hi q (by simp))
      | cons u ps =>
        rw [List.cons_append, List.cons_append, List.isChain_cons_cons] at hc
        exact hnext u hc.1 (hi u (by simp))
    · exact htail r hr

/-- An instruction that a template lets stand between does not look at the local. -/
theorem passes_of_mid {p : Piece} (hs : p.Straight) (hi : p.isInstance .instruction = true)
    (hsw : p.isSwitch = false) (hv : midInstructionValid (some (.local_ n)) p = true) :
    ∀ i ∈ p.items, i.Passes n := by
  rw [midInstructionValid, Bool.not_eq_true', Bool.or_eq_false_iff, Bool.or_eq_false_iff] at hv
  obtain ⟨⟨hsrc, -⟩, hbranch⟩ := hv
  have hop : ∀ o, .op o ∈ p.items → (Item.op o).Passes n := by
    intro o ho
    refine ⟨fun hn => ?_, rfl, rfl⟩
    rw [hs.wf.reads o ho n hn] at hsrc
    exact absurd (beq_self_eq_true _) (Bool.eq_false_iff.mp hsrc)
  have hret : ∀ i ∈ p.items, i.isRet = false := by
    intro i hip
    have hsub := hs.inline i hip
    cases i with
    | ret => cases hsub
    | _ => rfl
  intro i hip
  refine ⟨?_, ?_, hret i hip⟩
  · cases i with
    | op o => exact (hop o hip).1
    | ret => cases hret _ hip
    | _ => exact List.not_mem_nil
  · cases p with
    | base | label | defaultLabel => cases hi
    | instruction j =>
      cases List.mem_singleton.mp hip
      rw [Piece.isSwitch, Bool.not_eq_false', List.isEmpty_iff] at hsw
      exact hsw
    | goto | conditionalBranchOne | conditionalBranchTwo | invokestatic => cases hbranch
    | nop => cases hip
    | pop2 =>
      simp only [Piece.items, List.mem_cons, List.not_mem_nil, or_false, or_self] at hip
      subst hip
      rfl
    | _ =>
      cases List.mem_singleton.mp hip
      rfl

theorem passes_of_mids {ps : List Piece} (hs : ∀ p ∈ ps, p.Straight)
    (hi : ∀ p ∈ ps, p.isInstance .instruction = true) (hsw : ∀ p ∈ ps, p.isSwitch = false)
    (hv : ps.all (midInstructionValid (some (.local_ n))) = true) :
    ∀ i ∈ emit ps, i.Passes n := by
  intro i h
  obtain ⟨p, hp, hip⟩ := List.mem_flatMap.mp h
  exact passes_of_mid (hs p hp) (hi p hp) (hsw p hp) (List.all_eq_true.mp hv p hp) i hip

theorem forall₂_instruction (ht : .label ∉ cs)
    (h : List.Forall₂ (fun c (p : Piece) => p.isInstance c = true) cs test) :
    ∀ p ∈ test, p.isInstance .instruction = true := by
  induction h with
  | nil =>
    intro p hp
    cases hp
  | cons hc _ ih =>
    intro p hp
    rcases List.mem_cons.mp hp with rfl | hp
    · refine isInstance_instruction (fun h => ht ?_) hc
      rw [h]
      exact List.mem_cons_self ..
    · exact ih (fun h => ht (List.mem_cons_of_mem _ h)) p hp

end

end Peephole

end Cibyl
