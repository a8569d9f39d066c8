import Cibyl.Architecture
import Cibyl.Emit

namespace Cibyl
set_option autoImplicit true

open Jvm (Op IntOp Label Value World Outcome Runtime exec setLocal setLocal_same setLocal_ne)

/-- The locals of the method hold the MIPS registers. -/
def Holds (ra : RegisterAllocator) (regs : RegFile) (l : Nat → Value) : Prop :=
  ∀ r n, ra.regToLocal r = some n → Reg.Ordinary r → l n = .int (regs.get r)

/-- The locals that hold `regs`. -/
def localsOf (sorted : List Reg) (regs : RegFile) (n : Nat) : Value :=
  .int (regs.get (sorted.getD n Reg.zero))

theorem holds_localsOf (sorted : List Reg) (hz : Reg.zero ∉ sorted) (regs : RegFile) :
    Holds (.ofSorted sorted hz) regs (localsOf sorted regs) := by
  intro r n hr _
  obtain ⟨hn, hb, _⟩ := List.idxOf?_eq_some_iff.mp hr
  rw [localsOf, List.getD_eq_getElem?_getD, List.getElem?_eq_getElem hn, Option.getD_some,
    hb]

/-- The locals of a frame whose registers are `regs`, with the memory array in that of `mem`. -/
def localsFor (ra : RegisterAllocator) (regs : RegFile) (n : Nat) : Value :=
  match (List.finRange 86).find? (fun r => ra.regToLocal r = some n) with
  | none => .int 0
  | some r => if r = Reg.mem then .ref .memory else .int (regs.get r)

theorem localsFor_eq (h : ra.regToLocal r = some n) (regs : RegFile) :
    localsFor ra regs n = if r = Reg.mem then .ref .memory else .int (regs.get r) := by
  rw [localsFor]
  cases hf : (List.finRange 86).find? (fun r => ra.regToLocal r = some n) with
  | none =>
    have hr := List.find?_eq_none.mp hf r (List.mem_finRange r)
    exact absurd (decide_eq_true h) hr
  | some r' =>
    have hr : ra.regToLocal r' = some n := by
      simpa only [decide_eq_true_eq] using List.find?_some hf
    cases ra.injective hr h
    rfl

theorem holds_localsFor (ra : RegisterAllocator) (regs : RegFile) :
    Holds ra regs (localsFor ra regs) := by
  intro r n hr ho
  rw [localsFor_eq hr, if_neg ho.1]

/-- A register whose value the emitted code can read. -/
def Readable (ra : RegisterAllocator) (r : Reg) : Prop :=
  (r = Reg.zero ∨ ra.regIsAllocated r) ∧ Reg.Ordinary r

/-- The locals after the registers `ws` were assigned. -/
def writeLocals (ra : RegisterAllocator) (l : Nat → Value) : List (Reg × Word) → Nat → Value
  | [] => l
  | (r, v) :: ws =>
    match ra.regToLocal r with
    | none => writeLocals ra l ws
    | some n => writeLocals ra (setLocal l n (.int v)) ws

theorem Holds.setLocal (hl : Holds ra regs l) (hr : ra.regToLocal r = some n) (v : Word) :
    Holds ra (regs.set r v) (setLocal l n (.int v)) := by
  intro i k hi hm
  by_cases h : i = r
  · subst h
    have hz : i ≠ Reg.zero := by
      rintro rfl
      rw [ra.zero_none] at hr
      cases hr
    cases hr.symm.trans hi
    rw [setLocal_same, RegFile.get_set_same _ hz]
  · have hn : k ≠ n := by
      rintro rfl
      exact h (ra.injective hi hr)
    rw [setLocal_ne _ _ hn, RegFile.get_set_ne _ h]
    exact hl i k hi hm

theorem Holds.writeLocals (hl : Holds ra regs l) (ha : ∀ p ∈ ws, ra.regIsAllocated p.1 = true) :
    Holds ra (regs.setAll ws) (writeLocals ra l ws) := by
  induction ws generalizing regs l with
  | nil => exact hl
  | cons p ws ih =>
    obtain ⟨r, v⟩ := p
    obtain ⟨n, hn⟩ := Option.isSome_iff_exists.mp (ha _ (List.mem_cons_self ..))
    rw [Cibyl.writeLocals, RegFile.setAll, hn]
    exact ih (hl.setLocal hn v) (fun p hp => ha p (List.mem_cons_of_mem _ hp))

theorem writeLocals_of_not_mem (h : ∀ p ∈ ws, ra.regToLocal p.1 ≠ some n) :
    writeLocals ra l ws n = l n := by
  induction ws generalizing l with
  | nil => rfl
  | cons p ws ih =>
    obtain ⟨r, v⟩ := p
    have hr := h _ (List.mem_cons_self ..)
    have ht := fun p hp => h p (List.mem_cons_of_mem _ hp)
    rw [writeLocals]
    cases hk : ra.regToLocal r with
    | none => exact ih ht
    | some k =>
      have hkn : n ≠ k := by
        rintro rfl
        exact hr hk
      exact (ih ht).trans (setLocal_ne _ _ hkn)

namespace Bc

@[simp] theorem lowerAll_op (ra : RegisterAllocator) (o : Op) (bs : List Bc) :
    lowerAll ra (Emit.op o :: bs) = .op o :: lowerAll ra bs := rfl

@[simp] theorem lowerAll_intOp (ra : RegisterAllocator) (o : IntOp) (bs : List Bc) :
    lowerAll ra (Emit.intOp o :: bs) = .op (.intOp o) :: lowerAll ra bs := rfl

section

variable {ra : RegisterAllocator} {rt : Runtime σ} {s : List Value} {w : World σ}

theorem exec_pushregister (hl : Holds ra regs l) (hr : Readable ra r) (bs : List Bc) :
    exec rt (lowerAll ra (.pushregister r :: bs)) ⟨s, l, w⟩ =
      exec rt (lowerAll ra bs) ⟨.int (regs.get r) :: s, l, w⟩ := by
  obtain ⟨hz | ha, hm⟩ := hr
  · subst hz
    rw [regs.get_zero]
    rfl
  · obtain ⟨n, hn⟩ := Option.isSome_iff_exists.mp ha
    have hz : r ≠ Reg.zero := by
      rintro rfl
      rw [ra.zero_none] at hn
      cases hn
    rw [lowerAll_cons, lower, if_neg hz, pushregisterItem, hn]
    simp only [if_neg hm.1, List.singleton_append, Jvm.exec_op,
      Jvm.exec_iload rt s l w (hl r n hn hm), Outcome.bind_ok]

theorem exec_pushmem (hr : ra.regToLocal Reg.mem = some n) (hn : l n = .ref .memory)
    (bs : List Bc) :
    exec rt (lowerAll ra (.pushregister Reg.mem :: bs)) ⟨s, l, w⟩ =
      exec rt (lowerAll ra bs) ⟨.ref .memory :: s, l, w⟩ := by
  rw [lowerAll_cons, lower, if_neg (by decide), pushregisterItem, hr]
  simp only [if_true, List.singleton_append, Jvm.exec_op, Jvm.exec_aload rt s l w hn,
    Outcome.bind_ok]

theorem exec_popregister (hr : ra.regToLocal r = some n) (hm : r ≠ Reg.mem) (v : Word)
    (bs : List Bc) :
    exec rt (lowerAll ra (.popregister r :: bs)) ⟨.int v :: s, l, w⟩ =
      exec rt (lowerAll ra bs) ⟨s, setLocal l n (.int v), w⟩ := by
  simp only [lowerAll_cons, lower, hr, if_neg hm, List.singleton_append, Jvm.exec_op,
    Jvm.exec_istore, Outcome.bind_ok]

theorem exec_iinc (hl : Holds ra regs l) (hr : ra.regToLocal r = some n) (hm : Reg.Ordinary r)
    (extra : Int) (bs : List Bc) :
    exec rt (lowerAll ra (.iinc r extra :: bs)) ⟨s, l, w⟩ =
      exec rt (lowerAll ra bs)
        ⟨s, setLocal l n (.int (regs.get r + (BitVec.ofInt 16 extra).signExtend 32)), w⟩ := by
  simp only [lowerAll_cons, lower, hr, List.singleton_append, Jvm.exec_op,
    Jvm.exec_iinc rt s l w (hl r n hr hm), Outcome.bind_ok]

theorem ofInt_signExtend (hn : 0 < n) (hn' : n ≤ 32) (v : Word) (h₁ : -2 ^ (n - 1) ≤ v.toInt)
    (h₂ : v.toInt < 2 ^ (n - 1)) : (BitVec.ofInt n v.toInt).signExtend 32 = v := by
  apply BitVec.eq_of_toInt_eq
  rw [BitVec.toInt_signExtend_of_le hn', BitVec.toInt_ofInt_eq_self hn h₁ h₂]

theorem exec_pushconst (v : Word) (bs : List Bc) :
    exec rt (lowerAll ra (Emit.pushconst v :: bs)) ⟨s, l, w⟩ =
      exec rt (lowerAll ra bs) ⟨.int v :: s, l, w⟩ := by
  have hv : BitVec.ofInt 32 v.toInt = v := BitVec.ofInt_toInt
  rw [Emit.pushconst]
  split
  · next h =>
    cases BitVec.eq_of_toInt_eq (y := (-1 : Word)) h
    rfl
  · split
    · exact congrArg (fun x => exec rt _ ⟨.int x :: s, l, w⟩) hv
    · split
      · next h =>
        exact congrArg (fun x => exec rt _ ⟨.int x :: s, l, w⟩)
          (ofInt_signExtend (n := 8) (by decide) (by decide) v h.1 (Int.lt_add_one_of_le h.2))
      · split
        · next h =>
          exact congrArg (fun x => exec rt _ ⟨.int x :: s, l, w⟩)
            (ofInt_signExtend (n := 16) (by decide) (by decide) v h.1 (Int.lt_add_one_of_le h.2))
        · exact congrArg (fun x => exec rt _ ⟨.int x :: s, l, w⟩) hv

theorem exec_pushconst_u (v : Word) (bs : List Bc) :
    exec rt (lowerAll ra (Emit.pushconst_u v :: bs)) ⟨s, l, w⟩ =
      exec rt (lowerAll ra bs) ⟨.int v :: s, l, w⟩ := by
  have hv : BitVec.ofInt 32 v.toNat = v := by
    rw [BitVec.ofInt_natCast]
    exact (BitVec.ofNat_toNat 32 v).trans (BitVec.setWidth_eq v)
  have hs (h : v.toNat ≤ 32767) : v.toInt = v.toNat := by
    rw [BitVec.toInt_eq_toNat_cond, if_pos (by omega)]
  rw [Emit.pushconst_u]
  split
  · exact congrArg (fun x => exec rt _ ⟨.int x :: s, l, w⟩) hv
  · split
    · next h =>
      have hi := hs (Nat.le_trans h (by decide))
      exact congrArg (fun x => exec rt _ ⟨.int x :: s, l, w⟩)
        (hi ▸ ofInt_signExtend (n := 8) (by decide) (by decide) v (by omega) (by omega))
    · split
      · next h =>
        exact congrArg (fun x => exec rt _ ⟨.int x :: s, l, w⟩)
          (hs h ▸ ofInt_signExtend (n := 16) (by decide) (by decide) v (by omega) (by omega))
      · exact congrArg (fun x => exec rt _ ⟨.int x :: s, l, w⟩) hv

theorem exec_pushconst_l (v : DWord) (bs : List Bc) :
    exec rt (lowerAll ra (Emit.pushconst_l v :: bs)) ⟨s, l, w⟩ =
      exec rt (lowerAll ra bs) ⟨.long v :: s, l, w⟩ :=
  congrArg (fun x => exec rt (lowerAll ra bs) ⟨.long x :: s, l, w⟩)
    ((BitVec.ofNat_toNat 64 v).trans (BitVec.setWidth_eq v))

end

end Bc

end Cibyl
