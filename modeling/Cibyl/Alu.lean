import Cibyl.AluArith
import Cibyl.Decode
import Cibyl.EmitExec
import Cibyl.Instructions

namespace Cibyl
set_option autoImplicit true

open Jvm (Op IntOp Value World Outcome Runtime exec setLocal setLocal_ne)
open Emit (op intOp pushconst pushconst_u pushconst_l)
open Bc (lowerAll)

/-- A register the emitted code can assign. -/
def Writable (ra : RegisterAllocator) (r : Reg) : Prop := ra.regIsAllocated r ∧ Reg.Ordinary r

/-- The code assigns the registers `ws` and changes nothing else, whatever is on the stack. -/
def Assigns (rt : Runtime σ) (ra : RegisterAllocator) (l : Nat → Value) (w : World σ)
    (code : List Bc) (ws : List (Reg × Word)) : Prop :=
  ∀ s, exec rt (lowerAll ra code) ⟨s, l, w⟩ = .ok ⟨s, writeLocals ra l ws, w⟩

theorem setLocal_comm (l : Nat → Value) (a b : Value) (h : n ≠ k) :
    setLocal (setLocal l n a) k b = setLocal (setLocal l k b) n a := by
  funext i
  by_cases hk : i = k
  · subst hk
    rw [Jvm.setLocal_same, setLocal_ne _ _ (Ne.symm h), Jvm.setLocal_same]
  · rw [setLocal_ne _ _ hk]
    by_cases hn : i = n
    · subst hn
      rw [Jvm.setLocal_same, Jvm.setLocal_same]
    · rw [setLocal_ne _ _ hn, setLocal_ne _ _ hn, setLocal_ne _ _ hk]

theorem writeLocals_swap (ra : RegisterAllocator) (l : Nat → Value) (h : r ≠ r') (a b : Word) :
    writeLocals ra l [(r, a), (r', b)] = writeLocals ra l [(r', b), (r, a)] := by
  simp only [writeLocals]
  cases hr : ra.regToLocal r with
  | none => cases ra.regToLocal r' <;> rfl
  | some n =>
    cases hr' : ra.regToLocal r' with
    | none => rfl
    | some k =>
      have hne : n ≠ k := by
        rintro rfl
        exact h (ra.injective hr hr')
      exact setLocal_comm l _ _ hne

theorem writeLocals_append (ra : RegisterAllocator) (l : Nat → Value) (ws vs : List (Reg × Word)) :
    writeLocals ra (writeLocals ra l ws) vs = writeLocals ra l (ws ++ vs) := by
  induction ws generalizing l with
  | nil => rfl
  | cons p ws ih =>
    obtain ⟨r, v⟩ := p
    rw [List.cons_append, writeLocals, writeLocals]
    cases ra.regToLocal r with
    | none => exact ih l
    | some n => exact ih _

section

variable {ra : RegisterAllocator} {rt : Runtime σ} {w : World σ} {regs : RegFile}
  {l : Nat → Value} {insn : Instruction}

theorem exec_pop (hr : Writable ra r) (s : List Value) (v : Word) (bs : List Bc) :
    exec rt (lowerAll ra (.popregister r :: bs)) ⟨.int v :: s, l, w⟩ =
      exec rt (lowerAll ra bs) ⟨s, writeLocals ra l [(r, v)], w⟩ := by
  obtain ⟨n, hn⟩ := Option.isSome_iff_exists.mp hr.1
  rw [Bc.exec_popregister hn hr.2.1, writeLocals, hn]
  rfl

theorem exec_op (h : Op.exec rt o ⟨s, l, w⟩ = .ok f) (bs : List Bc) :
    exec rt (lowerAll ra (op o :: bs)) ⟨s, l, w⟩ = exec rt (lowerAll ra bs) f := by
  rw [Bc.lowerAll_op, Jvm.exec_op, h, Outcome.bind_ok]

theorem exec_intOp (h : IntOp.eval o x y = .ok v) (s : List Value) (bs : List Bc) :
    exec rt (lowerAll ra (intOp o :: bs)) ⟨.int y :: .int x :: s, l, w⟩ =
      exec rt (lowerAll ra bs) ⟨.int v :: s, l, w⟩ :=
  exec_op (Jvm.exec_intOp rt s l w h) bs

/-- Two operands, an operation and the destination: the shape of most instructions. -/
theorem binary_assigns (hl : Holds ra regs l) (ha : Readable ra a) (hb : Readable ra b)
    (hd : Writable ra d) (hv : IntOp.eval o (regs.get a) (regs.get b) = .ok v) :
    Assigns rt ra l w [.pushregister a, .pushregister b, intOp o, .popregister d] [(d, v)] := by
  intro s
  rw [Bc.exec_pushregister hl ha, Bc.exec_pushregister hl hb, exec_intOp hv, exec_pop hd]
  rfl

theorem immediate_assigns (hl : Holds ra regs l) (ha : Readable ra a) (hd : Writable ra d)
    (hv : IntOp.eval o (regs.get a) k = .ok v) :
    Assigns rt ra l w [.pushregister a, pushconst k, intOp o, .popregister d] [(d, v)] := by
  intro s
  rw [Bc.exec_pushregister hl ha, Bc.exec_pushconst, exec_intOp hv, exec_pop hd]
  rfl

theorem move_assigns (hl : Holds ra regs l) (ha : Readable ra a) (hd : Writable ra d) :
    Assigns rt ra l w [.pushregister a, .popregister d] [(d, regs.get a)] := by
  intro s
  rw [Bc.exec_pushregister hl ha, exec_pop hd]
  rfl

theorem Writable.ne_zero (h : Writable ra r) : r ≠ Reg.zero := by
  rintro rfl
  rw [Writable, RegisterAllocator.regIsAllocated, ra.zero_none] at h
  cases h.1

theorem adduCode_assigns (hl : Holds ra regs l) (hs : Readable ra insn.rs)
    (ht : Readable ra insn.rt) (hd : Writable ra insn.rd) :
    Assigns rt ra l w insn.adduCode [(insn.rd, regs.get insn.rs + regs.get insn.rt)] := by
  rw [Instruction.adduCode, if_neg (fun h => hd.ne_zero h.2.2)]
  split
  · exact binary_assigns hl hs ht hd rfl
  · next h =>
    have hz := regs.get_zero
    split
    · next h0 =>
      have hm : Assigns rt ra l w _ _ := move_assigns hl hs hd
      rwa [h0, hz, add_zero]
    · next h0 =>
      have hr : insn.rs = 0 := by
        by_contra hr
        exact h ⟨h0, hr⟩
      have hm : Assigns rt ra l w _ _ := move_assigns hl ht hd
      rwa [hr, hz, zero_add]

theorem subuCode_assigns (hl : Holds ra regs l) (hs : Readable ra insn.rs)
    (ht : Readable ra insn.rt) (hd : Writable ra insn.rd) :
    Assigns rt ra l w insn.subuCode [(insn.rd, regs.get insn.rs - regs.get insn.rt)] := by
  rw [Instruction.subuCode]
  split
  · next h =>
    intro s
    rw [h, regs.get_zero, zero_sub, Bc.exec_pushregister hl ht,
      exec_op (Jvm.exec_intUn ..), exec_pop hd]
    rfl
  · exact binary_assigns hl hs ht hd rfl

theorem complement_tail (hd : Writable ra d) (s : List Value) (x : Word) :
    exec rt (lowerAll ra [pushconst (-1), intOp .ixor, .popregister d]) ⟨.int x :: s, l, w⟩ =
      .ok ⟨s, writeLocals ra l [(d, ~~~x)], w⟩ := by
  have hx : IntOp.eval .ixor x (-1) = .ok (~~~x) := congrArg Except.ok (not_eq_xor x)
  rw [Bc.exec_pushconst, exec_intOp hx, exec_pop hd]
  rfl

theorem norCode_assigns (hl : Holds ra regs l) (hs : Readable ra insn.rs)
    (ht : Readable ra insn.rt) (hd : Writable ra insn.rd) :
    Assigns rt ra l w insn.norCode [(insn.rd, ~~~(regs.get insn.rs ||| regs.get insn.rt))] := by
  have hz := regs.get_zero
  intro s
  rw [Instruction.norCode]
  split
  · next h =>
    split
    · simp only [List.cons_append, List.nil_append]
      rw [Bc.exec_pushregister hl hs, Bc.exec_pushregister hl ht, exec_intOp rfl,
        complement_tail hd]
    · next hn =>
      split
      · next h0 =>
        have hr : insn.rt = 0 := by
          by_contra hr
          exact hn ⟨h0, hr⟩
        have ho : regs.get insn.rs ||| regs.get insn.rt = regs.get insn.rs := by
          rw [hr, hz]
          exact BitVec.or_zero
        simp only [List.cons_append, List.nil_append]
        rw [Bc.exec_pushregister hl hs, complement_tail hd, ho]
      · next h0 =>
        have hr : insn.rs = 0 := by
          by_contra hr
          exact h0 hr
        have ho : regs.get insn.rs ||| regs.get insn.rt = regs.get insn.rt := by
          rw [hr, hz]
          exact BitVec.zero_or
        simp only [List.cons_append, List.nil_append]
        rw [Bc.exec_pushregister hl ht, complement_tail hd, ho]
  · next h =>
    obtain ⟨hr, hr'⟩ := not_or.mp h
    have ho : ~~~(regs.get insn.rs ||| regs.get insn.rt) = (-1 : Word) := by
      rw [not_not.mp hr, not_not.mp hr', hz]
      rfl
    simp only [List.cons_append, List.nil_append]
    rw [Bc.exec_pushconst, exec_pop hd, ho]
    rfl

theorem shiftCode_assigns (hl : Holds ra regs l) (ht : Readable ra insn.rt)
    (hd : Writable ra insn.rd) (hv : IntOp.eval o (regs.get insn.rt) insn.extra = .ok v) :
    Assigns rt ra l w (insn.shiftCode o) [(insn.rd, v)] := by
  rw [Instruction.shiftCode, if_neg (fun h => hd.ne_zero h.2.2)]
  exact immediate_assigns hl ht hd hv

theorem addiCode_assigns (hl : Holds ra regs l) (hs : Readable ra insn.rs)
    (hd : Writable ra insn.rt) (he : signext_16 insn.extra = insn.extra) :
    Assigns rt ra l w insn.addiCode [(insn.rt, regs.get insn.rs + insn.extra)] := by
  rw [Instruction.addiCode, he]
  split
  · next h =>
    intro s
    rw [h, regs.get_zero, zero_add, Bc.exec_pushconst, exec_pop hd]
    rfl
  · split
    · next h =>
      intro s
      obtain ⟨n, hn⟩ := Option.isSome_iff_exists.mp hd.1
      have hi : (BitVec.ofInt 16 insn.extra.toInt).signExtend 32 = insn.extra :=
        Bc.ofInt_signExtend (by decide) (by decide) _ h.2.1 (Int.lt_add_one_of_le h.2.2)
      rw [Bc.exec_iinc hl hn hd.2, hi, writeLocals, hn, h.1]
      rfl
    · exact immediate_assigns hl hs hd rfl

theorem luiCode_assigns (hd : Writable ra insn.rt) (he : insn.extra = v) :
    Assigns rt ra l w insn.luiCode [(insn.rt, v <<< 16)] := by
  intro s
  rw [Instruction.luiCode, he, Bc.exec_pushconst_u, exec_pop hd]
  rfl

/-- Popping a `long` to two registers. -/
theorem splitLong_exec (hh : Writable ra high) (hw : Writable ra low) (hne : high ≠ low)
    (s : List Value) (v : DWord) :
    exec rt (lowerAll ra (Instruction.splitLong high low)) ⟨.long v :: s, l, w⟩ =
      .ok ⟨s, writeLocals ra l [(low, v.extractLsb' 0 32), (high, v.extractLsb' 32 32)], w⟩ := by
  rw [Instruction.splitLong, exec_op (Jvm.exec_dup2_long ..), Bc.exec_pushconst,
    exec_op (Jvm.exec_longShift ..), exec_op (Jvm.exec_l2i ..), exec_pop hh,
    exec_op (Jvm.exec_l2i ..), exec_pop hw, writeLocals_append, Jvm.LongShift.eval,
      lushr_32, l2i_eq,
    ← writeLocals_swap ra l hne]
  rfl

theorem lessCode_exec (hd : Writable ra d) (s : List Value) (x y : DWord) :
    exec rt (lowerAll ra (Instruction.lessCode d)) ⟨.long y :: .long x :: s, l, w⟩ =
      .ok ⟨s, writeLocals ra l [(d, ishr (Jvm.lcmp x y + 1) 1)], w⟩ := by
  rw [Instruction.lessCode, exec_op (Jvm.exec_lcmp ..), Bc.exec_pushconst, exec_intOp rfl,
    Bc.exec_pushconst, exec_intOp rfl, exec_pop hd]
  rfl

theorem pushUnsigned_exec (hl : Holds ra regs l) (hr : Readable ra r) (s : List Value)
    (bs : List Bc) :
    exec rt (lowerAll ra (Instruction.pushUnsigned r ++ bs)) ⟨s, l, w⟩ =
      exec rt (lowerAll ra bs) ⟨.long ((regs.get r).setWidth 64) :: s, l, w⟩ := by
  have hv : Jvm.LongOp.eval .land ((regs.get r).signExtend 64) 0xffffffff =
      .ok ((regs.get r).setWidth 64) := congrArg Except.ok (signExtend_and_mask _)
  rw [Instruction.pushUnsigned, List.cons_append, List.cons_append, List.cons_append,
    List.cons_append, List.nil_append, Bc.exec_pushregister hl hr, exec_op (Jvm.exec_i2l ..),
    Bc.exec_pushconst_l, exec_op (Jvm.exec_longOp rt _ _ _ hv)]

theorem sltCode_assigns (hl : Holds ra regs l) (hs : Readable ra insn.rs)
    (ht : Readable ra insn.rt) (hd : Writable ra insn.rd) :
    Assigns rt ra l w insn.sltCode
      [(insn.rd, Arch.flag ((regs.get insn.rs).toInt < (regs.get insn.rt).toInt))] := by
  intro s
  rw [Instruction.sltCode, List.cons_append, List.cons_append, List.cons_append,
    List.cons_append, List.nil_append, Bc.exec_pushregister hl ht, exec_op (Jvm.exec_i2l ..),
    Bc.exec_pushregister hl hs, exec_op (Jvm.exec_i2l ..), lessCode_exec hd, less_signed]

theorem sltuCode_assigns (hl : Holds ra regs l) (hs : Readable ra insn.rs)
    (ht : Readable ra insn.rt) (hd : Writable ra insn.rd) :
    Assigns rt ra l w insn.sltuCode
      [(insn.rd, Arch.flag ((regs.get insn.rs).toNat < (regs.get insn.rt).toNat))] := by
  intro s
  rw [Instruction.sltuCode, List.append_assoc, pushUnsigned_exec hl ht, pushUnsigned_exec hl hs,
    lessCode_exec hd, less_unsigned]

theorem sltiCode_assigns (hl : Holds ra regs l) (hs : Readable ra insn.rs)
    (hd : Writable ra insn.rt) :
    Assigns rt ra l w insn.sltiCode
      [(insn.rt, Arch.flag ((regs.get insn.rs).toInt < insn.extra.toInt))] := by
  intro s
  rw [Instruction.sltiCode, List.cons_append, List.cons_append, List.cons_append,
    List.cons_append, List.nil_append, Bc.exec_pushconst, exec_op (Jvm.exec_i2l ..),
    Bc.exec_pushregister hl hs, exec_op (Jvm.exec_i2l ..), lessCode_exec hd, less_signed]

theorem sltiuCode_assigns (hl : Holds ra regs l) (hs : Readable ra insn.rs)
    (hd : Writable ra insn.rt) :
    Assigns rt ra l w insn.sltiuCode
      [(insn.rt, Arch.flag ((regs.get insn.rs).toNat < insn.extra.toNat))] := by
  intro s
  rw [Instruction.sltiuCode, List.append_assoc, List.cons_append, List.nil_append,
    Bc.exec_pushconst_l, pushUnsigned_exec hl hs, lessCode_exec hd, less_unsigned]

theorem multu_assigns (hl : Holds ra regs l) (hs : Readable ra insn.rs) (ht : Readable ra insn.rt)
    (hlo : Writable ra Reg.lo) (hhi : Writable ra Reg.hi) :
    Assigns rt ra l w (insn.mulDivCode .multu)
      [(Reg.lo, Arch.lowWord ((regs.get insn.rs).toNat * (regs.get insn.rt).toNat)),
       (Reg.hi, Arch.highWord ((regs.get insn.rs).toNat * (regs.get insn.rt).toNat))] := by
  intro s
  rw [Instruction.mulDivCode, List.cons_append, List.cons_append, List.cons_append,
    List.nil_append, Bc.exec_pushregister hl hs, Bc.exec_pushregister hl ht,
    exec_op (Jvm.exec_multu ..), splitLong_exec hhi hlo (by decide), multu_eq, low_ofInt,
    high_ofInt]

theorem divu_assigns (hl : Holds ra regs l) (hs : Readable ra insn.rs) (ht : Readable ra insn.rt)
    (hlo : Writable ra Reg.lo) (hhi : Writable ra Reg.hi) (hz : regs.get insn.rt ≠ 0) :
    Assigns rt ra l w (insn.mulDivCode .divu)
      [(Reg.lo, BitVec.ofNat 32 ((regs.get insn.rs).toNat / (regs.get insn.rt).toNat)),
       (Reg.hi, BitVec.ofNat 32 ((regs.get insn.rs).toNat % (regs.get insn.rt).toNat))] := by
  intro s
  rw [Instruction.mulDivCode, List.cons_append, List.cons_append, List.cons_append,
    List.nil_append, Bc.exec_pushregister hl hs, Bc.exec_pushregister hl ht,
    exec_op (Jvm.exec_divu rt _ _ _ (divu_eq _ hz)), splitLong_exec hhi hlo (by decide),
    low_append, high_append]

theorem mult_low_assigns (hl : Holds ra regs l) (hs : Readable ra insn.rs)
    (ht : Readable ra insn.rt) (hlo : Writable ra Reg.lo) (hu : insn.usingHi env = false) :
    Assigns rt ra l w (insn.multCode env)
      [(Reg.lo, Arch.lowWord ((regs.get insn.rs).toInt * (regs.get insn.rt).toInt))] := by
  rw [Instruction.multCode, hu, ← imul_eq]
  exact binary_assigns hl hs ht hlo rfl

theorem mult_assigns (hl : Holds ra regs l) (hs : Readable ra insn.rs) (ht : Readable ra insn.rt)
    (hlo : Writable ra Reg.lo) (hhi : Writable ra Reg.hi) (hu : insn.usingHi env = true) :
    Assigns rt ra l w (insn.multCode env)
      [(Reg.lo, Arch.lowWord ((regs.get insn.rs).toInt * (regs.get insn.rt).toInt)),
       (Reg.hi, Arch.highWord ((regs.get insn.rs).toInt * (regs.get insn.rt).toInt))] := by
  have hv : Jvm.LongOp.eval .lmul ((regs.get insn.rs).signExtend 64)
      ((regs.get insn.rt).signExtend 64) = .ok _ := congrArg Except.ok (lmul_eq _ _)
  intro s
  rw [Instruction.multCode, hu, if_pos rfl]
  simp only [List.cons_append, List.nil_append]
  rw [Bc.exec_pushregister hl hs, exec_op (Jvm.exec_i2l ..), Bc.exec_pushregister hl ht,
    exec_op (Jvm.exec_i2l ..), exec_op (Jvm.exec_longOp rt _ _ _ hv),
    splitLong_exec hhi hlo (by decide), low_ofInt, high_ofInt]

theorem idiv_ok (x : Word) (hz : y ≠ 0) :
    IntOp.eval .idiv x y = .ok (Arch.lowWord (x.toInt.tdiv y.toInt)) := by
  rw [← idiv_eq]
  exact if_neg hz

theorem irem_ok (x : Word) (hz : y ≠ 0) :
    IntOp.eval .irem x y = .ok (Arch.lowWord (x.toInt.tmod y.toInt)) := by
  rw [← irem_eq]
  exact if_neg hz

theorem div_low_assigns (hl : Holds ra regs l) (hs : Readable ra insn.rs)
    (ht : Readable ra insn.rt) (hlo : Writable ra Reg.lo) (hz : regs.get insn.rt ≠ 0)
    (hu : insn.usingHi env = false) :
    Assigns rt ra l w (insn.divCode env)
      [(Reg.lo, Arch.lowWord ((regs.get insn.rs).toInt.tdiv (regs.get insn.rt).toInt))] := by
  rw [Instruction.divCode, hu]
  exact binary_assigns hl hs ht hlo (idiv_ok _ hz)

theorem div_assigns (hl : Holds ra regs l) (hs : Readable ra insn.rs) (ht : Readable ra insn.rt)
    (hlo : Writable ra Reg.lo) (hhi : Writable ra Reg.hi) (hz : regs.get insn.rt ≠ 0)
    (hu : insn.usingHi env = true) :
    Assigns rt ra l w (insn.divCode env)
      [(Reg.lo, Arch.lowWord ((regs.get insn.rs).toInt.tdiv (regs.get insn.rt).toInt)),
       (Reg.hi, Arch.lowWord ((regs.get insn.rs).toInt.tmod (regs.get insn.rt).toInt))] := by
  intro s
  rw [Instruction.divCode, hu, if_pos rfl, Bc.exec_pushregister hl hs,
    Bc.exec_pushregister hl ht, exec_op (Jvm.exec_dup2_int rt _ _ _ _ rfl),
    exec_intOp (idiv_ok _ hz), exec_pop hlo, exec_intOp (irem_ok _ hz), exec_pop hhi,
    writeLocals_append]
  rfl

end

end Cibyl
