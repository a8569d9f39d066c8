import Cibyl.LongReturn

namespace Cibyl
set_option autoImplicit true

open Jvm (Value World Runtime exec LongOp LongShift)
open Bc (lowerAll)
open Emit (op)

theorem shiftLeft_ofInt (x : DWord) (n : Nat) : x <<< n = BitVec.ofInt 64 (x.toInt * 2 ^ n) := by
  have hp : BitVec.ofInt 64 (2 ^ n) = BitVec.twoPow 64 n := by
    apply BitVec.eq_of_toNat_eq
    rw [BitVec.toNat_ofInt, BitVec.toNat_twoPow]
    exact_mod_cast rfl
  rw [BitVec.ofInt_mul, BitVec.ofInt_toInt, hp, BitVec.shiftLeft_eq_mul_twoPow]

theorem sshiftRight_ofInt (x : DWord) (n : Nat) :
    x.sshiftRight n = BitVec.ofInt 64 (x.toInt / 2 ^ n) := by
  rw [← BitVec.ofInt_toInt (x := x.sshiftRight n), BitVec.toInt_sshiftRight,
    Int.shiftRight_eq_div_pow]
  norm_cast

theorem sdiv_ofInt (x y : DWord) : x.sdiv y = BitVec.ofInt 64 (x.toInt.tdiv y.toInt) := by
  apply BitVec.eq_of_toInt_eq
  rw [BitVec.toInt_sdiv, BitVec.toInt_ofInt]

theorem srem_ofInt (x y : DWord) : x.srem y = BitVec.ofInt 64 (x.toInt.tmod y.toInt) := by
  rw [← BitVec.toInt_srem, BitVec.ofInt_toInt]

/-- The words that a left shift of the sign of the low word into the high one does not spoil. -/
theorem shiftLeft_fill_iff (high low : Word) (n : Nat) :
    ((-1 : Word) ++ low) <<< n = (high ++ low) <<< n ↔ high <<< n = (-1 : Word) <<< n := by
  have hb {x y : Word} : x <<< n = y <<< n ↔ (x ++ low) <<< n = (y ++ low) <<< n := by
    constructor
    · intro h
      apply BitVec.eq_of_getLsbD_eq
      intro i hi
      have hj := congrArg (fun v => v.getLsbD (i - 32)) h
      simp only [BitVec.getLsbD_shiftLeft, BitVec.getLsbD_append] at hj ⊢
      grind
    · intro h
      apply BitVec.eq_of_getLsbD_eq
      intro i hi
      have hj := congrArg (fun v => v.getLsbD (32 + i)) h
      simp only [BitVec.getLsbD_shiftLeft, BitVec.getLsbD_append] at hj ⊢
      grind
  exact hb.symm.trans eq_comm

theorem append_msb (high low : Word) : (high ++ low).msb = high.getLsbD 31 := by
  rw [BitVec.msb_eq_getLsbD_last, BitVec.getLsbD_append]
  rfl

/-- A right shift gets rid of the spoilt word only as far as it shifts it out. -/
theorem sshiftRight_fill_iff (high low : Word) (n : Nat) :
    ((-1 : Word) ++ low).sshiftRight n = (high ++ low).sshiftRight n ↔
      high.sshiftRight (n - 32) = -1 := by
  have hones : (-1 : Word) = BitVec.allOnes 32 := rfl
  have hlast : high.msb = high.getLsbD 31 := BitVec.msb_eq_getLsbD_last high
  constructor
  · intro h
    apply BitVec.eq_of_getLsbD_eq
    intro i hi
    have hj := congrArg (fun v => v.getLsbD (32 - n + i)) h
    simp only [BitVec.getLsbD_sshiftRight, BitVec.getLsbD_append, append_msb, hones,
      BitVec.getLsbD_allOnes, hlast] at hj ⊢
    grind
  · intro h
    apply BitVec.eq_of_getLsbD_eq
    intro i hi
    have hj := congrArg (fun v => v.getLsbD (n + i - 32 - (n - 32))) h
    have hm := congrArg (fun v => v.getLsbD 31) h
    simp only [BitVec.getLsbD_sshiftRight, BitVec.getLsbD_append, append_msb, hones,
      BitVec.getLsbD_allOnes, hlast] at hj hm ⊢
    grind

namespace Builtin

/-- The builtins on 64-bit operands, under their names. -/
def longBuiltins : List (String × Builtin) :=
  [("__divdi3", .mulDiv .ldiv), ("__moddi3", .mulDiv .lrem), ("__ashldi3", .shift .lshl),
   ("__ashrdi3", .shift .lshr)]

theorem longBuiltins_match : ∀ p ∈ longBuiltins, ∀ inlines, matchName inlines p.1 = some p.2 := by
  decide

/-- The number that the builtin stands for, as the integers have it, of the operands in A0:A1 and
A2:A3. -/
def exact (x₀ x₁ y₀ y₁ : Word) : Builtin → Int
  | .mulDiv .ldiv => (x₀ ++ x₁).toInt.tdiv (y₀ ++ y₁).toInt
  | .mulDiv .lrem => (x₀ ++ x₁).toInt.tmod (y₀ ++ y₁).toInt
  | .shift .lshl => (x₀ ++ x₁).toInt * 2 ^ y₀.toNat
  | .shift .lshr => (x₀ ++ x₁).toInt / 2 ^ y₀.toNat
  | _ => 0

/-- What the code computes. -/
def computed (x₀ x₁ y₀ y₁ : Word) : Builtin → DWord
  | .mulDiv .ldiv => (packLong x₀ x₁).sdiv (packLong y₀ y₁)
  | .mulDiv .lrem => (packLong x₀ x₁).srem (packLong y₀ y₁)
  | .shift bc => bc.eval (packLong x₀ x₁) y₀
  | _ => 0

/-- The second operand is one the builtin is defined for. -/
def Defined (y₀ y₁ : Word) : Builtin → Prop
  | .mulDiv _ => y₀ ++ y₁ ≠ (0 : DWord)
  | _ => y₀.toNat < 64

theorem computed_mulDiv (hx : Wide x₀ x₁) (hy : Wide y₀ y₁) (hb : bc = .ldiv ∨ bc = .lrem) :
    computed x₀ x₁ y₀ y₁ (.mulDiv bc) = BitVec.ofInt 64 (exact x₀ x₁ y₀ y₁ (.mulDiv bc)) := by
  rcases hb with rfl | rfl
  · rw [computed, exact, packLong_of_wide hx, packLong_of_wide hy, sdiv_ofInt]
  · rw [computed, exact, packLong_of_wide hx, packLong_of_wide hy, srem_ofInt]

theorem packLong_eq_append_iff (high low : Word) :
    packLong high low = high ++ low ↔ Wide high low := by
  constructor
  · intro h
    rw [← packLong_high_iff, h, high_append]
  · intro h
    exact packLong_of_wide h

theorem computed_shl (x₀ x₁ y₀ y₁ : Word) (hs : y₀.toNat < 64) :
    computed x₀ x₁ y₀ y₁ (.shift .lshl) = BitVec.ofInt 64 (exact x₀ x₁ y₀ y₁ (.shift .lshl)) ↔
      0 ≤ x₁.toInt ∨ x₀ <<< y₀.toNat = (-1 : Word) <<< y₀.toNat := by
  rw [computed, exact, ← shiftLeft_ofInt, LongShift.eval, lshl, Nat.mod_eq_of_lt hs]
  rcases Int.lt_or_le x₁.toInt 0 with hn | hn
  · rw [packLong_of_neg x₀ hn, shiftLeft_fill_iff]
    exact (or_iff_right (Int.not_le.mpr hn)).symm
  · rw [packLong_of_nonneg x₀ hn]
    exact iff_of_true rfl (.inl hn)

theorem computed_shr (x₀ x₁ y₀ y₁ : Word) (hs : y₀.toNat < 64) :
    computed x₀ x₁ y₀ y₁ (.shift .lshr) = BitVec.ofInt 64 (exact x₀ x₁ y₀ y₁ (.shift .lshr)) ↔
      0 ≤ x₁.toInt ∨ x₀.sshiftRight (y₀.toNat - 32) = -1 := by
  rw [computed, exact, ← sshiftRight_ofInt, LongShift.eval, lshr, Nat.mod_eq_of_lt hs]
  rcases Int.lt_or_le x₁.toInt 0 with hn | hn
  · rw [packLong_of_neg x₀ hn, sshiftRight_fill_iff]
    exact (or_iff_right (Int.not_le.mpr hn)).symm
  · rw [packLong_of_nonneg x₀ hn]
    exact iff_of_true rfl (.inl hn)

theorem wide_neg_one (low : Word) : Wide (-1) low := .inr rfl

/-- An operand whose low word is negative is read as that word. -/
theorem packLong_toInt (high : Word) (h : low.toInt < 0) :
    (packLong high low).toInt = low.toInt := by
  have he : packLong high low = low.signExtend 64 := by
    have hm : low.msb = true := (BitVec.msb_eq_toInt ..).trans (decide_eq_true h)
    have hones : (-1 : Word) = BitVec.allOnes 32 := rfl
    rw [packLong_of_neg high h, hones]
    apply BitVec.eq_of_getLsbD_eq
    intro i hi
    simp only [BitVec.getLsbD_append, BitVec.getLsbD_signExtend, BitVec.getLsbD_allOnes, hm]
    grind
  rw [he, BitVec.toInt_signExtend_of_le (by decide)]

theorem append_toInt (high low : Word) :
    (high ++ low).toInt = high.toInt * 2 ^ 32 + low.toNat := by
  have h₁ := high.isLt
  have h₂ := low.isLt
  rw [BitVec.toInt_eq_toNat_cond, BitVec.toInt_eq_toNat_cond, BitVec.toNat_append,
    ← Nat.shiftLeft_add_eq_or_of_lt h₂, Nat.shiftLeft_eq]
  split <;> split <;> omega

/-- A divisor that the code reads wrong is at least as large as what it reads. -/
theorem append_of_narrow (h : ¬ Wide high low) :
    low.toInt < 0 ∧ -2 ^ 31 ≤ low.toInt ∧
      ((high ++ low).toInt ≤ low.toInt - 2 ^ 32 ∨ low.toInt + 2 ^ 32 ≤ (high ++ low).toInt) := by
  obtain ⟨hl, hh⟩ := not_or.mp h
  have h₁ := low.isLt
  have h₂ := BitVec.toInt_eq_toNat_cond low
  have h₃ : high.toInt ≠ -1 := by
    intro he
    exact hh (BitVec.eq_of_toInt_eq he)
  rw [append_toInt]
  split at h₂ <;> refine ⟨?_, ?_, ?_⟩ <;> omega

theorem tdiv_eq_zero_of_abs (h : x.natAbs < y.natAbs) : Int.tdiv x y = 0 := by
  rcases Int.natAbs_eq x with hx | hx <;> rcases Int.natAbs_eq y with hy | hy <;> rw [hx, hy]
  · exact Int.tdiv_eq_zero_of_lt (by omega) (by omega)
  · rw [Int.tdiv_neg, Int.tdiv_eq_zero_of_lt (by omega) (by omega), Int.neg_zero]
  · rw [Int.neg_tdiv, Int.tdiv_eq_zero_of_lt (by omega) (by omega), Int.neg_zero]
  · rw [Int.neg_tdiv, Int.tdiv_neg, Int.tdiv_eq_zero_of_lt (by omega) (by omega)]
    rfl

theorem tmod_eq_self_of_abs (h : x.natAbs < y.natAbs) : Int.tmod x y = x := by
  rw [Int.tmod_def, tdiv_eq_zero_of_abs h, Int.mul_zero, Int.sub_zero]

/-- The divisors that the code divides by as the builtin does. -/
def DivisorKept (y₀ y₁ : Word) : LongOp → Prop
  | .lrem => Wide y₀ y₁ ∨ y₀ = 0 ∧ y₁ = 0x80000000
  | _ => Wide y₀ y₁

/-- The remainder for the one misread divisor is the one for its negative. -/
theorem computed_kept (hx : Wide x₀ x₁) (hy : DivisorKept y₀ y₁ bc) (hb : bc = .ldiv ∨ bc = .lrem) :
    computed x₀ x₁ y₀ y₁ (.mulDiv bc) = BitVec.ofInt 64 (exact x₀ x₁ y₀ y₁ (.mulDiv bc)) := by
  rcases hb with rfl | rfl
  · exact computed_mulDiv hx hy (.inl rfl)
  · rcases hy with hy | ⟨rfl, rfl⟩
    · exact computed_mulDiv hx hy (.inr rfl)
    · have hp : (packLong 0 0x80000000).toInt = -2 ^ 31 := by decide
      have hd : ((0 : Word) ++ (0x80000000 : Word)).toInt = 2 ^ 31 := by decide
      rw [computed, exact, packLong_of_wide hx, srem_ofInt, hp, Int.tmod_neg, hd]

/-- A dividend that the code misreads goes wrong with this divisor. -/
def badDivisor : LongOp → Word × Word
  | .lrem => (0x80000000, 0)
  | _ => (0, 1)

theorem badDivisor_kept (bc : LongOp) : (badDivisor bc).1 ++ (badDivisor bc).2 ≠ (0 : DWord) ∧
    DivisorKept (badDivisor bc).1 (badDivisor bc).2 bc := by
  cases bc <;> exact ⟨by decide, by simp [badDivisor, DivisorKept, Wide]⟩

theorem dividend_wide (hb : bc = .ldiv ∨ bc = .lrem)
    (h : computed x₀ x₁ (badDivisor bc).1 (badDivisor bc).2 (.mulDiv bc) =
      BitVec.ofInt 64 (exact x₀ x₁ (badDivisor bc).1 (badDivisor bc).2 (.mulDiv bc))) :
    Wide x₀ x₁ := by
  by_contra hn
  obtain ⟨hneg, hmin, hfar⟩ := append_of_narrow hn
  refine hn ((packLong_eq_append_iff x₀ x₁).mp ?_)
  rcases hb with rfl | rfl
  · have hb : badDivisor .ldiv = (0, 1) := rfl
    have hp : (packLong 0 1).toInt = 1 := by decide
    have hd : ((0 : Word) ++ (1 : Word)).toInt = 1 := by decide
    rwa [computed, exact, sdiv_ofInt, hb, hp, hd, Int.tdiv_one, Int.tdiv_one,
      BitVec.ofInt_toInt, BitVec.ofInt_toInt] at h
  · have hb : badDivisor .lrem = (0x80000000, 0) := rfl
    have hp : (packLong 0x80000000 0).toInt = -2 ^ 63 := by decide
    have hd : ((0x80000000 : Word) ++ (0 : Word)).toInt = -2 ^ 63 := by decide
    have hx := packLong_toInt x₀ hneg
    have hlt : (x₀ ++ x₁).toInt.natAbs < (-2 ^ 63 : Int).natAbs := by
      have h₀ := x₀.isLt
      have h₁ := BitVec.toInt_eq_toNat_cond x₀
      have h₂ := BitVec.toInt_eq_toNat_cond x₁
      have h₃ := x₁.isLt
      rw [append_toInt]
      split at h₁ <;> split at h₂ <;> omega
    rwa [computed, exact, srem_ofInt, hb, hp, hd, tmod_eq_self_of_abs hlt,
      tmod_eq_self_of_abs (by omega), BitVec.ofInt_toInt, BitVec.ofInt_toInt] at h

/-- A divisor that the code misreads goes wrong with the number it reads as the dividend. -/
theorem divisor_kept (hb : bc = .ldiv ∨ bc = .lrem)
    (h : computed (-1) y₁ y₀ y₁ (.mulDiv bc) =
      BitVec.ofInt 64 (exact (-1) y₁ y₀ y₁ (.mulDiv bc))) : DivisorKept y₀ y₁ bc := by
  by_contra hn
  have hw : ¬ Wide y₀ y₁ := by
    rcases hb with rfl | rfl
    · exact hn
    · exact fun hw => hn (.inl hw)
  obtain ⟨hneg, hmin, hfar⟩ := append_of_narrow hw
  have hp := packLong_toInt y₀ hneg
  have hx := packLong_toInt (-1) hneg
  have hxe : (-1 : Word) ++ y₁ = packLong (-1) y₁ := (packLong_of_wide (wide_neg_one y₁)).symm
  have hcase : y₁.toInt.natAbs < (y₀ ++ y₁).toInt.natAbs ∨
      y₁.toInt = -2 ^ 31 ∧ (y₀ ++ y₁).toInt = 2 ^ 31 := by
    rcases hfar with hfar | hfar <;> omega
  rcases hb with rfl | rfl
  · rw [computed, exact, sdiv_ofInt, hxe, hx, hp, Int.tdiv_self (by omega)] at h
    rcases hcase with hlt | ⟨h₁, h₂⟩
    · rw [tdiv_eq_zero_of_abs hlt] at h
      exact absurd h (by decide)
    · rw [h₁, h₂] at h
      exact absurd h (by decide)
  · rw [computed, exact, srem_ofInt, hxe, hx, hp, Int.tmod_self] at h
    rcases hcase with hlt | ⟨h₁, h₂⟩
    · rw [tmod_eq_self_of_abs hlt, ← hx, BitVec.ofInt_toInt] at h
      have hz := congrArg BitVec.toInt h
      rw [hx] at hz
      exact absurd hz.symm (Int.ne_of_lt hneg)
    · refine hn (.inr ?_)
      have hy₁ : y₁ = 0x80000000 := BitVec.eq_of_toInt_eq h₁
      refine ⟨BitVec.eq_of_toInt_eq ?_, hy₁⟩
      have hn : (0x80000000 : Word).toNat = 2147483648 := rfl
      rw [append_toInt, hy₁, hn] at h₂
      have h₀ : (0 : Word).toInt = 0 := rfl
      omega

end Builtin

open Builtin

/-- The code of the call leaves the number in V0 and V1 and the stack as it was. -/
def LeavesExact (rt : Runtime σ) (ra : RegisterAllocator) (l : Nat → Value) (w : World σ)
    (code : List Bc) (r : Int) : Prop :=
  ∀ s, ∃ l', exec rt (lowerAll ra code) ⟨s, l, w⟩ = .ok ⟨s, l', w⟩ ∧
    Reads ra l' Reg.v0 (Arch.highWord r) ∧ Reads ra l' Reg.v1 (Arch.lowWord r)

section

variable {ra : RegisterAllocator} {rt : Runtime σ} {regs : RegFile} {l : Nat → Value} {w : World σ}

theorem push64_exec (hl : Holds ra regs l) (hlow : Readable ra low) (hhigh : Readable ra high)
    (s : List Value) (bs : List Bc) :
    exec rt (lowerAll ra (push64BitFrom32BitRegs low high ++ bs)) ⟨s, l, w⟩ =
      exec rt (lowerAll ra bs) ⟨.long (packLong (regs.get high) (regs.get low)) :: s, l, w⟩ := by
  have hor : LongOp.eval .lor ((regs.get low).signExtend 64)
      (lshl ((regs.get high).signExtend 64) 32) =
        .ok (packLong (regs.get high) (regs.get low)) :=
    congrArg Except.ok (BitVec.or_comm ..)
  simp only [push64BitFrom32BitRegs, List.cons_append, List.nil_append]
  rw [Bc.exec_pushregister hl hlow, exec_op (Jvm.exec_i2l ..), Bc.exec_pushregister hl hhigh,
    exec_op (Jvm.exec_i2l ..), Bc.exec_pushconst, exec_op (Jvm.exec_longShift ..),
    LongShift.eval, exec_op (Jvm.exec_longOp rt _ _ _ hor)]

theorem highWord_lowWord (r : Int) : Arch.highWord r ++ Arch.lowWord r = BitVec.ofInt 64 r := by
  rw [← high_ofInt, ← low_ofInt, append_halves]

/-- Code that ends in the split of a `long` is exact when the `long` is the number. -/
theorem leavesExact_iff (h₀ : Writable ra Reg.v0) (h₁ : Writable ra Reg.v1) {code : List Bc}
    {v : DWord} (hc : ∀ s, exec rt (lowerAll ra code) ⟨s, l, w⟩ =
      exec rt (lowerAll ra (Instruction.splitLong Reg.v0 Reg.v1)) ⟨.long v :: s, l, w⟩) :
    LeavesExact rt ra l w code r ↔ v = BitVec.ofInt 64 r := by
  have hsplit (s : List Value) : exec rt (lowerAll ra (Instruction.splitLong Reg.v0 Reg.v1))
      ⟨.long v :: s, l, w⟩ = .ok ⟨s, writeLocals ra l
        [(Reg.v1, v.extractLsb' 0 32), (Reg.v0, v.extractLsb' 32 32)], w⟩ :=
    splitLong_exec h₀ h₁ (by decide) s v
  have hr₀ := reads_writeLocals h₀ l (Reg.v1, v.extractLsb' 0 32) (v.extractLsb' 32 32)
  have hr₁ := reads_writeLocals h₁ l (Reg.v0, v.extractLsb' 32 32) (v.extractLsb' 0 32)
  rw [writeLocals_swap _ _ (by decide)] at hr₁
  constructor
  · intro h
    obtain ⟨l', he, hh, hw⟩ := h []
    rw [hc, hsplit] at he
    cases he
    rw [← append_halves v, hr₀.unique hh, hr₁.unique hw, highWord_lowWord]
  · rintro rfl s
    rw [high_ofInt, low_ofInt] at *
    exact ⟨_, (hc s).trans (hsplit s), hr₀, hr₁⟩

theorem packLong_ne_zero (h : high ++ low ≠ (0 : DWord)) : packLong high low ≠ 0 := by
  intro hz
  have hlow : low = 0 := (packLong_low high low).symm.trans (congrArg (·.extractLsb' 0 32) hz)
  have hw : Wide high low := .inl (hlow ▸ Int.le_refl _)
  exact h (packLong_of_wide hw ▸ hz)

theorem longBuiltin_exec (hb : b ∈ longBuiltins.map Prod.snd) (hl : Holds ra regs l)
    (hr : ∀ r ∈ [Reg.a0, Reg.a1, Reg.a2, Reg.a3], Readable ra r)
    (hd : b.Defined (regs.get Reg.a2) (regs.get Reg.a3)) (start stop target : Word)
    (s : List Value) :
    exec rt (lowerAll ra (b.code start stop target)) ⟨s, l, w⟩ =
      exec rt (lowerAll ra (Instruction.splitLong Reg.v0 Reg.v1))
        ⟨.long (b.computed (regs.get Reg.a0) (regs.get Reg.a1) (regs.get Reg.a2)
          (regs.get Reg.a3)) :: s, l, w⟩ := by
  simp only [List.mem_cons, List.not_mem_nil, or_false, forall_eq_or_imp, forall_eq] at hr
  obtain ⟨h₀, h₁, h₂, h₃⟩ := hr
  simp only [longBuiltins, List.map_cons, List.map_nil, List.mem_cons, List.not_mem_nil,
    or_false] at hb
  rcases hb with rfl | rfl | rfl | rfl
  · have hop : LongOp.eval .ldiv (packLong (regs.get Reg.a0) (regs.get Reg.a1))
        (packLong (regs.get Reg.a2) (regs.get Reg.a3)) = .ok _ := if_neg (packLong_ne_zero hd)
    rw [code, List.append_assoc, List.append_assoc, push64_exec hl h₁ h₀, push64_exec hl h₃ h₂,
      List.singleton_append, exec_op (Jvm.exec_longOp rt _ _ _ hop)]
    rfl
  · have hop : LongOp.eval .lrem (packLong (regs.get Reg.a0) (regs.get Reg.a1))
        (packLong (regs.get Reg.a2) (regs.get Reg.a3)) = .ok _ := if_neg (packLong_ne_zero hd)
    rw [code, List.append_assoc, List.append_assoc, push64_exec hl h₁ h₀, push64_exec hl h₃ h₂,
      List.singleton_append, exec_op (Jvm.exec_longOp rt _ _ _ hop)]
    rfl
  all_goals
    rw [code, List.append_assoc, push64_exec hl h₁ h₀, List.cons_append,
      Bc.exec_pushregister hl h₂, List.singleton_append, exec_op (Jvm.exec_longShift ..)]
    rfl

end

/-- The code is exact on the operands x₀:x₁ and y₀:y₁, wherever the method keeps its registers. -/
def ExactOn (rt : Runtime σ) (ra : RegisterAllocator) (w : World σ) (code : List Bc) (b : Builtin)
    (x₀ x₁ y₀ y₁ : Word) : Prop :=
  ∀ regs l, Holds ra regs l → regs.get Reg.a0 = x₀ → regs.get Reg.a1 = x₁ →
    regs.get Reg.a2 = y₀ → regs.get Reg.a3 = y₁ →
    LeavesExact rt ra l w code (b.exact x₀ x₁ y₀ y₁)

theorem exists_operands (x₀ x₁ y₀ y₁ : Word) : ∃ regs : RegFile, regs.get Reg.a0 = x₀ ∧
    regs.get Reg.a1 = x₁ ∧ regs.get Reg.a2 = y₀ ∧ regs.get Reg.a3 = y₁ :=
  ⟨⟨fun r => if r = Reg.a0 then x₀ else if r = Reg.a1 then x₁ else if r = Reg.a2 then y₀
    else if r = Reg.a3 then y₁ else 0, rfl⟩, rfl, rfl, rfl, rfl⟩

section

variable {m : JavaMethod} {i : Instruction} {b : Builtin}

/-- A call counts the registers of the builtin it stands for. -/
theorem JavaMethod.longBuiltin_readable (hi : i ∈ m.insns env) (hb : i.builtin env = some b) :
    ∀ r ∈ [Reg.a0, Reg.a1, Reg.a2, Reg.a3], Readable (m.pass1 env).regalloc r := by
  intro r hr
  have hs : r ∈ i.fillSources env := by
    rw [Instruction.fillSources.eq_def]
    rcases Instruction.kind_of_builtin hb with hk | hk | hk <;> rw [hk] <;>
      exact List.mem_append_left _ (List.mem_cons_of_mem _ (List.mem_append_left [Reg.sp] hr))
  have hc := JavaMethod.counted_of_fills (JavaMethod.mem_fills hi (List.mem_append_right _ hs))
  have hm : Reg.Ordinary r ∧ r ≠ Reg.zero := by
    simp only [List.mem_cons, List.not_mem_nil, or_false] at hr
    rcases hr with rfl | rfl | rfl | rfl <;> exact ⟨⟨by decide, by decide⟩, by decide⟩
  exact ⟨.inr ((RegisterAllocator.setAllocation_isAllocated _ _).mpr (hc.resolve_left hm.2)), hm.1⟩

theorem exactOn_iff (hi : i ∈ m.insns env) (hb : i.builtin env = some b)
    (hm : b ∈ longBuiltins.map Prod.snd) (hd : b.Defined y₀ y₁) (rt : Runtime σ) (w : World σ)
    (st : MethodState) :
    ExactOn rt (m.pass1 env).regalloc w (i.jalCode env st).1 b x₀ x₁ y₀ y₁ ↔
      b.computed x₀ x₁ y₀ y₁ = BitVec.ofInt 64 (b.exact x₀ x₁ y₀ y₁) := by
  have hw {r : Reg} := JavaMethod.call_writable (r := r) hi (Instruction.kind_of_builtin hb)
  have hr := JavaMethod.longBuiltin_readable hi hb
  have hc : (i.jalCode env st).1 =
    b.code (i.methodRange env).1 (i.methodRange env).2 i.address := by
    rw [Instruction.jalCode, hb]
  rw [hc]
  constructor
  · intro h
    obtain ⟨regs, h₀, h₁, h₂, h₃⟩ := exists_operands x₀ x₁ y₀ y₁
    have hl := holds_localsFor (m.pass1 env).regalloc regs
    refine (leavesExact_iff (hw (.inl rfl)) (hw (.inr rfl)) ?_).mp (h regs _ hl h₀ h₁ h₂ h₃)
    intro s
    rw [longBuiltin_exec hm hl hr (h₂ ▸ h₃ ▸ hd), h₀, h₁, h₂, h₃]
  · rintro h regs l hl h₀ h₁ h₂ h₃
    refine (leavesExact_iff (hw (.inl rfl)) (hw (.inr rfl)) ?_).mpr h
    intro s
    rw [longBuiltin_exec hm hl hr (h₂ ▸ h₃ ▸ hd), h₀, h₁, h₂, h₃]

/-- The shifts are exact where the high word that is left is all ones or the low word is not
negative. Division is exact for a dividend with all divisors read right exactly where the code
reads the dividend right, and the same with the operands exchanged. -/
theorem long_builtins_exact_iff (hi : i ∈ m.insns env) (hb : i.builtin env = some b)
    (rt : Runtime σ) (w : World σ) (st : MethodState) :
    let Exact := ExactOn rt (m.pass1 env).regalloc w (i.jalCode env st).1 b
    (b = .shift .lshl → ∀ x₀ x₁ y₀ y₁, y₀.toNat < 64 →
      (Exact x₀ x₁ y₀ y₁ ↔ 0 ≤ x₁.toInt ∨ x₀ <<< y₀.toNat = (-1 : Word) <<< y₀.toNat)) ∧
    (b = .shift .lshr → ∀ x₀ x₁ y₀ y₁, y₀.toNat < 64 →
      (Exact x₀ x₁ y₀ y₁ ↔ 0 ≤ x₁.toInt ∨ x₀.sshiftRight (y₀.toNat - 32) = -1)) ∧
    ∀ bc, b = .mulDiv bc → bc = .ldiv ∨ bc = .lrem →
      (∀ x₀ x₁, (∀ y₀ y₁, y₀ ++ y₁ ≠ (0 : DWord) → DivisorKept y₀ y₁ bc → Exact x₀ x₁ y₀ y₁) ↔
        Wide x₀ x₁) ∧
      ∀ y₀ y₁, y₀ ++ y₁ ≠ (0 : DWord) →
        ((∀ x₀ x₁, Wide x₀ x₁ → Exact x₀ x₁ y₀ y₁) ↔ DivisorKept y₀ y₁ bc) := by
  intro Exact
  refine ⟨?_, ?_, ?_⟩
  · rintro rfl x₀ x₁ y₀ y₁ hn
    exact (exactOn_iff hi hb (by decide) hn rt w st).trans (computed_shl x₀ x₁ y₀ y₁ hn)
  · rintro rfl x₀ x₁ y₀ y₁ hn
    exact (exactOn_iff hi hb (by decide) hn rt w st).trans (computed_shr x₀ x₁ y₀ y₁ hn)
  · rintro bc rfl hbc
    have hm : Builtin.mulDiv bc ∈ longBuiltins.map Prod.snd := by
      rcases hbc with rfl | rfl <;> decide
    have he {x₀ x₁ y₀ y₁ : Word} (hy : y₀ ++ y₁ ≠ (0 : DWord)) : Exact x₀ x₁ y₀ y₁ ↔
        (Builtin.mulDiv bc).computed x₀ x₁ y₀ y₁ =
          BitVec.ofInt 64 ((Builtin.mulDiv bc).exact x₀ x₁ y₀ y₁) :=
      exactOn_iff hi hb hm hy rt w st
    refine ⟨fun x₀ x₁ => ⟨?_, ?_⟩, fun y₀ y₁ hy => ⟨?_, ?_⟩⟩
    · intro h
      have hd := badDivisor_kept bc
      exact dividend_wide hbc ((he hd.1).mp (h _ _ hd.1 hd.2))
    · intro hx y₀ y₁ hy hk
      exact (he hy).mpr (computed_kept hx hk hbc)
    · intro h
      exact divisor_kept hbc ((he hy).mp (h _ _ (wide_neg_one y₁)))
    · intro hk x₀ x₁ hx
      exact (he hy).mpr (computed_kept hx hk hbc)

end

theorem Builtin.matchName_divdi3 (s : String) : matchName true
    ("__divdi3".map (fun c => if c = '.' then '_' else c) ++ "_" ++ s) = some (.mulDiv .ldiv) := by
  simp [matchName, lookup, builtins, cmp]

def divCall : Instruction := ⟨.jal, 0x1000, .jal, 0, 0, 0, 0x404⟩

theorem divCall_builtin : divCall ∈ callNextCaller.insns (callNextEnv "__divdi3") ∧
    divCall.builtin (callNextEnv "__divdi3") = some (.mulDiv .ldiv) := by
  refine ⟨by decide, ?_⟩
  have hd : divCall.dstMethod (callNextEnv "__divdi3") = some (callNextCallee "__divdi3") := rfl
  have hm : Builtin.matchName true (callNextCallee "__divdi3").name = some (.mulDiv .ldiv) := by
    rw [JavaMethod.name, Function.name, if_neg (by decide)]
    exact Builtin.matchName_divdi3 _
  simp only [Instruction.builtin, hd, Option.bind_some]
  exact hm

theorem long_builtins_exact_div :
    ExactOn Runtime.absent (callNextCaller.pass1 (callNextEnv "__divdi3")).regalloc
      ⟨⟨[], by decide⟩, 0, ()⟩ (divCall.jalCode (callNextEnv "__divdi3") ⟨[], []⟩).1
      (.mulDiv .ldiv) 0xffffffff 0x80000000 0 7 :=
  have h := long_builtins_exact_iff divCall_builtin.1 divCall_builtin.2 Runtime.absent
    ⟨⟨[], by decide⟩, 0, ()⟩ ⟨[], []⟩
  ((h.2.2 .ldiv rfl (.inl rfl)).2 0 7 (by decide)).mpr (.inl (by decide)) _ _ (wide_neg_one _)

/-- 0x0000000080000000 divided by 1 is 0xffffffff80000000. -/
theorem long_division_wrong :
    ¬ ExactOn Runtime.absent (callNextCaller.pass1 (callNextEnv "__divdi3")).regalloc
      ⟨⟨[], by decide⟩, 0, ()⟩ (divCall.jalCode (callNextEnv "__divdi3") ⟨[], []⟩).1
      (.mulDiv .ldiv) 0 0x80000000 0 1 := by
  intro h
  have hd : Builtin.Defined 0 1 (.mulDiv .ldiv) := by
    rw [Builtin.Defined]
    decide
  have he := (exactOn_iff divCall_builtin.1 divCall_builtin.2 (by decide) hd _ _ _).mp h
  exact absurd he (by decide)

end Cibyl
