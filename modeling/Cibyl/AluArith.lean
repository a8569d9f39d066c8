import Cibyl.Architecture
import Cibyl.Jvm

namespace Cibyl
set_option autoImplicit true

open Jvm (lcmp)

theorem not_eq_xor (x : Word) : x ^^^ -1 = ~~~x := BitVec.xor_allOnes

/-- What the set instructions make of a comparison: 1 exactly when the second operand is less. -/
theorem less_lcmp (x y : DWord) : ishr (lcmp x y + 1) 1 = Arch.flag (y.toInt < x.toInt) := by
  rw [lcmp, Arch.flag]
  rcases Int.lt_trichotomy x.toInt y.toInt with h | h | h
  · rw [if_pos (BitVec.slt_iff_toInt_lt.mpr h), if_neg (Int.not_lt.mpr (Int.le_of_lt h))]
    rfl
  · cases BitVec.eq_of_toInt_eq h
    rw [if_neg (by rw [BitVec.slt_iff_toInt_lt]; exact Int.lt_irrefl _), if_pos rfl,
      if_neg (Int.lt_irrefl _)]
    rfl
  · have hne : x ≠ y := by
      rintro rfl
      exact Int.lt_irrefl _ h
    rw [if_neg (by rw [BitVec.slt_iff_toInt_lt]; exact Int.not_lt.mpr (Int.le_of_lt h)),
      if_neg hne, if_pos h]
    rfl

theorem less_signed (x y : Word) :
    ishr (lcmp (x.signExtend 64) (y.signExtend 64) + 1) 1 = Arch.flag (y.toInt < x.toInt) := by
  rw [less_lcmp, BitVec.toInt_signExtend_of_le (by decide),
    BitVec.toInt_signExtend_of_le (by decide)]

theorem toInt_setWidth (x : Word) : (x.setWidth 64).toInt = x.toNat := by
  have hx := x.isLt
  rw [BitVec.toInt_eq_toNat_cond, BitVec.toNat_setWidth_of_le (by decide), if_pos (by omega)]

theorem less_unsigned (x y : Word) :
    ishr (lcmp (x.setWidth 64) (y.setWidth 64) + 1) 1 = Arch.flag (y.toNat < x.toNat) := by
  rw [less_lcmp, toInt_setWidth, toInt_setWidth]
  exact if_congr Int.ofNat_lt rfl rfl

theorem low_ofInt (p : Int) : (BitVec.ofInt 64 p).extractLsb' 0 32 = Arch.lowWord p := by
  apply BitVec.eq_of_toNat_eq
  rw [BitVec.extractLsb'_toNat, Arch.lowWord, BitVec.toNat_ofInt, BitVec.toNat_ofInt,
    Nat.shiftRight_zero]
  omega

theorem high_ofInt (p : Int) : (BitVec.ofInt 64 p).extractLsb' 32 32 = Arch.highWord p := by
  apply BitVec.eq_of_toNat_eq
  rw [BitVec.extractLsb'_toNat, Arch.highWord, BitVec.toNat_ofInt, BitVec.toNat_ofInt,
    Nat.shiftRight_eq_div_pow]
  omega

theorem low_append (x y : Word) : (x ++ y).extractLsb' 0 32 = y := by
  apply BitVec.eq_of_getLsbD_eq
  intro i hi
  simp only [BitVec.getLsbD_extractLsb', BitVec.getLsbD_append, hi]
  grind

theorem high_append (x y : Word) : (x ++ y).extractLsb' 32 32 = x := by
  apply BitVec.eq_of_getLsbD_eq
  intro i hi
  simp only [BitVec.getLsbD_extractLsb', BitVec.getLsbD_append, hi]
  grind

theorem lushr_32 (v : DWord) : (lushr v 32).setWidth 32 = v.extractLsb' 32 32 := by
  have hs : (32 : Word).toNat % 64 = 32 := rfl
  apply BitVec.eq_of_toNat_eq
  rw [lushr, hs, BitVec.extractLsb'_toNat, BitVec.toNat_setWidth, BitVec.toNat_ushiftRight]

theorem l2i_eq (v : DWord) : v.setWidth 32 = v.extractLsb' 0 32 := by
  apply BitVec.eq_of_toNat_eq
  rw [BitVec.extractLsb'_toNat, BitVec.toNat_setWidth, Nat.shiftRight_zero]

theorem imul_eq (x y : Word) : x * y = Arch.lowWord (x.toInt * y.toInt) := by
  apply BitVec.eq_of_toInt_eq
  rw [BitVec.toInt_mul, Arch.lowWord, BitVec.toInt_ofInt]

theorem lmul_eq (x y : Word) :
    x.signExtend 64 * y.signExtend 64 = BitVec.ofInt 64 (x.toInt * y.toInt) := by
  apply BitVec.eq_of_toInt_eq
  rw [BitVec.toInt_mul, BitVec.toInt_ofInt, BitVec.toInt_signExtend_of_le (by decide),
    BitVec.toInt_signExtend_of_le (by decide)]

theorem multu_eq (x y : Word) :
    CRunTime.multu x y = BitVec.ofInt 64 ((x.toNat : Int) * (y.toNat : Int)) := by
  apply BitVec.eq_of_toInt_eq
  simp only [CRunTime.multu, signExtend_and_mask]
  rw [BitVec.toInt_mul, BitVec.toInt_ofInt, toInt_setWidth, toInt_setWidth]

theorem idiv_eq (x y : Word) : x.sdiv y = Arch.lowWord (x.toInt.tdiv y.toInt) := by
  apply BitVec.eq_of_toInt_eq
  rw [BitVec.toInt_sdiv, Arch.lowWord, BitVec.toInt_ofInt]

theorem irem_eq (x y : Word) : x.srem y = Arch.lowWord (x.toInt.tmod y.toInt) := by
  rw [← BitVec.toInt_srem, Arch.lowWord, BitVec.ofInt_toInt]

theorem msb_setWidth (x : Word) : (x.setWidth 64).msb = false := by
  have hx := x.isLt
  rw [BitVec.msb_eq_decide, BitVec.toNat_setWidth_of_le (by decide)]
  exact decide_eq_false (by omega)

theorem ldiv_setWidth (x y : Word) :
    (x.setWidth 64).sdiv (y.setWidth 64) = (BitVec.ofNat 32 (x.toNat / y.toNat)).setWidth 64 := by
  have hq : x.toNat / y.toNat < 2 ^ 32 := Nat.lt_of_le_of_lt (Nat.div_le_self ..) x.isLt
  rw [BitVec.sdiv_eq, msb_setWidth, msb_setWidth]
  apply BitVec.eq_of_toNat_eq
  simp only [BitVec.udiv_eq, BitVec.toNat_udiv]
  rw [BitVec.toNat_setWidth_of_le (by decide), BitVec.toNat_setWidth_of_le (by decide),
    BitVec.toNat_setWidth_of_le (by decide), BitVec.toNat_ofNat, Nat.mod_eq_of_lt hq]

theorem lrem_setWidth (x y : Word) :
    (x.setWidth 64).srem (y.setWidth 64) = (BitVec.ofNat 32 (x.toNat % y.toNat)).setWidth 64 := by
  have hr : x.toNat % y.toNat < 2 ^ 32 := Nat.lt_of_le_of_lt (Nat.mod_le ..) x.isLt
  rw [BitVec.srem_eq, msb_setWidth, msb_setWidth]
  apply BitVec.eq_of_toNat_eq
  simp only [BitVec.toNat_umod]
  rw [BitVec.toNat_setWidth_of_le (by decide), BitVec.toNat_setWidth_of_le (by decide),
    BitVec.toNat_setWidth_of_le (by decide), BitVec.toNat_ofNat, Nat.mod_eq_of_lt hr]

theorem ofNat_udiv (x y : Word) : x / y = BitVec.ofNat 32 (x.toNat / y.toNat) := by
  apply BitVec.eq_of_toNat_eq
  rw [BitVec.toNat_udiv, BitVec.toNat_ofNat,
    Nat.mod_eq_of_lt (Nat.lt_of_le_of_lt (Nat.div_le_self ..) x.isLt)]

theorem ofNat_umod (x y : Word) : x % y = BitVec.ofNat 32 (x.toNat % y.toNat) := by
  apply BitVec.eq_of_toNat_eq
  rw [BitVec.toNat_umod, BitVec.toNat_ofNat,
    Nat.mod_eq_of_lt (Nat.lt_of_le_of_lt (Nat.mod_le ..) x.isLt)]

theorem sdiv_of_nonneg {x y : Word} (hx : x.msb = false) (hy : y.msb = false) :
    (x.sdiv y).signExtend 64 = (BitVec.ofNat 32 (x.toNat / y.toNat)).setWidth 64 := by
  have hd : x.sdiv y = x / y := by
    rw [BitVec.sdiv_eq, hx, hy]
    rfl
  rw [hd, BitVec.signExtend_eq_setWidth_of_msb_false (BitVec.msb_udiv_eq_false_of hx), ofNat_udiv]

theorem srem_of_nonneg {x y : Word} (hx : x.msb = false) (hy : y.msb = false) :
    (x.srem y).signExtend 64 = (BitVec.ofNat 32 (x.toNat % y.toNat)).setWidth 64 := by
  have hd : x.srem y = x % y := by
    rw [BitVec.srem_eq, hx, hy]
  rw [hd, BitVec.signExtend_eq_setWidth_of_msb_false (BitVec.msb_umod_eq_false_of_left hx y),
    ofNat_umod]

/-- Both paths of the helper give the unsigned quotient and remainder. -/
theorem divu_eq (x : Word) {y : Word} (hy : y ≠ 0) :
    CRunTime.divu x y =
      .ok (BitVec.ofNat 32 (x.toNat % y.toNat) ++ BitVec.ofNat 32 (x.toNat / y.toNat)) := by
  rw [CRunTime.divu, if_neg hy]
  split
  · simp only [signExtend_and_mask, ldiv_setWidth, lrem_setWidth, long_of_halves]
  · next h =>
    have hs (z : Word) : z.slt 0 = z.msb := BitVec.slt_zero_eq_msb
    rw [hs, hs, not_or, Bool.not_eq_true, Bool.not_eq_true] at h
    simp only [sdiv_of_nonneg h.1 h.2, srem_of_nonneg h.1 h.2, long_of_halves]

end Cibyl
