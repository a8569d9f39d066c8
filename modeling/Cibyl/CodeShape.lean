import Cibyl.Instructions
import Cibyl.StackShape

namespace Cibyl
set_option autoImplicit true

open Jvm (Item Op IntOp IntUn LongOp LongShift Label Width Shape)
open Jvm.Width (narrow wide)
open Emit (op intOp pushconst pushconst_u pushconst_l pushaddress pushindex)

namespace Bc

/-- The shape of the operand stack after a line that does not leave the instruction. -/
def shape : Bc → Shape → Option Shape
  | .pushregister _, s => some (narrow :: s)
  | .popregister _, narrow :: s | .astore _, narrow :: s => some s
  | .iinc .., s => some s
  | .item (.op o), s => o.shape s
  | .item (.jsr (.memoryRead _)), narrow :: s => some (narrow :: s)
  | .item (.label (.addr _)), s | .item (.catch_ ..), s => some s
  | _, _ => none

/-- The slots a line needs when it leaves the shape `s`. A subroutine pushes three more than the
address it is called with. -/
def room : Bc → Shape → Nat
  | .item (.jsr _), s => s.depth + 3
  | _, s => s.depth

/-- Walk through `bs` with at most `n` slots in use. -/
def fits (n : Nat) : List Bc → Shape → Option Shape
  | [], s => some s
  | b :: bs, s =>
    match b.shape s with
    | some s' => if b.room s' ≤ n then fits n bs s' else none
    | none => none

theorem fits_cons {b : Bc} (h : b.shape s = some s') (hr : b.room s' ≤ n) (bs : List Bc) :
    fits n (b :: bs) s = fits n bs s' := by
  rw [fits, h]
  exact if_pos hr

@[simp] theorem fits_append (n : Nat) (bs cs : List Bc) (s : Shape) :
    fits n (bs ++ cs) s = (fits n bs s).bind (fits n cs) := by
  induction bs generalizing s with
  | nil => rfl
  | cons b bs ih =>
    rw [List.cons_append, fits, fits]
    cases b.shape s with
    | none => rfl
    | some s' =>
      dsimp only
      split
      · exact ih s'
      · rfl

theorem fits_mono (h : fits n bs s = some s') (hn : n ≤ k) : fits k bs s = some s' := by
  induction bs generalizing s with
  | nil => exact h
  | cons b bs ih =>
    rw [fits] at h
    cases hb : b.shape s with
    | none =>
      rw [hb] at h
      cases h
    | some s₁ =>
      rw [hb] at h
      dsimp only at h
      split at h
      · next hr =>
        rw [fits_cons hb (Nat.le_trans hr hn)]
        exact ih h
      · cases h

@[simp] theorem fits_nil (n : Nat) (s : Shape) : fits n [] s = some s := rfl

@[simp] theorem fits_pushregister (n : Nat) (r : Reg) (bs : List Bc) (s : Shape) :
    fits n (.pushregister r :: bs) s =
      if Shape.depth (narrow :: s) ≤ n then fits n bs (narrow :: s) else none := rfl

@[simp] theorem fits_popregister (n : Nat) (r : Reg) (bs : List Bc) (s : Shape) :
    fits n (.popregister r :: bs) (narrow :: s) = if s.depth ≤ n then fits n bs s else none := rfl

@[simp] theorem fits_iinc (n : Nat) (r : Reg) (extra : Int) (bs : List Bc) (s : Shape) :
    fits n (.iinc r extra :: bs) s = if s.depth ≤ n then fits n bs s else none := rfl

@[simp] theorem fits_pushconst (n : Nat) (v : Word) (bs : List Bc) (s : Shape) :
    fits n (pushconst v :: bs) s =
      if Shape.depth (narrow :: s) ≤ n then fits n bs (narrow :: s) else none := by
  rw [pushconst]
  split
  · rfl
  · split
    · rfl
    · split
      · rfl
      · split <;> rfl

@[simp] theorem fits_pushconst_u (n : Nat) (v : Word) (bs : List Bc) (s : Shape) :
    fits n (pushconst_u v :: bs) s =
      if Shape.depth (narrow :: s) ≤ n then fits n bs (narrow :: s) else none := by
  rw [pushconst_u]
  split
  · rfl
  · split
    · rfl
    · split <;> rfl

@[simp] theorem fits_pushconst_l (n : Nat) (v : DWord) (bs : List Bc) (s : Shape) :
    fits n (pushconst_l v :: bs) s =
      if Shape.depth (wide :: s) ≤ n then fits n bs (wide :: s) else none := rfl

@[simp] theorem fits_intOp (n : Nat) (o : IntOp) (bs : List Bc) (s : Shape) :
    fits n (intOp o :: bs) (narrow :: narrow :: s) =
      if Shape.depth (narrow :: s) ≤ n then fits n bs (narrow :: s) else none := rfl

@[simp] theorem fits_op (n : Nat) (o : Op) (bs : List Bc) (s : Shape) :
    fits n (op o :: bs) s =
      (o.shape s).bind (fun s' => if s'.depth ≤ n then fits n bs s' else none) := by
  rw [fits, op, shape]
  cases o.shape s <;> rfl

theorem shape_append {b : Bc} (h : b.shape s = some s') (t : Shape) :
    b.shape (s ++ t) = some (s' ++ t) := by
  cases b with
  | pushregister | iinc =>
    cases h
    rfl
  | popregister | astore =>
    rcases s with _ | ⟨x, s⟩
    · cases h
    · cases x <;> cases h <;> rfl
  | ret => cases h
  | item i =>
    cases i with
    | op o => exact Jvm.Op.shape_append h t
    | jsr l =>
      cases l <;> first
        | cases h
        | (rcases s with _ | ⟨x, s⟩
           · cases h
           · cases x <;> cases h <;> rfl)
    | label l =>
      cases l <;> cases h <;> rfl
    | catch_ =>
      cases h
      rfl
    | _ => cases h

theorem room_append (b : Bc) (s t : Shape) : b.room (s ++ t) = b.room s + t.depth := by
  rw [room.eq_def, room.eq_def]
  split <;> rw [Shape.depth_append]
  exact Nat.add_right_comm ..

/-- With more below, the same lines need that much more. -/
theorem fits_below (h : fits n bs s = some s') (t : Shape) :
    fits (n + t.depth) bs (s ++ t) = some (s' ++ t) := by
  induction bs generalizing s with
  | nil =>
    cases h
    rfl
  | cons b bs ih =>
    rw [fits] at h
    cases hb : b.shape s with
    | none =>
      rw [hb] at h
      cases h
    | some s₁ =>
      rw [hb] at h
      dsimp only at h
      split at h
      · next hr =>
        rw [fits_cons (shape_append hb t) (by rw [room_append]; exact Nat.add_le_add_right hr _)]
        exact ih h
      · cases h

/-- A piece of code on a stack that is not empty. -/
theorem fits_piece (h : fits k bs s = some s') (hn : k + t.depth ≤ n) :
    fits n bs (s ++ t) = some (s' ++ t) :=
  fits_mono (fits_below h t) hn

theorem fits_pushaddress (h : 2 + t.depth ≤ n) (r : Reg) (extra : Word) :
    fits n (pushaddress r extra) t = some (narrow :: t) := by
  have hp : fits 2 (pushaddress r extra) [] = some [narrow] := by
    rw [pushaddress]
    split <;> simp
  exact fits_piece hp h

theorem fits_pushindex (h : 2 + t.depth ≤ n) (r : Reg) (extra : Word) :
    fits n (pushindex r extra) t = some (narrow :: t) := by
  have hp : fits 2 (pushindex r extra) [] = some [narrow] := by
    rw [pushindex]
    repeat' split
    all_goals simp
  exact fits_piece hp h

theorem fits_splitLong {t : Shape} (h : 5 + t.depth ≤ n) (high low : Reg) :
    fits n (Instruction.splitLong high low) (wide :: t) = some t := by
  have hp : fits 5 (Instruction.splitLong high low) [wide] = some [] := by
    simp [Instruction.splitLong]
  exact fits_piece hp h

theorem fits_pushLaneShift (h : 3 + t.depth ≤ n) (z : WordSize) (insn : Instruction) :
    fits n (insn.pushLaneShift z) t = some (narrow :: t) := by
  have hp : fits 3 (insn.pushLaneShift z) [] = some [narrow] := by
    simp [Instruction.pushLaneShift, fits_pushaddress]
  exact fits_piece hp h

theorem fits_extendCode {t : Shape} (h : 2 + t.depth ≤ n) (z : WordSize) (isSigned : Bool) :
    fits n (Instruction.extendCode z isSigned) (narrow :: t) = some (narrow :: t) := by
  have hp : fits 2 (Instruction.extendCode z isSigned) [narrow] = some [narrow] := by
    cases z <;> cases isSigned <;>
      simp [Instruction.extendCode]
  exact fits_piece hp h

end Bc

namespace Instruction

open Bc (fits fits_pushaddress fits_pushindex fits_splitLong fits_pushLaneShift fits_extendCode)

/-- The slots that the code of an instruction takes. -/
def room : Kind → Nat
  | .rfmt _ | .addu | .subu | .nor | .shiftInstruction _ | .shiftInstructionV _ | .ifmt _
  | .addi => 2
  | .lui | .mfxx | .mtxx _ | .syscallRegisterArgument => 1
  | .mulDiv _ | .mult => 5
  | .div | .slt | .slti | .loadXX _ | .partialLoad .. => 4
  | .sltu | .sltiu => 6
  | .lw | .storeXX _ | .sw => 3
  | .partialStore _ => 7
  | _ => 0

theorem traceStore_fits (bc : Jvm.WriteWhat) (insn : Instruction) :
    fits 3 (insn.traceStore bc) [] = some [] := by
  simp [traceStore, fits_pushaddress]

theorem loadXXCode_fits (env : Env) (bc : Jvm.ReadWhat) (insn : Instruction) :
    fits 4 (insn.loadXXCode env bc) [] = some [] := by
  rw [loadXXCode]
  split
  · simp [fits_pushaddress]
    rfl
  · simp [fits_pushaddress]

theorem storeXXCode_fits (env : Env) (bc : Jvm.WriteWhat) (insn : Instruction) :
    fits 3 (insn.storeXXCode env bc) [] = some [] := by
  rw [storeXXCode]
  split <;> simp [fits_pushaddress, traceStore_fits]

theorem lwCode_fits (env : Env) (insn : Instruction) : fits 3 (insn.lwCode env) [] = some [] := by
  rw [lwCode]
  split <;> simp [fits_pushindex]

theorem swCode_fits (env : Env) (insn : Instruction) : fits 3 (insn.swCode env) [] = some [] := by
  rw [swCode]
  repeat' split
  all_goals simp [fits_pushindex, traceStore_fits]

theorem partialLoadCode_fits (env : Env) (z : WordSize) (isSigned : Bool) (insn : Instruction) :
    fits 4 (insn.partialLoadCode env z isSigned) [] = some [] := by
  rw [partialLoadCode]
  split
  · exact loadXXCode_fits ..
  · split <;> simp [fits_pushindex, fits_pushLaneShift, fits_extendCode]

theorem partialStoreCode_fits (env : Env) (z : WordSize) (insn : Instruction) :
    fits 7 (insn.partialStoreCode env z) [] = some [] := by
  rw [partialStoreCode]
  split
  · exact Bc.fits_mono (storeXXCode_fits ..) (by decide)
  · split <;> simp [fits_pushindex, fits_pushLaneShift]

theorem catchCode_fits (n : Nat) (env : Env) (insn : Instruction) :
    fits n (insn.catchCode env) [] = some [] := by
  rw [catchCode]
  induction env.exceptionClasses insn.extra with
  | nil => rfl
  | cons cl cls ih => exact ih

/-- The arithmetic instructions. -/
theorem arithmetic_fits (env : Env) (insn : Instruction) :
    (∀ bc, fits 2 (insn.rfmtCode bc) [] = some []) ∧ fits 2 insn.adduCode [] = some [] ∧
    fits 2 insn.subuCode [] = some [] ∧ fits 2 insn.norCode [] = some [] ∧
    (∀ bc, fits 2 (insn.shiftCode bc) [] = some []) ∧
    (∀ bc, fits 2 (insn.shiftVCode bc) [] = some []) ∧
    (∀ bc, fits 2 (insn.ifmtCode bc) [] = some []) ∧ fits 2 insn.addiCode [] = some [] ∧
    fits 1 insn.luiCode [] = some [] ∧ (∀ bc, fits 5 (insn.mulDivCode bc) [] = some []) ∧
    fits 5 (insn.multCode env) [] = some [] ∧ fits 4 (insn.divCode env) [] = some [] := by
  have hr (bc : IntOp) : fits 2 (insn.rfmtCode bc) [] = some [] := by
    simp [rfmtCode]
  have hi (bc : IntOp) : fits 2 (insn.ifmtCode bc) [] = some [] := by
    simp [ifmtCode]
  refine ⟨hr, ?_, ?_, ?_, ?_, ?_, hi, ?_, ?_, ?_, ?_, ?_⟩
  · rw [adduCode]
    repeat' split
    all_goals simp [hr]
  · rw [subuCode]
    split <;> simp [hr]
  · rw [norCode]
    repeat' split
    all_goals simp
  · intro bc
    rw [shiftCode]
    split <;> simp
  · intro bc
    simp [shiftVCode]
  · rw [addiCode]
    repeat' split
    all_goals simp [hi]
  · simp [luiCode]
  · intro bc
    cases bc <;> simp [mulDivCode, fits_splitLong]
  · rw [multCode]
    split <;> simp [fits_splitLong]
  · rw [divCode]
    split <;> simp [Jvm.Op.shape]

/-- Every instruction but the parts of a syscall leaves the operand stack as it found it. -/
theorem code_fits (env : Env) (insn : Instruction) (hs : insn.kind ≠ .syscallInsn)
    (hr : insn.kind ≠ .syscallRegisterArgument) :
    fits (room insn.kind) (insn.code env) [] = some [] := by
  obtain ⟨hrfmt, haddu, hsubu, hnor, hshift, hshiftV, hifmt, haddi, hlui, hmulDiv, hmult, hdiv⟩ :=
    arithmetic_fits env insn
  rw [code]
  split <;> rename_i hk
  all_goals simp only [hk, room]
  · exact hrfmt _
  · exact haddu
  · exact hsubu
  · exact hnor
  · exact hshift _
  · exact hshiftV _
  · exact hifmt _
  · exact haddi
  · exact hlui
  · exact hmulDiv _
  · exact hmult
  · exact hdiv
  · simp [mfxxCode]
  · simp [mtxxCode]
  · simp [sltCode, lessCode]
  · simp [sltuCode, pushUnsigned, lessCode]
  · simp [sltiCode, lessCode]
  · simp [sltiuCode, pushUnsigned, lessCode]
  · exact loadXXCode_fits ..
  · exact lwCode_fits ..
  · exact partialLoadCode_fits ..
  · exact storeXXCode_fits ..
  · exact swCode_fits ..
  · exact partialStoreCode_fits ..
  · exact absurd hk hs
  · exact absurd hk hr
  · exact catchCode_fits ..
  · rfl

end Instruction

end Cibyl
