import Cibyl.FlatMemory
import Mathlib.Data.List.GetD

namespace Cibyl
set_option autoImplicit true

/-- A section of the data image. -/
structure ElfSection where
  data : List Byte
  align : Word
  deriving DecidableEq, Repr

namespace Controller

/-- The padding bytes before a section at `addr`. -/
def sectionPad (addr alignment : Word) : Word :=
  if addr &&& (alignment - 1) ≠ 0 then (-addr) &&& (alignment - 1) else 0

/-- The bytes that are written, and the address behind them. -/
def addAlignedSection (addr : Word) (scn : ElfSection) : List Byte × Word :=
  let pad := sectionPad addr scn.align
  (List.replicate pad.toNat 0 ++ scn.data, addr + pad + BitVec.ofNat 32 scn.data.length)

/-- `program.data.bin`, from `addr` on. -/
def dataImage : Word → List ElfSection → List Byte
  | _, [] => []
  | addr, scn :: scns =>
    (addAlignedSection addr scn).1 ++ dataImage (addAlignedSection addr scn).2 scns

end Controller

namespace CRunTime

/-- `read` of an input stream, -1 at its end. -/
def read : List Byte → Word × List Byte
  | [] => (-1, [])
  | b :: stream => (b.setWidth 32, stream)

/-- The loop of `init`, from word `i` on. -/
def copyMemory : Nat → Word → List Byte → MemM Unit
  | 0, _, _ => pure ()
  | n + 1, i, stream => do
    let (b0, stream) := read stream
    let (b1, stream) := read stream
    let (b2, stream) := read stream
    let (b3, stream) := read stream
    Memory.store i (ishl (b0 &&& 0xff) 24 ||| ishl (b1 &&& 0xff) 16 ||| ishl (b2 &&& 0xff) 8 |||
      (b3 &&& 0xff))
    copyMemory n (i + 1) stream

def initMemory (codeStream : List Byte) (memorySize stackSize eventStackSize : Word) :
    MemM Unit := do
  copyMemory (codeStream.length / 4) 0 codeStream
  Memory.store 1 stackSize
  Memory.store 3 (memorySize - (eventStackSize - 8))

/-- The memory that `init` leaves; `none` is an exception. -/
def init (codeStream : List Byte) (memorySize stackSize eventStackSize : Word) : Option Memory :=
  if h : memorySize.toNat < 2 ^ 31 then
    match initMemory codeStream memorySize stackSize eventStackSize
        ⟨List.replicate (memorySize.toNat / 4) 0, by rw [List.length_replicate]; omega⟩ with
    | (.ok (), m) => some m
    | (.error _, _) => none
  else none

end CRunTime

theorem pack_bytes (b0 b1 b2 b3 : Byte) :
    ishl (b0.setWidth 32 &&& 0xff) 24 ||| ishl (b1.setWidth 32 &&& 0xff) 16 |||
      ishl (b2.setWidth 32 &&& 0xff) 8 ||| (b3.setWidth 32 &&& 0xff) = b0 ++ b1 ++ b2 ++ b3 := by
  simp only [Lanes.setWidth_and_mask]
  exact Lanes.or_shifted b0 b1 b2 b3

/-- What the loop leaves in the memory: the bytes of the stream from word `i` on. -/
theorem copyMemory_ok {stream : List Byte} {m : Memory} (hs : 4 * n ≤ stream.length)
    (hn : i.toNat + n ≤ m.words.length) : ∃ m', CRunTime.copyMemory n i stream m = (.ok (), m') ∧
      m'.words.length = m.words.length ∧ ∀ a, m'.flat a =
        if 4 * i.toNat ≤ a ∧ a < 4 * (i.toNat + n) then stream.getD (a - 4 * i.toNat) 0
        else m.flat a := by
  induction n generalizing i stream m with
  | zero =>
    refine ⟨m, rfl, rfl, fun a => ?_⟩
    rw [if_neg (by omega)]
  | succ n ih =>
    rcases stream with _ | ⟨b0, _ | ⟨b1, _ | ⟨b2, _ | ⟨b3, stream⟩⟩⟩⟩
    case cons.cons.cons.cons =>
      have hlt : i.toNat < m.words.length := by omega
      have hm := m.size_lt
      have hi : (i + 1).toNat = i.toNat + 1 := by
        have h1 : (1 : Word).toNat = 1 := rfl
        rw [BitVec.toNat_add, h1, Nat.mod_eq_of_lt (by omega)]
      let v : Word := b0 ++ b1 ++ b2 ++ b3
      have hl : (m.set i v).words.length = m.words.length := List.length_set ..
      have hs' : 4 * n ≤ stream.length := by
        simp only [List.length_cons] at hs
        omega
      obtain ⟨m', hr, hlen, hf⟩ := ih (i := i + 1) (m := m.set i v) hs' (by omega)
      refine ⟨m', ?_, hlen.trans hl, fun a => ?_⟩
      · rw [CRunTime.copyMemory]
        simp only [CRunTime.read, pack_bytes]
        rw [MemM.bind_of_ok (Memory.store_of_inBounds hlt)]
        exact hr
      · have hset : (m.set i v).flat a = if a / 4 = i.toNat then Lanes.byte v (a % 4)
            else m.flat a := by
          rw [Memory.flat, Memory.flat, Lanes.byteAt, Lanes.byteAt, Memory.words_set,
            List.getD_eq_getElem?_getD, List.getElem?_set]
          by_cases h : a / 4 = i.toNat
          · rw [if_pos h.symm, if_pos hlt, if_pos h]
            rfl
          · rw [if_neg (Ne.symm h), if_neg h, List.getD_eq_getElem?_getD]
        rw [hf, hi, hset]
        by_cases hlo : a / 4 = i.toNat
        · have hk : a % 4 < 4 := Nat.mod_lt _ (by decide)
          rw [if_neg (by omega), if_pos hlo, if_pos (by omega), Lanes.byte_append b0 b1 b2 b3 hk]
          have ha : a - 4 * i.toNat = a % 4 := by omega
          rw [ha]
          generalize a % 4 = k at hk
          have hk' : k = 0 ∨ k = 1 ∨ k = 2 ∨ k = 3 := by omega
          rcases hk' with rfl | rfl | rfl | rfl <;> rfl
        · rw [if_neg hlo]
          by_cases hin : 4 * (i.toNat + 1) ≤ a ∧ a < 4 * (i.toNat + 1 + n)
          · rw [if_pos hin, if_pos (by omega)]
            have ha : a - 4 * i.toNat = a - 4 * (i.toNat + 1) + 1 + 1 + 1 + 1 := by omega
            rw [ha]
            rfl
          · rw [if_neg hin, if_neg (by omega)]
    all_goals
      simp only [List.length_cons, List.length_nil] at hs
      omega

/-- The two words of the header that `init` sets. -/
def HeaderByte (a : Nat) : Prop := a / 4 = 1 ∨ a / 4 = 3

instance (a : Nat) : Decidable (HeaderByte a) := instDecidableOr

theorem flat_store {m : Memory} (hi : i.toNat < m.words.length) (v : Word) :
    ∃ m', Memory.store i v m = (.ok (), m') ∧ m'.words.length = m.words.length ∧
      ∀ a, a / 4 ≠ i.toNat → m'.flat a = m.flat a := by
  refine ⟨m.set i v, Memory.store_of_inBounds hi, List.length_set .., fun a ha => ?_⟩
  rw [Memory.flat, Memory.flat, Lanes.byteAt, Lanes.byteAt, Memory.words_set,
    List.getD_eq_getElem?_getD, List.getElem?_set_ne (Ne.symm ha), List.getD_eq_getElem?_getD]

/-- Only the whole words of the stream are copied; the rest of the memory is zero. -/
theorem init_ok {codeStream : List Byte} {memorySize : Word} (hsize : memorySize.toNat < 2 ^ 31)
    (hfit : codeStream.length ≤ memorySize.toNat) (hhead : 16 ≤ memorySize.toNat)
    (stackSize eventStackSize : Word) :
    ∃ m, CRunTime.init codeStream memorySize stackSize eventStackSize = some m ∧
      ∀ a, ¬ HeaderByte a → m.flat a =
        if a < 4 * (codeStream.length / 4) then codeStream.getD a 0 else 0 := by
  let m₀ : Memory :=
    ⟨List.replicate (memorySize.toNat / 4) 0, by rw [List.length_replicate]; omega⟩
  have hlen : m₀.words.length = memorySize.toNat / 4 := List.length_replicate
  have hzero (a : Nat) : m₀.flat a = 0 := by
    rw [Memory.flat, Lanes.byteAt, List.getD_eq_getElem?_getD, List.getElem?_replicate]
    split <;> exact BitVec.extractLsb'_zero
  have h0 : (0 : Word).toNat = 0 := rfl
  obtain ⟨m₁, h₁, hl₁, hf₁⟩ := copyMemory_ok (i := 0) (m := m₀)
    (Nat.mul_div_le codeStream.length 4) (by omega)
  have hi₁ : (1 : Word).toNat < m₁.words.length := by
    rw [hl₁, hlen]
    exact (by omega : 1 < memorySize.toNat / 4)
  obtain ⟨m₂, h₂, hl₂, hf₂⟩ := flat_store hi₁ stackSize
  have hi₂ : (3 : Word).toNat < m₂.words.length := by
    rw [hl₂, hl₁, hlen]
    exact (by omega : 3 < memorySize.toNat / 4)
  obtain ⟨m₃, h₃, -, hf₃⟩ := flat_store hi₂ (memorySize - (eventStackSize - 8))
  have hrun : CRunTime.initMemory codeStream memorySize stackSize eventStackSize m₀ =
      (.ok (), m₃) := by
    rw [CRunTime.initMemory, MemM.bind_of_ok h₁, MemM.bind_of_ok h₂]
    exact h₃
  refine ⟨m₃, ?_, fun a ha => ?_⟩
  · rw [CRunTime.init, dif_pos hsize, hrun]
  · rw [hf₃ a (fun h => ha (.inr h)), hf₂ a (fun h => ha (.inl h)), hf₁, hzero, h0, Nat.mul_zero,
      Nat.sub_zero, Nat.zero_add]
    by_cases h : a < 4 * (codeStream.length / 4)
    · rw [if_pos ⟨Nat.zero_le _, h⟩, if_pos h]
    · rw [if_neg (fun h' => h h'.2), if_neg h]

/-- The next multiple of `m`. -/
def roundUp (a m : Nat) : Nat := a + (m - a % m) % m

/-- Where the linker puts the sections behind `a`. -/
def layout : Nat → List ElfSection → List (Nat × ElfSection)
  | _, [] => []
  | a, scn :: scns =>
    (roundUp a scn.align.toNat, scn) ::
      layout (roundUp a scn.align.toNat + scn.data.length) scns

/-- The address behind the last section. -/
def layoutEnd : Nat → List ElfSection → Nat
  | a, [] => a
  | a, scn :: scns => layoutEnd (roundUp a scn.align.toNat + scn.data.length) scns

theorem sectionPad_toNat {addr alignment : Word} (h : alignment.toNat = 2 ^ k) :
    (Controller.sectionPad addr alignment).toNat = (2 ^ k - addr.toNat % 2 ^ k) % 2 ^ k := by
  have hk : k < 32 := (Nat.pow_lt_pow_iff_right (by decide)).mp (h ▸ alignment.isLt)
  have h1 : (1 : Word).toNat = 1 := rfl
  have hpos : 0 < 2 ^ k := Nat.two_pow_pos k
  have hmask : (alignment - 1).toNat = 2 ^ k - 1 := by
    rw [BitVec.toNat_sub_of_le (BitVec.le_def.mpr (by rw [h, h1]; exact hpos)), h, h1]
  have hand (x : Word) : (x &&& (alignment - 1)).toNat = x.toNat % 2 ^ k := by
    rw [BitVec.toNat_and, hmask, Nat.and_two_pow_sub_one_eq_mod]
  have hdvd : 2 ^ k ∣ 2 ^ 32 := Nat.pow_dvd_pow 2 (Nat.le_of_lt hk)
  rw [Controller.sectionPad]
  split
  · next hne =>
    have hr : addr.toNat % 2 ^ k ≠ 0 := fun h0 => hne (BitVec.eq_of_toNat_eq ((hand addr).trans h0))
    have hsum : (2 ^ 32 - addr.toNat + addr.toNat) % 2 ^ k = 0 := by
      rw [Nat.sub_add_cancel (Nat.le_of_lt addr.isLt)]
      exact Nat.mod_eq_zero_of_dvd hdvd
    rw [hand, BitVec.toNat_neg, Nat.mod_mod_of_dvd _ hdvd]
    rw [Nat.add_mod] at hsum
    have hx := Nat.mod_lt (2 ^ 32 - addr.toNat) hpos
    have hy := Nat.mod_lt addr.toNat hpos
    generalize (2 ^ 32 - addr.toNat) % 2 ^ k = x at hsum hx
    generalize addr.toNat % 2 ^ k = y at hr hsum hy
    generalize 2 ^ k = z at hsum hx hy
    have hz : x + y = z := by
      rcases Nat.lt_or_ge (x + y) z with hlt | hge
      · rw [Nat.mod_eq_of_lt hlt] at hsum
        omega
      · rw [Nat.mod_eq_sub_mod hge, Nat.mod_eq_of_lt (by omega)] at hsum
        omega
    rw [Nat.mod_eq_of_lt (by omega)]
    omega
  · next he =>
    have hr : addr.toNat % 2 ^ k = 0 := by
      rw [← hand, not_not.mp he]
      rfl
    rw [hr, Nat.sub_zero, Nat.mod_self]
    rfl

namespace Controller

variable {addr : Word} {scns : List ElfSection}

/-- A section is written behind its padding, and the address runs along with the file. -/
theorem addAlignedSection_eq {scn : ElfSection} (h : scn.align.toNat = 2 ^ k)
    (hfit : addr.toNat + (addAlignedSection addr scn).1.length < 2 ^ 32) :
    addAlignedSection addr scn =
      (List.replicate (roundUp addr.toNat scn.align.toNat - addr.toNat) 0 ++ scn.data,
        BitVec.ofNat 32 (roundUp addr.toNat scn.align.toNat + scn.data.length)) ∧
    roundUp addr.toNat scn.align.toNat + scn.data.length < 2 ^ 32 := by
  have hpad : (sectionPad addr scn.align).toNat = _ := sectionPad_toNat h
  have hround : roundUp addr.toNat scn.align.toNat =
      addr.toNat + (sectionPad addr scn.align).toNat := by
    rw [roundUp, h, hpad]
  rw [addAlignedSection, List.length_append, List.length_replicate] at hfit
  refine ⟨?_, by omega⟩
  rw [addAlignedSection, hround, Nat.add_sub_cancel_left]
  refine Prod.ext rfl ?_
  rw [BitVec.ofNat_add, BitVec.ofNat_add, BitVec.ofNat_toNat, BitVec.ofNat_toNat,
    BitVec.setWidth_eq, BitVec.setWidth_eq]

/-- The file holds each section where the linker puts it. -/
theorem dataImage_layout (ha : ∀ scn ∈ scns, ∃ k, scn.align.toNat = 2 ^ k)
    (hfit : addr.toNat + (dataImage addr scns).length < 2 ^ 32) :
    addr.toNat + (dataImage addr scns).length = layoutEnd addr.toNat scns ∧
    ∀ p ∈ layout addr.toNat scns, addr.toNat ≤ p.1 ∧
      p.1 + p.2.data.length ≤ addr.toNat + (dataImage addr scns).length ∧
      ∀ o < p.2.data.length,
        (dataImage addr scns).getD (p.1 - addr.toNat + o) 0 = p.2.data.getD o 0 := by
  induction scns generalizing addr with
  | nil => exact ⟨rfl, nofun⟩
  | cons scn scns ih =>
    obtain ⟨k, hk⟩ := ha scn (List.mem_cons_self ..)
    rw [dataImage, List.length_append] at hfit
    obtain ⟨he, hlt⟩ := addAlignedSection_eq hk (by omega : addr.toNat + _ < 2 ^ 32)
    have hle : addr.toNat ≤ roundUp addr.toNat scn.align.toNat := Nat.le_add_right _ _
    rw [layout, layoutEnd, dataImage]
    generalize roundUp addr.toNat scn.align.toNat = b at he hlt hle
    have hnext : (addAlignedSection addr scn).2.toNat = b + scn.data.length := by
      rw [he, BitVec.toNat_ofNat, Nat.mod_eq_of_lt hlt]
    have hlen : (addAlignedSection addr scn).1.length = b - addr.toNat + scn.data.length := by
      rw [he, List.length_append, List.length_replicate]
    obtain ⟨hend, hget⟩ := ih (fun s hs => ha s (List.mem_cons_of_mem _ hs))
      (by omega : (addAlignedSection addr scn).2.toNat + _ < 2 ^ 32)
    rw [hnext] at hend hget
    rw [List.length_append]
    refine ⟨by omega, fun p hp => ?_⟩
    rcases List.mem_cons.mp hp with rfl | hp
    · dsimp only
      refine ⟨hle, by omega, fun o ho => ?_⟩
      rw [List.getD_append _ _ _ _ (by omega), he, List.getD_append_right _ _ _ _
        (by rw [List.length_replicate]; omega), List.length_replicate, Nat.add_sub_cancel_left]
    · obtain ⟨hle', hbound, hget⟩ := hget p hp
      refine ⟨by omega, by omega, fun o ho => ?_⟩
      rw [List.getD_append_right _ _ _ _ (by omega), ← hget o ho]
      exact congrArg (fun i => List.getD _ i 0) (by omega)

end Controller

/-- Every byte of every section is loaded where the linker put it, the header apart. -/
def SectionsLoaded (m : Memory) (scns : List ElfSection) : Prop :=
  ∀ p ∈ layout 0 scns, ∀ o < p.2.data.length, ¬ HeaderByte (p.1 + o) →
    m.flat (p.1 + o) = p.2.data.getD o 0

/-- What lies behind the last whole word of the image is zero, the header apart. -/
def TailZero (scns : List ElfSection) : Prop :=
  ∀ p ∈ layout 0 scns, ∀ o < p.2.data.length, 4 * (layoutEnd 0 scns / 4) ≤ p.1 + o →
    ¬ HeaderByte (p.1 + o) → p.2.data.getD o 0 = 0

/-- The memory holds the sections exactly when only zeros lie behind their last whole word. -/
theorem data_image_loads_iff {scns : List ElfSection} {memorySize : Word}
    (ha : ∀ scn ∈ scns, ∃ k, scn.align.toNat = 2 ^ k) (hsize : memorySize.toNat < 2 ^ 31)
    (hfit : (Controller.dataImage 0 scns).length ≤ memorySize.toNat)
    (hhead : 16 ≤ memorySize.toNat) (stackSize eventStackSize : Word) :
    ∃ m, CRunTime.init (Controller.dataImage 0 scns) memorySize stackSize eventStackSize = some m ∧
      (SectionsLoaded m scns ↔ TailZero scns) := by
  obtain ⟨m, hm, hflat⟩ := init_ok hsize hfit hhead stackSize eventStackSize
  have h0 : (0 : Word).toNat = 0 := rfl
  have hlen : (0 : Word).toNat + (Controller.dataImage 0 scns).length < 2 ^ 32 := by omega
  obtain ⟨hend, hget⟩ := Controller.dataImage_layout ha hlen
  simp only [h0, Nat.zero_add, Nat.sub_zero] at hend hget
  rw [hend] at hflat
  refine ⟨m, hm, ?_, ?_⟩
  · intro h p hp o ho htail hh
    rw [← h p hp o ho hh, hflat _ hh, if_neg (Nat.not_lt.mpr htail)]
  · intro h p hp o ho hh
    obtain ⟨-, -, hget⟩ := hget p hp
    rw [hflat _ hh, ← hget o ho]
    split
    · rfl
    · next hlt =>
      rw [hget o ho]
      exact (h p hp o ho (Nat.not_lt.mp hlt) hh).symm

/-- Two sections with three bytes of padding between them. -/
def paddedSections : List ElfSection :=
  [⟨List.replicate 17 7, 16⟩, ⟨[1, 2, 3, 4], 4⟩]

theorem data_image_loads_iff_padded : ∃ m,
    CRunTime.init (Controller.dataImage 0 paddedSections) 64 0 0 = some m ∧
      (SectionsLoaded m paddedSections ↔ TailZero paddedSections) := by
  refine data_image_loads_iff ?_ (by decide) (by decide) (by decide) 0 0
  intro scn hs
  rcases List.mem_cons.mp hs with rfl | hs
  · exact ⟨4, rfl⟩
  · cases List.mem_singleton.mp hs
    exact ⟨2, rfl⟩

/-- A section of 21 bytes, the last of which is not zero. -/
def oddSection : ElfSection := ⟨List.replicate 20 0 ++ [1], 1⟩

/-- The last byte is not loaded. -/
theorem last_byte_left_out : ∃ m,
    CRunTime.init (Controller.dataImage 0 [oddSection]) 64 0 0 = some m ∧
      ¬ SectionsLoaded m [oddSection] := by
  refine ⟨_, rfl, fun h => ?_⟩
  have hb := h (0, oddSection) (List.mem_singleton_self _) 20 (by decide) (by decide)
  revert hb
  decide

end Cibyl
