import Cibyl.ByteCopy
import Cibyl.Library.FirstDifference

namespace Cibyl
set_option autoImplicit true

/-- The variables of a comparison. -/
structure Comparing where
  s : Word
  d : Word
  a : Word
  b : Word

namespace Syscalls

open CRunTime (memoryReadByte)

/-- A turn of the loop, which goes on while `more`. -/
def compareTurn (more : Word → Word → Bool) (s1 n : Word) (x : Comparing) :
    MemM (Turn Comparing Word) :=
  if n.sle (x.s - s1) then return .leave x
  else do
    let a ← memoryReadByte x.s
    let b ← memoryReadByte x.d
    return if more a b then .next ⟨x.s + 1, x.d + 1, a, b⟩ else .leave ⟨x.s + 1, x.d + 1, a, b⟩

def order (a b : Word) : Word := if a.slt b then -1 else if b.slt a then 1 else 0

def compare (more : Word → Word → Bool) (fuel : Nat) (s1 s2 n : Word) : MemM (Option Word) :=
  fun m => Exit.andThen (boundedLoop (compareTurn more s1 n) fuel ⟨s1, s2, 0, 0⟩ m)
    fun x m => (.ok (some (order x.a x.b)), m)

def strncmp : Nat → Word → Word → Word → MemM (Option Word) :=
  compare fun a b => a == b && b != 0 && a != 0

/-- `Integer.MAX_VALUE`. -/
def maxValue : Word := 0x7fffffff

def strcmp (fuel : Nat) (s1 s2 : Word) : MemM (Option Word) := strncmp fuel s1 s2 maxValue

def memcmp : Nat → Word → Word → Word → MemM (Option Word) := compare fun a b => a == b

end Syscalls

/-- The bytes of the memory from `a` on. -/
def Memory.from (m : Memory) (a : Word) (i : Nat) : Byte := m.flat (a.toNat + i)

theorem order_sign (a b : Byte) :
    SignOf a.toInt b.toInt (Syscalls.order (a.signExtend 32) (b.signExtend 32)).toInt := by
  have hs (x : Byte) : (x.signExtend 32).toInt = x.toInt :=
    BitVec.toInt_signExtend_of_le (by decide)
  simp only [Syscalls.order, BitVec.slt_eq_decide, hs, decide_eq_true_eq]
  refine ⟨fun h => ?_, fun h => ?_, fun h => ?_⟩
  · rw [if_pos h]
    decide
  · rw [if_neg (by omega), if_neg (by omega)]
    decide
  · rw [if_neg (by omega), if_pos h]
    decide

/-- As unsigned and as signed numbers bytes are ordered alike when the top bits are alike. -/
theorem toNat_lt_iff_toInt_lt {a b : Byte} (h : a ≠ b) :
    ((a.toNat : Int) < b.toNat ↔ a.toInt < b.toInt) ↔ a.msb = b.msb := by
  have hne : a.toNat ≠ b.toNat := fun he => h (BitVec.eq_of_toNat_eq he)
  have ha := a.isLt
  have hb := b.isLt
  rw [BitVec.toInt_eq_toNat_cond, BitVec.toInt_eq_toNat_cond, BitVec.msb_eq_decide,
    BitVec.msb_eq_decide, decide_eq_decide]
  omega

/-- What ends a string. -/
def IsNul (b : Byte) : Prop := b = 0

/-- Bytes without a terminator. -/
def NoEnd (_ : Byte) : Prop := False

/-- The test of the loop goes on exactly when the bytes agree and are not `final`. -/
def Goes (more : Word → Word → Bool) (final : Byte → Prop) : Prop :=
  ∀ a b : Byte, more (a.signExtend 32) (b.signExtend 32) = true ↔ a = b ∧ ¬ final a

theorem goes_memcmp : Goes (fun a b => a == b) NoEnd := by
  intro a b
  rw [beq_iff_eq]
  exact ⟨fun h => ⟨CRunTime.signExtend_injective h, id⟩, fun h => congrArg _ h.1⟩

theorem goes_strncmp : Goes (fun a b => a == b && b != 0 && a != 0) IsNul := by
  intro a b
  rw [Bool.and_eq_true, Bool.and_eq_true, beq_iff_eq, bne_iff_ne, bne_iff_ne, ne_eq, ne_eq,
    CRunTime.signExtend_eq_zero, CRunTime.signExtend_eq_zero]
  constructor
  · intro ⟨⟨he, _⟩, ha⟩
    exact ⟨CRunTime.signExtend_injective he, ha⟩
  · intro ⟨he, ha⟩
    subst he
    exact ⟨⟨rfl, ha⟩, ha⟩

/-- The bytes that a comparison of the first `n` may read are in memory. -/
def CanCompare (m : Memory) (final : Byte → Prop) (s1 s2 n : Word) : Prop :=
  ∀ i : Nat, (i : Int) < n.toInt → AgreeTo final (m.from s1) (m.from s2) i →
    s1.toNat + i < m.size ∧ s2.toNat + i < m.size

namespace Syscalls

variable {m : Memory} {final : Byte → Prop} {s1 s2 n : Word} {more : Word → Word → Bool}

/-- The first `i` bytes have been compared and the comparison goes on. -/
structure Compared (m : Memory) (final : Byte → Prop) (s1 s2 : Word) (i : Nat) (x : Comparing) :
    Prop where
  s : x.s.toNat = s1.toNat + i
  d : x.d.toNat = s2.toNat + i
  lt : i < 2 ^ 31
  equal : x.a = x.b
  agree : AgreeTo final (m.from s1) (m.from s2) i

/-- The result that stands behind the loop. -/
def Decided (m : Memory) (final : Byte → Prop) (s1 s2 n : Word) : Exit Comparing Word → Prop
  | .leave x => Orders BitVec.toInt final (m.from s1) (m.from s2) (fun i => (i : Int) < n.toInt)
      (order x.a x.b).toInt
  | .ret _ => False

theorem order_self (a : Word) : (order a a).toInt = 0 := by
  have h : a.slt a = false := by
    rw [BitVec.slt_eq_decide]
    exact decide_eq_false (Int.lt_irrefl _)
  rw [order, h]
  rfl

theorem Compared.offset (h : Compared m final s1 s2 i x) : (x.s - s1).toInt = i := by
  have hs := h.s
  have hi := h.lt
  have hsub : (x.s - s1).toNat = i := by
    rw [BitVec.toNat_sub_of_le (by rw [BitVec.le_def]; omega)]
    omega
  rw [BitVec.toInt_eq_toNat_of_lt (by omega), hsub]

theorem Compared.next (h : Compared m final s1 s2 i x) (he : m.from s1 i = m.from s2 i)
    (hf : ¬ final (m.from s1 i)) (hs : x.s.toNat < m.size) (hd : x.d.toNat < m.size) (hab : a = b) :
    Compared m final s1 s2 (i + 1) ⟨x.s + 1, x.d + 1, a, b⟩ ∧
      m.size - (x.s + 1).toNat < m.size - x.s.toNat := by
  have hsz := m.size_lt
  have hsize : m.size = 4 * m.words.length := rfl
  have h1 : (1 : Word).toNat = 1 := rfl
  have hs' : (x.s + 1).toNat = x.s.toNat + 1 := BitVec.toNat_add_of_lt (by omega)
  have hd' : (x.d + 1).toNat = x.d.toNat + 1 := BitVec.toNat_add_of_lt (by omega)
  have h₁ := h.s
  have h₂ := h.d
  exact ⟨⟨hs'.trans (by omega), hd'.trans (by omega), by omega, hab, h.agree.succ he hf⟩, by omega⟩

theorem compareTurn_ensures (hg : Goes more final) (hr : CanCompare m final s1 s2 n)
    (h : Compared m final s1 s2 i x) : ∃ t m', compareTurn more s1 n x m = (.ok t, m') ∧
      t.Ensures (fun x m' => m' = m ∧ ∃ i, Compared m final s1 s2 i x)
        (fun r m' => m' = m ∧ Decided m final s1 s2 n r) (fun x => m.size - x.s.toNat) x m' := by
  by_cases hn : n.toInt ≤ i
  · refine ⟨.leave x, m, ?_, rfl, ?_⟩
    · rw [compareTurn, BitVec.sle_eq_decide, h.offset, if_pos (decide_eq_true hn)]
      rfl
    · rw [Decided, h.equal, order_self]
      exact .of_same fun j hj hdj => hdj.not_lt h.agree (by omega)
  · obtain ⟨hs, hd⟩ := hr i (Int.not_le.mp hn) h.agree
    rw [← h.s] at hs
    rw [← h.d] at hd
    have hfa : m.flat x.s.toNat = m.from s1 i := by rw [Memory.from, h.s]
    have hfb : m.flat x.d.toNat = m.from s2 i := by rw [Memory.from, h.d]
    let a := (m.from s1 i).signExtend 32
    let b := (m.from s2 i).signExtend 32
    refine ⟨if more a b then .next ⟨x.s + 1, x.d + 1, a, b⟩ else .leave ⟨x.s + 1, x.d + 1, a, b⟩,
      m, ?_, ?_⟩
    · rw [compareTurn, BitVec.sle_eq_decide, h.offset, if_neg (by rw [decide_eq_true_eq]; exact hn),
        MemM.bind_of_ok (CRunTime.memoryReadByte_ok hs),
        MemM.bind_of_ok (CRunTime.memoryReadByte_ok hd), hfa, hfb, MemM.pure_apply]
    · split
      · next hm =>
        obtain ⟨he, hf⟩ := (hg _ _).mp hm
        obtain ⟨hk, hlt⟩ := h.next he hf hs hd (congrArg (BitVec.signExtend 32) he)
        exact ⟨⟨rfl, _, hk⟩, hlt⟩
      · next hm =>
        refine ⟨rfl, ?_⟩
        by_cases he : m.from s1 i = m.from s2 i
        · have hf : final (m.from s1 i) := by
            by_contra hf
            exact hm ((hg _ _).mpr ⟨he, hf⟩)
          have hab : a = b := congrArg (BitVec.signExtend 32) he
          simp only [Decided, hab, order_self]
          exact .of_same fun j _ => h.agree.not_firstDifference he hf
        · exact .of_difference ⟨h.agree, he⟩ (Int.not_le.mp hn) (order_sign _ _)

/-- A comparison ends and orders the bytes as signed numbers. -/
theorem compare_orders (hg : Goes more final) (hr : CanCompare m final s1 s2 n)
    (hf : m.size < fuel) : ∃ r, compare more fuel s1 s2 n m = (.ok (some r), m) ∧
      Orders BitVec.toInt final (m.from s1) (m.from s2) (fun i => (i : Int) < n.toInt) r.toInt := by
  have start : Compared m final s1 s2 0 ⟨s1, s2, 0, 0⟩ :=
    ⟨rfl, rfl, by decide, rfl, fun j hj => absurd hj (Nat.not_lt_zero j)⟩
  have step (x : Comparing) (m' : Memory) (h : m' = m ∧ ∃ i, Compared m final s1 s2 i x) :
      ∃ t m'', compareTurn more s1 n x m' = (.ok t, m'') ∧
        t.Ensures (fun x m' => m' = m ∧ ∃ i, Compared m final s1 s2 i x)
          (fun r m' => m' = m ∧ Decided m final s1 s2 n r) (fun x => m.size - x.s.toNat) x m'' := by
    obtain ⟨rfl, i, h⟩ := h
    exact compareTurn_ensures hg hr h
  obtain ⟨r, m', he, rfl, hq⟩ := boundedLoop_ends step ⟨rfl, 0, start⟩
    (Nat.lt_of_le_of_lt (Nat.sub_le _ _) hf)
  cases r with
  | leave x => exact ⟨_, by rw [compare, he]; rfl, hq⟩
  | ret a => exact hq.elim

end Syscalls

/-- The first `n` bytes from `a` on are in memory. -/
def HasBytes (m : Memory) (a n : Word) : Prop := a.toNat + n.toNat ≤ m.size

instance : Decidable (HasBytes m a n) := inferInstanceAs (Decidable (_ ≤ _))

/-- The string at `a`, with its terminator, is in memory. -/
def HasString (m : Memory) (a : Word) : Prop :=
  ∃ k, a.toNat + k < m.size ∧ IsNul (m.from a k)

/-- As far as `n` bytes go, the string at `a` is in memory. -/
def HasPrefix (m : Memory) (a n : Word) : Prop := HasBytes m a n ∨ HasString m a

section

variable {m : Memory} {s1 s2 n : Word}

theorem HasBytes.lt (h : HasBytes m a n) {i : Nat} (hi : (i : Int) < n.toInt) :
    a.toNat + i < m.size := by
  rw [HasBytes] at h
  have hn : n.toInt ≤ n.toNat := by
    rw [BitVec.toInt_eq_toNat_cond]
    split <;> omega
  omega

theorem HasBytes.toInt (h : HasBytes m a n) : n.toInt = n.toNat := by
  have hs := m.size_lt
  have hz : m.size = 4 * m.words.length := rfl
  rw [HasBytes] at h
  exact BitVec.toInt_eq_toNat_of_lt (by omega)

theorem canCompare_bytes (h₁ : HasBytes m s1 n) (h₂ : HasBytes m s2 n) :
    CanCompare m NoEnd s1 s2 n :=
  fun _ hi _ => ⟨h₁.lt hi, h₂.lt hi⟩

theorem HasPrefix.lt (h : HasPrefix m a n) {i : Nat} (hi : (i : Int) < n.toInt)
    (hn : ∀ j < i, ¬ IsNul (m.from a j)) : a.toNat + i < m.size := by
  cases h with
  | inl h => exact h.lt hi
  | inr h =>
    obtain ⟨k, hk, hz⟩ := h
    have hik : i ≤ k := Nat.le_of_not_lt fun hlt => hn k hlt hz
    omega

theorem canCompare_strings (h₁ : HasPrefix m s1 n) (h₂ : HasPrefix m s2 n) :
    CanCompare m IsNul s1 s2 n := by
  intro i hi ha
  exact ⟨h₁.lt hi fun j hj => (ha j hj).2, h₂.lt hi fun j hj => (ha j hj).1 ▸ (ha j hj).2⟩

/-- The strings differ within the memory. -/
theorem HasString.difference_lt (h : HasString m s1)
    (hd : FirstDifference IsNul (m.from s1) (m.from s2) i) :
    (i : Int) < Syscalls.maxValue.toInt := by
  obtain ⟨k, hk, hz⟩ := h
  have hik : i ≤ k := Nat.le_of_not_lt fun hlt => (hd.1 k hlt).2 hz
  have hs := m.size_lt
  have hm : m.size = 4 * m.words.length := rfl
  have hv : Syscalls.maxValue.toInt = 2 ^ 31 - 1 := by decide
  omega

/-- The sign of `r` orders the bytes as C does. -/
def Unsigned (m : Memory) (final : Byte → Prop) (s1 s2 : Word) (within : Nat → Prop) (r : Word) :
    Prop :=
  Orders (fun b => (b.toNat : Int)) final (m.from s1) (m.from s2) within r.toInt

theorem unsigned_iff {final : Byte → Prop} {within : Nat → Prop} {r : Word}
    (h : Orders BitVec.toInt final (m.from s1) (m.from s2) (fun i => (i : Int) < n.toInt) r.toInt)
    (hw : ∀ i : Nat, (i : Int) < n.toInt → within i) : Unsigned m final s1 s2 within r ↔
      ∀ i, within i → FirstDifference final (m.from s1) (m.from s2) i →
        (i : Int) < n.toInt ∧ (m.from s1 i).msb = (m.from s2 i).msb := by
  have hk : Function.Injective fun b : Byte => (b.toNat : Int) := fun _ _ h =>
    BitVec.eq_of_toNat_eq (Int.ofNat_inj.mp h)
  have hk' : Function.Injective fun b : Byte => b.toInt := fun _ _ h => BitVec.eq_of_toInt_eq h
  refine (h.iff_of_narrow hk hk' hw).trans (forall_congr' fun i => ?_)
  exact forall₂_congr fun _ hd => and_congr_right fun _ => toNat_lt_iff_toInt_lt hd.2

/-- The comparisons end. They order as C does when the first differing bytes have the same top
bit and come before a bound below 2³¹. -/
theorem comparisons_unsigned_iff (m : Memory) (s1 s2 n : Word) (hf : m.size < fuel) :
    (HasBytes m s1 n → HasBytes m s2 n →
      ∃ r, Syscalls.memcmp fuel s1 s2 n m = (.ok (some r), m) ∧
        (Unsigned m NoEnd s1 s2 (· < n.toNat) r ↔ ∀ i < n.toNat,
          FirstDifference NoEnd (m.from s1) (m.from s2) i →
            (m.from s1 i).msb = (m.from s2 i).msb)) ∧
    (HasPrefix m s1 n → HasPrefix m s2 n →
      ∃ r, Syscalls.strncmp fuel s1 s2 n m = (.ok (some r), m) ∧
        (Unsigned m IsNul s1 s2 (· < n.toNat) r ↔ ∀ i < n.toNat,
          FirstDifference IsNul (m.from s1) (m.from s2) i →
            (i : Int) < n.toInt ∧ (m.from s1 i).msb = (m.from s2 i).msb)) ∧
    (HasString m s1 → HasString m s2 →
      ∃ r, Syscalls.strcmp fuel s1 s2 m = (.ok (some r), m) ∧
        (Unsigned m IsNul s1 s2 (fun _ => True) r ↔ ∀ i,
          FirstDifference IsNul (m.from s1) (m.from s2) i →
            (m.from s1 i).msb = (m.from s2 i).msb)) := by
  have narrow (i : Nat) (hi : (i : Int) < n.toInt) : i < n.toNat := by
    rw [BitVec.toInt_eq_toNat_cond] at hi
    split at hi <;> omega
  refine ⟨fun h₁ h₂ => ?_, fun h₁ h₂ => ?_, fun h₁ h₂ => ?_⟩
  · obtain ⟨r, he, ho⟩ := Syscalls.compare_orders goes_memcmp (canCompare_bytes h₁ h₂) hf
    refine ⟨r, he, (unsigned_iff ho narrow).trans (forall₃_congr fun i hi _ => ?_)⟩
    exact and_iff_right (by rw [h₁.toInt]; exact Int.ofNat_lt.mpr hi)
  · obtain ⟨r, he, ho⟩ := Syscalls.compare_orders goes_strncmp (canCompare_strings h₁ h₂) hf
    exact ⟨r, he, unsigned_iff ho narrow⟩
  · obtain ⟨r, he, ho⟩ := Syscalls.compare_orders goes_strncmp
      (canCompare_strings (n := Syscalls.maxValue) (.inr h₁) (.inr h₂)) hf
    refine ⟨r, he, (unsigned_iff ho fun _ _ => trivial).trans (forall_congr' fun i => ?_)⟩
    rw [forall_const]
    exact forall_congr' fun hd => and_iff_right (h₁.difference_lt hd)

end

/-- Two strings of one byte, of which one has the top bit. -/
def highAndLow : Memory := ⟨[0x80000000, 0x7f000000], by decide⟩

theorem comparisons_unsigned_self :
    ∃ r, Syscalls.strcmp 9 4 4 highAndLow = (.ok (some r), highAndLow) ∧
    Unsigned highAndLow IsNul 4 4 (fun _ => True) r := by
  have hs : HasString highAndLow 4 := ⟨1, by decide, rfl⟩
  obtain ⟨r, he, hr⟩ := (comparisons_unsigned_iff highAndLow 4 4 0
    (by decide : highAndLow.size < 9)).2.2 hs hs
  exact ⟨r, he, hr.mpr fun i _ => rfl⟩

/-- The byte 0x80 comes before the byte 0x7f. -/
theorem compares_signed : HasBytes highAndLow 0 1 ∧ HasBytes highAndLow 4 1 ∧
    Syscalls.memcmp 9 0 4 1 highAndLow = (.ok (some (-1)), highAndLow) ∧
    ¬ Unsigned highAndLow NoEnd 0 4 (· < 1) (-1) := by
  refine ⟨by decide, by decide, rfl, fun h => ?_⟩
  have hd : FirstDifference NoEnd (highAndLow.from 0) (highAndLow.from 4) 0 :=
    ⟨fun j hj => absurd hj (Nat.not_lt_zero j), by decide⟩
  exact absurd ((h.differ 0 (by decide) hd).pos (by decide)) (by decide)

end Cibyl
