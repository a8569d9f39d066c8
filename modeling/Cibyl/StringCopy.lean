import Cibyl.ByteCopy
import Cibyl.Library.ByteString

namespace Cibyl
set_option autoImplicit true

/-- The variables of a bounded copy of a string. -/
structure Copying where
  dest : Word
  src : Word
  n : Word

def Copying.step (x : Copying) : Copying := ⟨x.dest + 1, x.src + 1, x.n - 1⟩

namespace Syscalls

open CRunTime (memoryReadByte memoryWriteByte memoryWriteWord)

def strlenTurn (s : Word) : MemM (Turn Word Word) := do
  let b ← memoryReadByte s
  return if b = 0 then .leave s else .next (s + 1)

def strlen (fuel : Nat) (src : Word) : MemM (Option Word) := fun m =>
  Exit.andThen (boundedLoop strlenTurn fuel src m) fun s m => (.ok (some (s - src)), m)

/-- The bytes up to where the destination is aligned. -/
def strncpyHead (x : Copying) : MemM (Turn Copying Word) :=
  if x.dest &&& 3 ≠ 0 ∧ 0 < x.n.toInt then do
    let b ← memoryReadByte x.src
    memoryWriteByte x.dest b
    return if b = 0 ∨ x.n - 1 = 0 then .ret (x.dest + 1) else .next x.step
  else return .leave x

/-- The last `n` bytes of a word, of which `i` holds those before. -/
def gather : Nat → Word → Copying → MemM (Turn Copying Word)
  | 0, i, x => do
    memoryWriteWord x.dest i
    return .next { x with dest := x.dest + 4 }
  | n + 1, i, x => do
    let b := (← memoryReadByte x.src) &&& 0xff
    let i := ishl i 8 ||| b
    if b = 0 then do
      memoryWriteWord x.dest (ishl i (BitVec.ofNat 32 (8 * n)))
      return .ret x.dest
    else gather n i ⟨x.dest, x.src + 1, x.n - 1⟩

def strncpyWords (x : Copying) : MemM (Turn Copying Word) :=
  if 3 < x.n.toInt then gather 4 0 x else return .leave x

def strncpyTail (x : Copying) : MemM (Turn Copying Word) :=
  if 0 < x.n.toInt then do
    let b ← memoryReadByte x.src
    memoryWriteByte x.dest b
    return if b = 0 then .leave x.step else .next x.step
  else return .leave x

def strncpy (fuel : Nat) (dest src n : Word) : MemM (Option Word) := fun m =>
  Exit.andThen (boundedLoop strncpyHead fuel ⟨dest, src, n⟩ m) fun x m =>
    Exit.andThen (boundedLoop strncpyWords fuel x m) fun x m =>
      Exit.andThen (boundedLoop strncpyTail fuel x m) fun x m => (.ok (some x.dest), m)

def strncat (fuel : Nat) (dest src n : Word) : MemM (Option Word) := fun m =>
  match strlen fuel dest m with
  | (.ok (some l), m) =>
    match strncpy fuel (dest + l) src n m with
    | (.ok (some _), m) => (.ok (some dest), m)
    | r => r
  | r => r

def strcat (fuel : Nat) (dest src : Word) : MemM (Option Word) := strncat fuel dest src 0x7fffffff

end Syscalls

/-- At `s` there are the bytes `cs` and a terminator. -/
structure StringAt (m : Memory) (s : Word) (cs : List Byte) : Prop where
  size : s.toNat + cs.length < m.size
  bytes : ∀ i ≤ cs.length, m.flat (s.toNat + i) = cs.getD i 0
  chars : 0 ∉ cs

namespace StringAt

variable {m : Memory} {s : Word} {cs : List Byte}

theorem lt (h : StringAt m s cs) : s.toNat < m.size :=
  Nat.lt_of_le_of_lt (Nat.le_add_right _ _) h.size

theorem nul (h : StringAt m s []) : m.flat s.toNat = 0 := h.bytes 0 (Nat.zero_le _)

theorem head (h : StringAt m s (c :: cs)) : m.flat s.toNat = c ∧ c ≠ 0 :=
  ⟨h.bytes 0 (Nat.zero_le _), fun hc => h.chars (hc ▸ List.mem_cons_self)⟩

theorem next_toNat (h : StringAt m s cs) : (s + 1).toNat = s.toNat + 1 := by
  have hs := h.lt
  have hm := m.size_lt
  have hz : m.size = 4 * m.words.length := rfl
  exact BitVec.toNat_add_of_lt (by have h1 : (1 : Word).toNat = 1 := rfl; omega)

theorem tail (h : StringAt m s (c :: cs)) : StringAt m (s + 1) cs where
  size := by
    have hs := h.size
    rw [List.length_cons] at hs
    rw [h.next_toNat]
    omega
  bytes := by
    intro i hi
    rw [h.next_toNat, Nat.add_assoc, Nat.add_comm 1 i,
      h.bytes (i + 1) (by rw [List.length_cons]; omega)]
    rfl
  chars := fun hc => h.chars (List.mem_cons_of_mem c hc)

end StringAt

namespace Syscalls

open CRunTime (memoryReadByte memoryWriteByte memoryWriteWord memoryReadByte_ok signExtend_and_ff
  signExtend_eq_zero)

variable {m : Memory} {s : Word} {cs : List Byte}

theorem strlen_loop (h : StringAt m s cs) (hf : cs.length < fuel) :
    ∃ r, boundedLoop strlenTurn fuel s m = (.ok (some (.leave r)), m) ∧
      r.toNat = s.toNat + cs.length := by
  induction cs generalizing s fuel with
  | nil =>
    obtain ⟨fuel, rfl⟩ : ∃ k, fuel = k + 1 := ⟨fuel - 1, (Nat.sub_add_cancel hf).symm⟩
    refine ⟨s, boundedLoop_leave ?_ fuel, rfl⟩
    rw [strlenTurn, MemM.bind_of_ok (memoryReadByte_ok h.lt), h.nul]
    rfl
  | cons c cs ih =>
    obtain ⟨fuel, rfl⟩ : ∃ k, fuel = k + 1 :=
      ⟨fuel - 1, (Nat.sub_add_cancel (Nat.zero_lt_of_lt hf)).symm⟩
    obtain ⟨hc, hc0⟩ := h.head
    obtain ⟨r, hr, hn⟩ := ih h.tail (Nat.lt_of_succ_lt_succ hf)
    have ht : strlenTurn s m = (.ok (.next (s + 1)), m) := by
      rw [strlenTurn, MemM.bind_of_ok (memoryReadByte_ok h.lt), hc,
        if_neg (mt signExtend_eq_zero.mp hc0)]
      rfl
    refine ⟨r, (boundedLoop_next ht fuel).trans hr, ?_⟩
    rw [hn, h.next_toNat, List.length_cons]
    omega

theorem strlen_ok (h : StringAt m s cs) (hf : cs.length < fuel) :
    strlen fuel s m = (.ok (some (BitVec.ofNat 32 cs.length)), m) := by
  obtain ⟨r, hr, hn⟩ := strlen_loop h hf
  rw [strlen, hr]
  have hsub : r - s = BitVec.ofNat 32 cs.length := by
    apply BitVec.eq_of_toNat_eq
    rw [BitVec.toNat_sub_of_le (by rw [BitVec.le_def]; omega), hn, Nat.add_sub_cancel_left,
      BitVec.toNat_ofNat, Nat.mod_eq_of_lt (by have hr := r.isLt; omega)]
  rw [← hsub]
  rfl

/-- The word that is gathered: the next `n` bytes of the string, and zeros behind it. -/
def gathered (n : Nat) (cs : List Byte) : List Byte := (cs ++ List.replicate n 0).take n

/-- What follows when `n` bytes have been gathered. -/
def gatherTurn (n : Nat) (cs : List Byte) (x : Copying) : Turn Copying Word :=
  if n ≤ cs.length then .next ⟨x.dest + 4, x.src + BitVec.ofNat 32 n, x.n - BitVec.ofNat 32 n⟩
  else .ret x.dest

theorem gathered_succ_cons (n : Nat) (c : Byte) (cs : List Byte) :
    gathered (n + 1) (c :: cs) = c :: gathered n cs := by
  rw [gathered, gathered, List.cons_append, List.take_succ_cons, List.replicate_succ',
    ← List.append_assoc, List.take_append_of_le_length]
  rw [List.length_append, List.length_replicate]
  exact Nat.le_add_left _ _

theorem gathered_nil (n : Nat) : gathered n [] = List.replicate n 0 := by
  rw [gathered, List.nil_append, List.take_of_length_le (Nat.le_of_eq List.length_replicate)]

theorem gathered_length (n : Nat) (cs : List Byte) : (gathered n cs).length = n := by
  rw [gathered, List.length_take, List.length_append, List.length_replicate]
  exact Nat.min_eq_left (Nat.le_add_left _ _)

theorem gathered_getD (n : Nat) (cs : List Byte) (hj : j < n) :
    (gathered n cs).getD j 0 = cs.getD j 0 := by
  rw [gathered, List.getD_eq_getElem?_getD, List.getD_eq_getElem?_getD, List.getElem?_take_of_lt hj]
  by_cases h : j < cs.length
  · rw [List.getElem?_append_left h]
  · rw [List.getElem?_append_right (Nat.le_of_not_lt h), List.getElem?_replicate,
      List.getElem?_eq_none (Nat.le_of_not_lt h)]
    split <;> rfl

theorem setWidth_eq_zero {c : Byte} : c.setWidth 32 = 0 ↔ c = 0 := by
  rw [BitVec.toNat_eq, BitVec.toNat_eq, BitVec.toNat_setWidth]
  have hc := c.isLt
  rw [Nat.mod_eq_of_lt (by omega)]
  rfl

/-- The inner loop writes one word, unless memory ends. -/
theorem gather_eq (h : StringAt m x.src cs) (hn : n ≤ 4) (i : Word) : gather n i x m =
    (memoryWriteWord x.dest (Lanes.shiftIn i (gathered n cs)) >>= fun _ =>
      pure (gatherTurn n cs x)) m := by
  induction n generalizing i cs x with
  | zero =>
    rw [gather, gatherTurn, if_pos (Nat.zero_le _), gathered, List.take_zero, Lanes.shiftIn]
    simp only [BitVec.add_zero, BitVec.sub_zero]
  | succ n ih =>
    have e : memoryReadByte x.src m = _ := memoryReadByte_ok h.lt
    rw [gather, MemM.bind_of_ok e, signExtend_and_ff]
    cases cs with
    | nil =>
      have hsh : ishl (ishl i 8 ||| (0 : Byte).setWidth 32) (BitVec.ofNat 32 (8 * n)) =
          Lanes.shiftIn i (gathered (n + 1) []) := by
        have h8 : (BitVec.ofNat 32 (8 * n)).toNat % 32 = 8 * n := by
          rw [BitVec.toNat_ofNat]
          omega
        rw [gathered_nil, List.replicate_succ, Lanes.shiftIn, Lanes.shiftIn_zeros, ishl, h8]
        rfl
      have hg : gatherTurn (n + 1) [] x = .ret x.dest := if_neg (Nat.not_succ_le_zero n)
      rw [h.nul, if_pos (setWidth_eq_zero.mpr rfl), hsh, hg]
    | cons c cs =>
      obtain ⟨hc, hc0⟩ := h.head
      rw [hc, if_neg (mt setWidth_eq_zero.mp hc0), ih h.tail (Nat.le_of_succ_le hn),
        gathered_succ_cons, Lanes.shiftIn]
      have hg : gatherTurn n cs ⟨x.dest, x.src + 1, x.n - 1⟩ = gatherTurn (n + 1) (c :: cs) x := by
        have ho : (1 : Word) + BitVec.ofNat 32 n = BitVec.ofNat 32 (n + 1) := by
          rw [Nat.add_comm n 1, BitVec.ofNat_add]
          rfl
        rw [gatherTurn, gatherTurn, List.length_cons]
        simp only [Nat.add_le_add_iff_right, BitVec.add_assoc, ho, BitVec.sub_sub]
      rw [hg]
      rfl

/-- How far a string's copy may go: the string is there, and the places it goes to are in memory
and not the string's own. -/
structure CanCopy (m : Memory) (d s : Word) (cs : List Byte) (n : Nat) : Prop where
  string : StringAt m s cs
  room : d.toNat + min n (cs.length + 1) ≤ m.size
  apart : ∀ i ≤ cs.length, ∀ j < min n (cs.length + 1), s.toNat + i ≠ d.toNat + j

/-- The first `k` characters have been copied. -/
structure Strcpied (m : Memory) (d s : Word) (cs : List Byte) (n k : Nat) (y : Copying)
    (m' : Memory) : Prop where
  dest : y.dest.toNat = d.toNat + k
  src : y.src.toNat = s.toNat + k
  count : y.n.toInt.toNat + k = n
  le : k ≤ cs.length
  memory : m'.flat = Lanes.fill m.flat d.toNat cs k
  length : m'.size = m.size

/-- The bytes from `d` on to the end of the word with the terminator. -/
def wordEnd (d l : Nat) : Nat := 4 * ((d + l) / 4 + 1) - d

/-- The terminator of `l` characters is written with the whole word it belongs to. -/
def PadsWord (d l n : Nat) : Prop := (4 - d % 4) % 4 ≤ l ∧ wordEnd d l ≤ n

instance : Decidable (PadsWord d l n) := instDecidableAnd

/-- How many bytes `strncpy` writes. -/
def span (d l n : Nat) : Nat := if n ≤ l then n else if PadsWord d l n then wordEnd d l else l + 1

/-- Where `strncpy` stops. -/
def stop (d l n : Nat) : Nat :=
  if n ≤ l then d + n else if PadsWord d l n then d + wordEnd d l - 4 else d + l + 1

structure Strncpied (m : Memory) (d : Word) (cs : List Byte) (n : Nat) (r : Word) (m' : Memory) :
    Prop where
  memory : m'.flat = Lanes.fill m.flat d.toNat cs (span d.toNat cs.length n)
  length : m'.size = m.size
  stop : r.toNat = stop d.toNat cs.length n

section

variable {m m' : Memory} {d s : Word} {cs : List Byte} {n k : Nat} {y : Copying}

theorem Strcpied.start (m : Memory) (d s : Word) (cs : List Byte) (w : Word) :
    Strcpied m d s cs w.toInt.toNat 0 ⟨d, s, w⟩ m where
  dest := rfl
  src := rfl
  count := rfl
  le := Nat.zero_le _
  memory := (Lanes.fill_none ..).symm
  length := rfl

theorem getD_eq_zero_iff (h : 0 ∉ cs) (hk : k ≤ cs.length) : cs.getD k 0 = 0 ↔ k = cs.length := by
  rw [List.getD_eq_getElem?_getD]
  constructor
  · intro he
    refine Nat.le_antisymm hk (Nat.le_of_not_lt fun hlt => h ?_)
    rw [List.getElem?_eq_getElem hlt, Option.getD_some] at he
    exact he ▸ List.getElem_mem hlt
  · intro he
    rw [List.getElem?_eq_none (Nat.le_of_eq he.symm)]
    rfl

namespace Strcpied

/-- What is still to be copied is where it was. -/
theorem rest (hc : CanCopy m d s cs n) (h : Strcpied m d s cs n k y m') :
    StringAt m' y.src (cs.drop k) where
  size := by
    have hs := hc.string.size
    have hk := h.le
    rw [h.length, h.src, List.length_drop]
    omega
  bytes := by
    intro i hi
    have hk := h.le
    rw [List.length_drop] at hi
    have hn : ¬ (d.toNat ≤ s.toNat + k + i ∧ s.toNat + k + i < d.toNat + k) := by
      intro ⟨h₁, h₂⟩
      have hcount := h.count
      refine hc.apart (k + i) (by omega) (s.toNat + k + i - d.toNat) (by omega) (by omega)
    rw [h.memory, h.src, Lanes.fill_of_not_mem hn, Nat.add_assoc, hc.string.bytes _ (by omega),
      List.getD_eq_getElem?_getD, List.getD_eq_getElem?_getD, List.getElem?_drop]
  chars := fun hm => hc.string.chars (List.mem_of_mem_drop hm)

theorem toInt_pos (h : Strcpied m d s cs n k y m') : 0 < y.n.toInt ↔ k < n := by
  have hn := h.count
  omega

theorem dest_lt (hc : CanCopy m d s cs n) (h : Strcpied m d s cs n k y m') (hn : k < n) :
    y.dest.toNat < m'.size := by
  have hr := hc.room
  have hk := h.le
  rw [h.dest, h.length]
  omega

theorem step_toNat (hc : CanCopy m d s cs n) (h : Strcpied m d s cs n k y m') {c : Nat}
    (h0 : 0 < c) (hk : k + c ≤ cs.length) (hn : k + c ≤ n) :
    (y.dest + BitVec.ofNat 32 c).toNat = d.toNat + (k + c) ∧
      (y.src + BitVec.ofNat 32 c).toNat = s.toNat + (k + c) ∧
      (y.n - BitVec.ofNat 32 c).toInt.toNat + (k + c) = n := by
  have hr := hc.room
  have hs := hc.string.size
  have hz := m.size_lt
  have hw : m.size = 4 * m.words.length := rfl
  have hcount := h.count
  have hc32 : (BitVec.ofNat 32 c).toNat = c := by
    rw [BitVec.toNat_ofNat]
    exact Nat.mod_eq_of_lt (by omega)
  have h₁ := h.dest
  have h₂ := h.src
  refine ⟨?_, ?_, ?_⟩
  · rw [BitVec.toNat_add_of_lt (by omega)]
    omega
  · rw [BitVec.toNat_add_of_lt (by omega)]
    omega
  · have hn' : y.n.toInt = y.n.toNat := by
      rw [BitVec.toInt_eq_toNat_cond] at hcount
      rw [BitVec.toInt_eq_toNat_cond]
      split
      · rfl
      · rw [if_neg ‹_›] at hcount
        omega
    have hsub : (y.n - BitVec.ofNat 32 c).toNat = y.n.toNat - c := by
      rw [BitVec.toNat_sub_of_le (by rw [BitVec.le_def]; omega), hc32]
    have hlt := y.n.toInt_lt
    rw [BitVec.toInt_eq_toNat_of_lt (by omega), hsub]
    omega

theorem advance (hc : CanCopy m d s cs n) (h : Strcpied m d s cs n k y m') {c : Nat}
    (h0 : 0 < c) (hk : k + c ≤ cs.length) (hn : k + c ≤ n) (hz : m₂.size = m'.size)
    (hf : m₂.flat = Lanes.fill m.flat d.toNat cs (k + c)) :
    Strcpied m d s cs n (k + c)
      ⟨y.dest + BitVec.ofNat 32 c, y.src + BitVec.ofNat 32 c, y.n - BitVec.ofNat 32 c⟩ m₂ where
  dest := (h.step_toNat hc h0 hk hn).1
  src := (h.step_toNat hc h0 hk hn).2.1
  count := (h.step_toNat hc h0 hk hn).2.2
  le := hk
  memory := hf
  length := hz.trans h.length

/-- One byte more, as the head and the tail copy it. -/
theorem byte (hc : CanCopy m d s cs n) (h : Strcpied m d s cs n k y m') (hn : k < n) :
    ∃ m₂, memoryReadByte y.src m' = (.ok ((cs.getD k 0).signExtend 32), m') ∧
      memoryWriteByte y.dest ((cs.getD k 0).signExtend 32) m' = (.ok (), m₂) ∧
      m₂.size = m'.size ∧ m₂.flat = Lanes.fill m.flat d.toNat cs (k + 1) ∧
      (k < cs.length → Strcpied m d s cs n (k + 1) y.step m₂) := by
  have hr := h.rest hc
  have hb : m'.flat y.src.toNat = cs.getD k 0 := by
    have h₀ := hr.bytes 0 (Nat.zero_le _)
    rwa [Nat.add_zero, List.getD_eq_getElem?_getD, List.getElem?_drop, Nat.add_zero,
      ← List.getD_eq_getElem?_getD] at h₀
  obtain ⟨m₂, hw, hz, hf⟩ := CRunTime.memoryWriteByte_flat (h.dest_lt hc hn)
    ((cs.getD k 0).signExtend 32)
  have hfill : m₂.flat = Lanes.fill m.flat d.toNat cs (k + 1) := by
    rw [hf, Lanes.write_one, CRunTime.signExtend_low, h.memory, h.dest]
    exact Lanes.fill_put fun j hj => by
      rw [List.length_singleton, Nat.lt_one_iff] at hj
      subst hj
      rfl
  refine ⟨m₂, ?_, hw, hz, hfill, fun hk => h.advance (c := 1) hc Nat.one_pos hk hn hz hfill⟩
  rw [← hb]
  exact memoryReadByte_ok hr.lt

end Strcpied

/-- What is left to read becomes less. -/
theorem Strcpied.less (hc : CanCopy m d s cs n) (h : Strcpied m d s cs n k y m')
    (h' : Strcpied m d s cs n k' y' m₂) (hk : k < k') :
    m.size - y'.src.toNat < m.size - y.src.toNat := by
  have h₁ := h.src
  have h₂ := h'.src
  have h₃ := h'.le
  have hs := hc.string.size
  omega

theorem Strcpied.next_dest (hc : CanCopy m d s cs n) (h : Strcpied m d s cs n k y m')
    (hn : k < n) : (y.dest + 1).toNat = d.toNat + k + 1 := by
  have hlt := h.dest_lt hc hn
  have hm := m'.size_lt
  have hw : m'.size = 4 * m'.words.length := rfl
  have h1 : (1 : Word).toNat = 1 := rfl
  rw [BitVec.toNat_add_of_lt (by omega), h.dest, h1]

theorem Strcpied.last_iff (h : Strcpied m d s cs n k y m') (hn : k < n) :
    y.n - 1 = 0 ↔ k + 1 = n := by
  have hcount := h.count
  rw [BitVec.toInt_eq_toNat_cond] at hcount
  rw [BitVec.toNat_eq, BitVec.toNat_sub]
  have h1 : (1 : Word).toNat = 1 := rfl
  have h0 : (0 : Word).toNat = 0 := rfl
  split at hcount <;> omega

/-- The destination is aligned for the first time, or all `n` bytes have been copied. -/
def Ready (d k n : Nat) : Prop := (4 - d % 4) % 4 ≤ k ∧ (d + k) % 4 = 0 ∨ k = n

/-- What the head leaves behind. -/
def HeadExit (m : Memory) (d s : Word) (cs : List Byte) (n : Nat) :
    Exit Copying Word → Memory → Prop
  | .leave y, m' => ∃ k, Strcpied m d s cs n k y m' ∧ Ready d.toNat k n
  | .ret r, m' => Strncpied m d cs n r m'

theorem span_of_head {d l n : Nat} (ha : (d + k) % 4 ≠ 0) (hk : k ≤ (4 - d % 4) % 4) (hl : k ≤ l)
    (hn : k < n) (h : k = l ∨ k + 1 = n) : span d l n = k + 1 ∧ stop d l n = d + k + 1 := by
  rw [span, stop]
  by_cases hnl : n ≤ l
  · rw [if_pos hnl, if_pos hnl]
    omega
  · have hp : ¬ PadsWord d l n := by
      intro hp
      have hh := hp.1
      omega
    rw [if_neg hnl, if_neg hnl, if_neg hp, if_neg hp]
    omega

theorem strncpyHead_ensures (hc : CanCopy m d s cs n) (h : Strcpied m d s cs n k y m')
    (hk : k ≤ (4 - d.toNat % 4) % 4) : ∃ t m₂, strncpyHead y m' = (.ok t, m₂) ∧
      t.Ensures (fun y m' => ∃ k ≤ (4 - d.toNat % 4) % 4, Strcpied m d s cs n k y m')
        (HeadExit m d s cs n) (fun y => m.size - y.src.toNat) y m₂ := by
  have hle := h.le
  have hdest := h.dest
  by_cases ht : y.dest &&& 3 ≠ 0 ∧ 0 < y.n.toInt
  · have hn : k < n := h.toInt_pos.mp ht.2
    have ha : (d.toNat + k) % 4 ≠ 0 := by
      rw [← hdest]
      exact mt (and_three_eq_zero _).mpr ht.1
    obtain ⟨m₂, hr, hw, hz, hf, hnext⟩ := h.byte hc hn
    refine ⟨if (cs.getD k 0).signExtend 32 = 0 ∨ y.n - 1 = 0 then .ret (y.dest + 1)
      else .next y.step, m₂, ?_, ?_⟩
    · rw [strncpyHead, if_pos ht, MemM.bind_of_ok hr, MemM.bind_of_ok hw]
      rfl
    · have hend : (cs.getD k 0).signExtend 32 = 0 ∨ y.n - 1 = 0 ↔ k = cs.length ∨ k + 1 = n :=
        or_congr (signExtend_eq_zero.trans (getD_eq_zero_iff hc.string.chars hle)) (h.last_iff hn)
      split
      · next he =>
        obtain ⟨hs, hp⟩ := span_of_head ha hk hle hn (hend.mp he)
        exact ⟨by rw [hf, hs], hz.trans h.length, by rw [h.next_dest hc hn, hp]⟩
      · next he =>
        obtain ⟨hl, -⟩ := not_or.mp (mt hend.mpr he)
        have hstep := hnext (Nat.lt_of_le_of_ne hle hl)
        exact ⟨⟨k + 1, by omega, hstep⟩, h.less hc hstep (Nat.lt_succ_self k)⟩
  · refine ⟨.leave y, m', by rw [strncpyHead, if_neg ht]; rfl, k, h, ?_⟩
    by_cases ha : y.dest &&& 3 = 0
    · have hal := (and_three_eq_zero _).mp ha
      rw [hdest] at hal
      exact .inl ⟨by omega, hal⟩
    · have hcount := h.count
      refine .inr (Nat.le_antisymm (by omega) (Nat.le_of_not_lt fun hlt => ht ⟨ha, ?_⟩))
      exact h.toInt_pos.mpr hlt

/-- What the loop over the words leaves behind. -/
def WordsExit (m : Memory) (d s : Word) (cs : List Byte) (n : Nat) :
    Exit Copying Word → Memory → Prop
  | .leave y, m' => (∃ k, Strcpied m d s cs n k y m') ∧
    (n ≤ cs.length ∨ n < wordEnd d.toNat cs.length)
  | .ret r, m' => Strncpied m d cs n r m'

theorem span_of_word {d l n : Nat} (hr : (4 - d % 4) % 4 ≤ k ∧ (d + k) % 4 = 0) (hl : k ≤ l)
    (hl' : l < k + 4) (hn : k + 4 ≤ n) : span d l n = k + 4 ∧ stop d l n = d + k := by
  have hw : wordEnd d l = k + 4 := by
    have hq : (d + l) / 4 = (d + k) / 4 := by omega
    rw [wordEnd, hq]
    omega
  have hp : PadsWord d l n := ⟨Nat.le_trans hr.1 hl, by omega⟩
  have hnl : ¬ n ≤ l := by omega
  rw [span, stop, if_neg hnl, if_neg hnl, if_pos hp, if_pos hp, hw]
  omega

/-- The word with the next four bytes, or with zeros behind the terminator. -/
theorem Strcpied.word (hc : CanCopy m d s cs n) (h : Strcpied m d s cs n k y m') (hn : k < n)
    (ha : (d.toNat + k) % 4 = 0) : ∃ m₂, gather 4 0 y m' = (.ok (gatherTurn 4 (cs.drop k) y), m₂) ∧
      m₂.size = m'.size ∧ m₂.flat = Lanes.fill m.flat d.toNat cs (k + 4) := by
  have hlt := h.dest_lt hc hn
  rw [← h.dest] at ha
  refine ⟨m'.setWord (y.dest.toNat / 4) (Lanes.shiftIn 0 (gathered 4 (cs.drop k))), ?_,
    Memory.size_setWord .., ?_⟩
  · rw [gather_eq (h.rest hc) (Nat.le_refl 4) 0,
      MemM.bind_of_ok (CRunTime.memoryWriteWord_ok hlt _)]
    rfl
  · rw [Memory.flat_setWord ha hlt, Lanes.write_shiftIn _ _ (gathered_length ..), h.memory, h.dest]
    have hp : Lanes.put (Lanes.fill m.flat d.toNat cs k) (d.toNat + k) (gathered 4 (cs.drop k)) =
        _ := Lanes.fill_put fun j hj => by
        rw [gathered_getD 4 _ (by rwa [gathered_length] at hj), List.getD_eq_getElem?_getD,
          List.getD_eq_getElem?_getD, List.getElem?_drop]
    rwa [gathered_length] at hp

theorem strncpyWords_ensures (hc : CanCopy m d s cs n) (h : Strcpied m d s cs n k y m')
    (hr : Ready d.toNat k n) : ∃ t m₂, strncpyWords y m' = (.ok t, m₂) ∧
      t.Ensures (fun y m' => ∃ k, Strcpied m d s cs n k y m' ∧ Ready d.toNat k n)
        (WordsExit m d s cs n) (fun y => m.size - y.src.toNat) y m₂ := by
  have hle := h.le
  have hcount := h.count
  by_cases ht : 3 < y.n.toInt
  · have hn : k + 4 ≤ n := by omega
    have hal := hr.resolve_right (by omega)
    obtain ⟨m₂, hg, hz, hf⟩ := h.word hc (by omega) hal.2
    refine ⟨_, m₂, by rw [strncpyWords, if_pos ht, hg], ?_⟩
    rw [gatherTurn, List.length_drop]
    split
    · next hl =>
      have hstep := h.advance (c := 4) hc (by decide) (by omega) hn hz hf
      exact ⟨⟨k + 4, hstep, .inl ⟨by omega, by omega⟩⟩, h.less hc hstep (by omega)⟩
    · next hl =>
      obtain ⟨hs, hp⟩ := span_of_word hal hle (by omega) hn
      exact ⟨by rw [hf, hs], hz.trans h.length, by rw [h.dest, hp]⟩
  · refine ⟨.leave y, m', by rw [strncpyWords, if_neg ht]; rfl, ⟨k, h⟩, ?_⟩
    rw [wordEnd]
    rcases hr with hal | rfl <;> omega

/-- What the last loop leaves behind. -/
def TailExit (m : Memory) (d : Word) (cs : List Byte) (n : Nat) :
    Exit Copying Word → Memory → Prop
  | .leave y, m' => Strncpied m d cs n y.dest m'
  | .ret _, _ => False

theorem span_of_tail {d l n : Nat} (hw : n < wordEnd d l) (hl : l < n) :
    span d l n = l + 1 ∧ stop d l n = d + l + 1 := by
  have hp : ¬ PadsWord d l n := fun hp => Nat.not_le.mpr hw hp.2
  rw [span, stop, if_neg (Nat.not_le.mpr hl), if_neg (Nat.not_le.mpr hl), if_neg hp, if_neg hp]
  exact ⟨rfl, rfl⟩

theorem strncpyTail_ensures (hc : CanCopy m d s cs n) (h : Strcpied m d s cs n k y m')
    (hw : n ≤ cs.length ∨ n < wordEnd d.toNat cs.length) :
    ∃ t m₂, strncpyTail y m' = (.ok t, m₂) ∧
      t.Ensures (fun y m' => ∃ k, Strcpied m d s cs n k y m') (TailExit m d cs n)
        (fun y => m.size - y.src.toNat) y m₂ := by
  have hle := h.le
  by_cases ht : 0 < y.n.toInt
  · have hn := h.toInt_pos.mp ht
    obtain ⟨m₂, hr, hwr, hz, hf, hnext⟩ := h.byte hc hn
    refine ⟨if (cs.getD k 0).signExtend 32 = 0 then .leave y.step else .next y.step, m₂, ?_, ?_⟩
    · rw [strncpyTail, if_pos ht, MemM.bind_of_ok hr, MemM.bind_of_ok hwr]
      rfl
    · have hend := signExtend_eq_zero.trans (getD_eq_zero_iff hc.string.chars hle)
      split
      · next he =>
        obtain rfl := hend.mp he
        obtain ⟨hs, hp⟩ := span_of_tail (hw.resolve_left (Nat.not_le.mpr hn)) hn
        exact ⟨by rw [hf, hs], hz.trans h.length, (h.next_dest hc hn).trans hp.symm⟩
      · next he =>
        have hstep := hnext (Nat.lt_of_le_of_ne hle (mt hend.mpr he))
        exact ⟨⟨k + 1, hstep⟩, h.less hc hstep (Nat.lt_succ_self k)⟩
  · refine ⟨.leave y, m', by rw [strncpyTail, if_neg ht]; rfl, ?_⟩
    have hk : k = n := by
      have hcount := h.count
      omega
    subst hk
    have hs : span d.toNat cs.length k = k := if_pos hle
    have hp : stop d.toNat cs.length k = d.toNat + k := if_pos hle
    exact ⟨by rw [h.memory, hs], h.length, by rw [h.dest, hp]⟩

/-- What `strncpy` writes and where it stops. -/
theorem strncpy_ends {w : Word} (hc : CanCopy m d s cs w.toInt.toNat) (hf : m.size < fuel) :
    ∃ r m', strncpy fuel d s w m = (.ok (some r), m') ∧ Strncpied m d cs w.toInt.toNat r m' := by
  have room (y : Copying) : m.size - y.src.toNat < fuel := Nat.lt_of_le_of_lt (Nat.sub_le _ _) hf
  obtain ⟨r₁, m₁, e₁, q₁⟩ := boundedLoop_ends
    (I := fun y m' => ∃ k ≤ (4 - d.toNat % 4) % 4, Strcpied m d s cs w.toInt.toNat k y m')
    (fun y m' hy => hy.elim fun k h => strncpyHead_ensures hc h.2 h.1)
    ⟨0, Nat.zero_le _, .start m d s cs w⟩ (room _)
  rw [strncpy, e₁]
  cases r₁ with
  | ret r => exact ⟨r, m₁, rfl, q₁⟩
  | leave y =>
    obtain ⟨k₁, h₁, hr⟩ := q₁
    obtain ⟨r₂, m₂, e₂, q₂⟩ := boundedLoop_ends
      (I := fun y m' => ∃ k, Strcpied m d s cs w.toInt.toNat k y m' ∧ Ready d.toNat k w.toInt.toNat)
      (fun y m' hy => hy.elim fun k h => strncpyWords_ensures hc h.1 h.2) ⟨k₁, h₁, hr⟩ (room _)
    simp only [Exit.andThen, e₂]
    cases r₂ with
    | ret r => exact ⟨r, m₂, rfl, q₂⟩
    | leave z =>
      obtain ⟨⟨k₂, h₂⟩, hw⟩ := q₂
      obtain ⟨r₃, m₃, e₃, q₃⟩ := boundedLoop_ends
        (I := fun y m' => ∃ k, Strcpied m d s cs w.toInt.toNat k y m')
        (fun y m' hy => hy.elim fun k h => strncpyTail_ensures hc h hw) ⟨k₂, h₂⟩ (room _)
      simp only [e₃]
      cases r₃ with
      | ret r => exact q₃.elim
      | leave u => exact ⟨_, m₃, rfl, q₃⟩

end

end Syscalls

open Syscalls

section

variable {m : Memory} {d s : Word} {cs ds : List Byte} {n : Word}

/-- `strncpy` as in C. -/
structure CStrncpy (m : Memory) (d : Word) (cs : List Byte) (n : Nat) (r : Word) (m' : Memory) :
    Prop where
  memory : m'.flat = Lanes.fill m.flat d.toNat cs n
  result : r = d

/-- `strncpy` fills one word of the destination, and so it should. -/
def OneWord (m : Memory) (d l n : Nat) : Prop :=
  d % 4 = 0 ∧ l < 4 ∧ 4 ≤ n ∧ ∀ j, 4 ≤ j → j < n → m.flat (d + j) = 0

theorem cStrncpy_iff {n : Nat} (h : Strncpied m d cs n r m') :
    CStrncpy m d cs n r m' ↔ n = 0 ∨ OneWord m d.toNat cs.length n := by
  have hm := h.memory
  have hr := h.stop
  have hd : r = d ↔ stop d.toNat cs.length n = d.toNat := by
    rw [← hr]
    exact ⟨congrArg BitVec.toNat, BitVec.eq_of_toNat_eq⟩
  have hzero (j : Nat) (hj : cs.length ≤ j) : cs.getD j 0 = 0 := by
    rw [List.getD_eq_getElem?_getD, List.getElem?_eq_none hj]
    rfl
  by_cases hl : n ≤ cs.length
  · have hs : span d.toNat cs.length n = n := if_pos hl
    have hp : stop d.toNat cs.length n = d.toNat + n := if_pos hl
    rw [hs] at hm
    rw [hp] at hd
    constructor
    · intro ⟨_, hres⟩
      exact .inl (by have hd := hd.mp hres; omega)
    · rintro (rfl | ⟨_, hl4, h4, _⟩)
      · exact ⟨hm, hd.mpr rfl⟩
      · exact absurd (Nat.le_trans h4 hl) (Nat.not_le.mpr hl4)
  · by_cases hp : PadsWord d.toNat cs.length n
    · have hs : span d.toNat cs.length n = wordEnd d.toNat cs.length := by
        rw [span, if_neg hl, if_pos hp]
      have ht : stop d.toNat cs.length n = d.toNat + wordEnd d.toNat cs.length - 4 := by
        rw [stop, if_neg hl, if_pos hp]
      obtain ⟨hp₁, hp₂⟩ := hp
      have hw : wordEnd d.toNat cs.length = 4 * ((d.toNat + cs.length) / 4 + 1) - d.toNat := rfl
      constructor
      · intro ⟨hmem, hres⟩
        have he := hd.mp hres
        have h4 : wordEnd d.toNat cs.length = 4 := by omega
        refine .inr ⟨by omega, by omega, by omega, fun j hj hjn => ?_⟩
        rw [hm, hs, h4] at hmem
        rw [(Lanes.fill_eq_iff (by omega)).mp hmem j hj hjn, hzero j (by omega)]
      · rintro (rfl | ⟨ha, hl4, h4, hz⟩)
        · exact absurd (Nat.zero_le _) hl
        · have hw4 : wordEnd d.toNat cs.length = 4 := by omega
          refine ⟨?_, hd.mpr (by omega)⟩
          rw [hm, hs, hw4, Lanes.fill_eq_iff h4]
          intro j hj hjn
          rw [hz j hj hjn, hzero j (by omega)]
    · have ht : stop d.toNat cs.length n = d.toNat + cs.length + 1 := by
        rw [stop, if_neg hl, if_neg hp]
      constructor
      · intro ⟨_, hres⟩
        have he := hd.mp hres
        omega
      · rintro (rfl | ⟨ha, hl4, h4, _⟩)
        · exact absurd (Nat.zero_le _) hl
        · refine absurd ⟨by omega, ?_⟩ hp
          rw [wordEnd]
          omega

/-- The zeros behind the terminator were there before. -/
def ZerosBehind (m : Memory) (e l : Nat) : Prop :=
  ∀ j, l + 1 ≤ j → j < wordEnd e l → m.flat (e + j) = 0

/-- When appending at `e` does what C does: a terminator that is not written was there before,
and so were the zeros that are written behind one. -/
def Appends (m : Memory) (e l : Nat) (n : Word) : Prop :=
  if n.toInt < 0 then l = 0
  else if n.toNat ≤ l then m.flat (e + n.toNat) = 0
  else PadsWord e l n.toNat → ZerosBehind m e l

theorem take_getD {n : Nat} (hj : j < n) (cs : List Byte) :
    (cs.take n).getD j 0 = cs.getD j 0 := by
  rw [List.getD_eq_getElem?_getD, List.getD_eq_getElem?_getD, List.getElem?_take_of_lt hj]

theorem getD_of_le {n : Nat} (hn : cs.length ≤ n) : cs.getD n 0 = 0 := by
  rw [List.getD_eq_getElem?_getD, List.getElem?_eq_none hn]
  rfl

theorem wordEnd_gt (e l : Nat) : l + 1 ≤ wordEnd e l := by
  rw [wordEnd]
  omega

/-- What is appended at `e` against what C appends there. -/
theorem appends_iff (h : 0 ∉ cs) (he : m.flat e = 0) :
    Lanes.fill m.flat e cs (span e cs.length n.toInt.toNat) =
      Lanes.fill m.flat e (cs.take n.toNat) (min n.toNat cs.length + 1) ↔
    Appends m e cs.length n := by
  have hi := BitVec.toInt_eq_toNat_cond (x := n)
  rw [Appends]
  by_cases hneg : n.toInt < 0
  · have hn0 : n.toInt.toNat = 0 := by omega
    have hs : span e cs.length 0 = 0 := if_pos (Nat.zero_le _)
    have hpos : 0 < n.toNat := by
      split at hi <;> omega
    have h0 : Lanes.fill m.flat e cs 0 = Lanes.fill m.flat e (cs.take n.toNat) 0 := by
      rw [Lanes.fill_none, Lanes.fill_none]
    rw [if_pos hneg, hn0, hs, h0, Lanes.fill_eq_iff (Nat.zero_le _)]
    constructor
    · intro hz
      have h₀ := hz 0 (Nat.le_refl 0) (Nat.succ_pos _)
      rw [Nat.add_zero, he, take_getD hpos] at h₀
      exact ((getD_eq_zero_iff h (Nat.zero_le _)).mp h₀.symm).symm
    · intro hl j _ hj
      have hj0 : j = 0 := by omega
      subst hj0
      rw [Nat.add_zero, he, take_getD hpos, getD_of_le (Nat.le_of_eq hl)]
  · have hn : n.toInt.toNat = n.toNat := by
      split at hi <;> omega
    rw [if_neg hneg, hn]
    by_cases hl : n.toNat ≤ cs.length
    · have hs : span e cs.length n.toNat = n.toNat := if_pos hl
      have hc : Lanes.fill m.flat e cs n.toNat = Lanes.fill m.flat e (cs.take n.toNat) n.toNat :=
        Lanes.fill_congr fun j hj => (take_getD hj cs).symm
      have htake : (cs.take n.toNat).length = n.toNat := by
        rw [List.length_take, Nat.min_eq_left hl]
      rw [if_pos hl, hs, Nat.min_eq_left hl, hc, Lanes.fill_eq_iff (Nat.le_succ _)]
      constructor
      · intro hz
        rw [hz _ (Nat.le_refl _) (Nat.lt_succ_self _), getD_of_le (Nat.le_of_eq htake)]
      · intro hz j hj hj'
        obtain rfl : j = n.toNat := Nat.le_antisymm (Nat.le_of_lt_succ hj') hj
        rw [hz, getD_of_le (Nat.le_of_eq htake)]
    · have hlt := Nat.lt_of_not_le hl
      rw [if_neg hl, List.take_of_length_le (Nat.le_of_lt hlt), Nat.min_eq_right (Nat.le_of_lt hlt)]
      by_cases hp : PadsWord e cs.length n.toNat
      · have hs : span e cs.length n.toNat = wordEnd e cs.length := by
          rw [span, if_neg hl, if_pos hp]
        rw [hs, eq_comm, Lanes.fill_eq_iff (wordEnd_gt _ _), imp_iff_right hp, ZerosBehind]
        exact forall₃_congr fun j hj _ => by rw [getD_of_le (Nat.le_of_succ_le hj)]
      · have hs : span e cs.length n.toNat = cs.length + 1 := by
          rw [span, if_neg hl, if_neg hp]
        rw [hs]
        exact iff_of_true rfl fun h => absurd h hp

/-- `strncat` as in C, with `e` the end of the destination's string. -/
structure CStrncat (m : Memory) (d : Word) (e : Nat) (cs : List Byte) (n : Nat) (r : Word)
    (m' : Memory) : Prop where
  memory : m'.flat = Lanes.fill m.flat e (cs.take n) (min n cs.length + 1)
  result : r = d

/-- Where a string may be appended. -/
structure CanAppend (m : Memory) (d s : Word) (ds cs : List Byte) (n : Nat) : Prop where
  string : StringAt m s cs
  dest : StringAt m d ds
  room : d.toNat + ds.length + min n cs.length + 1 ≤ m.size
  apart : ∀ i ≤ cs.length, ∀ j < ds.length + min n cs.length + 1, s.toNat + i ≠ d.toNat + j

theorem strncat_ends (h : CanAppend m d s ds cs n.toNat) (hf : m.size < fuel) :
    ∃ r m', strncat fuel d s n m = (.ok (some r), m') ∧
      (CStrncat m d (d.toNat + ds.length) cs n.toNat r m' ↔
        Appends m (d.toNat + ds.length) cs.length n) := by
  have hsz := m.size_lt
  have hw : m.size = 4 * m.words.length := rfl
  have hds := h.dest.size
  have he : (d + BitVec.ofNat 32 ds.length).toNat = d.toNat + ds.length := by
    have hd32 : (BitVec.ofNat 32 ds.length).toNat = ds.length := by
      rw [BitVec.toNat_ofNat]
      exact Nat.mod_eq_of_lt (by omega)
    rw [BitVec.toNat_add_of_lt (by omega), hd32]
  have hn : n.toInt.toNat ≤ n.toNat := by
    rw [BitVec.toInt_eq_toNat_cond]
    split <;> omega
  have hc : CanCopy m (d + BitVec.ofNat 32 ds.length) s cs n.toInt.toNat := by
    refine ⟨h.string, ?_, fun i hi j hj => ?_⟩
    · have hr := h.room
      rw [he]
      omega
    · have ha := h.apart i hi (ds.length + j) (by omega)
      rw [he]
      omega
  obtain ⟨r, m', hrun, hr⟩ := strncpy_ends hc hf
  refine ⟨d, m', ?_, ?_⟩
  · rw [strncat, strlen_ok h.dest (by omega)]
    simp only [hrun]
  · have hm := hr.memory
    rw [he] at hm
    have hnul : m.flat (d.toNat + ds.length) = 0 := by
      rw [h.dest.bytes _ (Nat.le_refl _), getD_of_le (Nat.le_refl _)]
    rw [← appends_iff h.string.chars hnul, ← hm]
    exact ⟨fun hs => hs.memory, fun hs => ⟨hs, rfl⟩⟩

/-- The string functions end. They do what C does exactly when `strncpy` fills one word, and when
`strncat` and `strcat` find the zeros there that they do not write or should not write. -/
theorem string_functions_iff (m : Memory) (d s n : Word) (ds cs : List Byte) (hf : m.size < fuel) :
    (StringAt m s cs → d.toNat + n.toNat ≤ m.size →
      (∀ i ≤ cs.length, ∀ j < n.toNat, s.toNat + i ≠ d.toNat + j) →
      ∃ r m', strncpy fuel d s n m = (.ok (some r), m') ∧
        (CStrncpy m d cs n.toNat r m' ↔ n.toNat = 0 ∨ OneWord m d.toNat cs.length n.toNat)) ∧
    (CanAppend m d s ds cs n.toNat → ∃ r m', strncat fuel d s n m = (.ok (some r), m') ∧
      (CStrncat m d (d.toNat + ds.length) cs n.toNat r m' ↔
        Appends m (d.toNat + ds.length) cs.length n)) ∧
    (CanAppend m d s ds cs cs.length → ∃ r m', strcat fuel d s m = (.ok (some r), m') ∧
      (CStrncat m d (d.toNat + ds.length) cs cs.length r m' ↔
        ((4 - (d.toNat + ds.length) % 4) % 4 ≤ cs.length →
          ZerosBehind m (d.toNat + ds.length) cs.length))) := by
  have hsz := m.size_lt
  have hw : m.size = 4 * m.words.length := rfl
  refine ⟨fun hs hroom hapart => ?_, fun h => strncat_ends h hf, fun h => ?_⟩
  · have hn : n.toInt.toNat = n.toNat := by
      rw [BitVec.toInt_eq_toNat_of_lt (by omega)]
      rfl
    have hc : CanCopy m d s cs n.toInt.toNat := by
      rw [hn]
      exact ⟨hs, by omega, fun i hi j hj => hapart i hi j (by omega)⟩
    obtain ⟨r, m', hrun, hr⟩ := strncpy_ends hc hf
    rw [hn] at hr
    exact ⟨r, m', hrun, cStrncpy_iff hr⟩
  · have hroom := h.room
    have hmax : (0x7fffffff : Word).toNat = 2 ^ 31 - 1 := rfl
    have hmin : min (0x7fffffff : Word).toNat cs.length = min cs.length cs.length := by omega
    have hcan : CanAppend m d s ds cs (0x7fffffff : Word).toNat :=
      ⟨h.string, h.dest, by rw [hmin]; exact h.room, by rw [hmin]; exact h.apart⟩
    obtain ⟨r, m', hrun, hr⟩ := strncat_ends hcan hf
    refine ⟨r, m', hrun, ?_⟩
    have hpos : ¬ (0x7fffffff : Word).toInt < 0 := by decide
    have htake : cs.take (0x7fffffff : Word).toNat = cs.take cs.length := by
      rw [List.take_of_length_le (by omega), List.take_length]
    have hpads : PadsWord (d.toNat + ds.length) cs.length (0x7fffffff : Word).toNat ↔
        (4 - (d.toNat + ds.length) % 4) % 4 ≤ cs.length := by
      refine and_iff_left ?_
      rw [wordEnd]
      omega
    rw [Appends, if_neg hpos, if_neg (by omega), hpads] at hr
    refine Iff.trans ⟨fun hs => ⟨?_, hs.result⟩, fun hs => ⟨?_, hs.result⟩⟩ hr
    · rw [hs.memory, hmin, htake]
    · rw [hs.memory, hmin, htake]

end

/-- The string `a` at 0, with other bytes behind it, and the string `bc` at 8. -/
def twoStrings : Memory := ⟨[0x61007878, 0, 0x62630000], by decide⟩

theorem twoStrings_strings : StringAt twoStrings 8 [0x62, 0x63] ∧ StringAt twoStrings 0 [0x61] :=
  ⟨⟨by decide, by decide, by decide⟩, ⟨by decide, by decide, by decide⟩⟩

theorem string_functions_append : ∃ r m', strcat 13 0 8 twoStrings = (.ok (some r), m') ∧
    CStrncat twoStrings 0 1 [0x62, 0x63] 2 r m' := by
  obtain ⟨r, m', he, hr⟩ := (string_functions_iff twoStrings 0 8 0 [0x61] [0x62, 0x63]
    (by decide : twoStrings.size < 13)).2.2
      ⟨twoStrings_strings.1, twoStrings_strings.2, by decide, by decide⟩
  exact ⟨r, m', he, hr.mpr fun h => absurd h (by decide)⟩

/-- One character is appended, and no terminator. -/
theorem appends_no_terminator : CanAppend twoStrings 0 8 [0x61] [0x62, 0x63] 1 ∧
    ∃ m', strncat 13 0 8 1 twoStrings = (.ok (some 0), m') ∧
      ¬ CStrncat twoStrings 0 1 [0x62, 0x63] 1 0 m' := by
  refine ⟨⟨twoStrings_strings.1, twoStrings_strings.2, by decide, by decide⟩,
    ⟨[0x61627878, 0, 0x62630000], by decide⟩, rfl, fun h => ?_⟩
  exact absurd (congrFun h.memory 2) (by decide)

end Cibyl
