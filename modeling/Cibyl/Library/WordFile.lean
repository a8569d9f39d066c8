import Mathlib.Data.List.TakeWhile
import Mathlib.Data.Nat.Bitwise

namespace WordFile
set_option autoImplicit true

/-- The size of a machine word in bytes and the order of its bytes. -/
structure Format where
  size : Nat
  bigEndian : Bool

def bytesLE : Nat → Nat → List UInt8
  | 0, _ => []
  | size + 1, n => UInt8.ofNat n :: bytesLE size (n / 256)

def ofBytesLE : List UInt8 → Nat
  | [] => 0
  | b :: bs => b.toNat + 256 * ofBytesLE bs

theorem bytesLE_length (size n : Nat) : (bytesLE size n).length = size := by
  induction size generalizing n with
  | zero => rfl
  | succ size ih => rw [bytesLE, List.length_cons, ih]

theorem ofBytesLE_bytesLE (h : n < 256 ^ size) : ofBytesLE (bytesLE size n) = n := by
  induction size generalizing n with
  | zero =>
    rw [Nat.pow_zero, Nat.lt_one_iff] at h
    exact h.symm
  | succ size ih =>
    have hd : n / 256 < 256 ^ size := Nat.div_lt_of_lt_mul (by rwa [Nat.pow_succ'] at h)
    have hb : (UInt8.ofNat n).toNat = n % 256 := UInt8.toNat_ofNat'
    rw [bytesLE, ofBytesLE, ih hd, hb]
    exact Nat.mod_add_div n 256

namespace Format

variable (f : Format)

def pack (n : Nat) : List UInt8 :=
  if f.bigEndian then (bytesLE f.size n).reverse else bytesLE f.size n

def unpack (bs : List UInt8) : Nat := ofBytesLE (if f.bigEndian then bs.reverse else bs)

theorem pack_length (n : Nat) : (f.pack n).length = f.size := by
  rw [pack]
  split
  · rw [List.length_reverse, bytesLE_length]
  · exact bytesLE_length _ _

theorem unpack_pack (h : n < 256 ^ f.size) : f.unpack (f.pack n) = n := by
  rw [unpack, pack]
  split
  · rw [List.reverse_reverse, ofBytesLE_bytesLE h]
  · exact ofBytesLE_bytesLE h

/-- The bytes of the words; `none` where one of them is too large. -/
def packAll (ws : List Nat) : Option (List UInt8) :=
  if ∀ w ∈ ws, w < 256 ^ f.size then some (ws.flatMap f.pack) else none

/-- The word at a position; `none` where it is not there. -/
def readWord (data : List UInt8) (pos : Nat) : Option Nat :=
  if pos + f.size ≤ data.length then some (f.unpack ((data.drop pos).take f.size)) else none

/-- The words stand one after the other from `pos` on. -/
def Words (data : List UInt8) : Nat → List Nat → Prop
  | _, [] => True
  | pos, w :: ws => f.readWord data pos = some w ∧ Words data (pos + f.size) ws

variable {f}

theorem words_append {data : List UInt8} : f.Words data pos (ws ++ vs) ↔
    f.Words data pos ws ∧ f.Words data (pos + f.size * ws.length) vs := by
  induction ws generalizing pos with
  | nil => exact (true_and _).symm ▸ Iff.rfl
  | cons w ws ih =>
    rw [List.cons_append, Words, Words, ih, List.length_cons, Nat.mul_succ, Nat.add_comm (_ * _),
      Nat.add_assoc, and_assoc]

theorem words_get {data : List UInt8} (h : f.Words data (f.size * idx) ws)
    (hk : ws[k]? = some w) : f.readWord data (f.size * (idx + k)) = some w := by
  induction ws generalizing idx k with
  | nil => cases hk
  | cons w' ws ih =>
    cases k with
    | zero =>
      cases hk
      exact h.1
    | succ k =>
      rw [Nat.add_comm k, ← Nat.add_assoc]
      exact ih h.2 hk

theorem readWord_pack (h : w < 256 ^ f.size) (pre post : List UInt8) :
    f.readWord (pre ++ (f.pack w ++ post)) pre.length = some w := by
  have hl : pre.length + f.size ≤ (pre ++ (f.pack w ++ post)).length := by
    rw [List.length_append, List.length_append, pack_length]
    omega
  rw [readWord, if_pos hl, List.drop_left, List.take_append_of_le_length (pack_length f w).ge,
    List.take_of_length_le (pack_length f w).le, unpack_pack f h]

theorem words_flatMap_pack (h : ∀ w ∈ ws, w < 256 ^ f.size) (pre post : List UInt8) :
    f.Words (pre ++ (ws.flatMap f.pack ++ post)) pre.length ws := by
  induction ws generalizing pre with
  | nil => exact True.intro
  | cons w ws ih =>
    rw [List.flatMap_cons, List.append_assoc]
    refine ⟨readWord_pack (h w (List.mem_cons_self ..)) pre _, ?_⟩
    have hw := ih (fun w hw => h w (List.mem_cons_of_mem _ hw)) (pre ++ f.pack w)
    rwa [List.append_assoc, List.length_append, pack_length] at hw

theorem packAll_words (h : f.packAll ws = some bs) (post : List UInt8) :
    f.Words (bs ++ post) 0 ws ∧ bs.length = f.size * ws.length := by
  rw [packAll] at h
  split at h
  · next hw =>
    cases h
    refine ⟨words_flatMap_pack hw [] post, ?_⟩
    clear hw
    induction ws with
    | nil => rfl
    | cons w ws ih =>
      rw [List.flatMap_cons, List.length_append, ih, pack_length, List.length_cons, Nat.mul_succ,
        Nat.add_comm]
  · cases h

end Format

/-- A string that its end marks in a file: it has no zero byte. -/
structure CString where
  bytes : List UInt8
  no_nul : 0 ∉ bytes
  deriving DecidableEq, Repr

namespace CString

def empty : CString := ⟨[], List.not_mem_nil⟩

def terminated (s : CString) : List UInt8 := s.bytes ++ [0]

def length (s : CString) : Nat := s.bytes.length

theorem terminated_length (s : CString) : s.terminated.length = s.length + 1 :=
  List.length_append

/-- The string from `pos` up to the next zero byte. -/
def read (data : List UInt8) (pos : Nat) : Option CString :=
  if 0 ∈ data.drop pos then
    some ⟨(data.drop pos).takeWhile (· ≠ 0), fun h => by simpa using List.mem_takeWhile_imp h⟩
  else none

/-- A string with its end stands at `pos`. -/
def At (data : List UInt8) (pos : Nat) (s : CString) : Prop := s.terminated <+: data.drop pos

theorem At.read {s : CString} (h : At data pos s) : read data pos = some s := by
  obtain ⟨rest, hr⟩ := h
  have hd : data.drop pos = s.bytes ++ (0 :: rest) := by
    rw [← hr, terminated, List.append_assoc]
    rfl
  have hs : ∀ b ∈ s.bytes, decide (b ≠ 0) = true := by
    intro b hb
    exact decide_eq_true (fun h0 => s.no_nul (h0 ▸ hb))
  rw [CString.read, if_pos (hd ▸ List.mem_append_right _ (List.mem_cons_self ..))]
  congr
  rw [hd, List.takeWhile_append_of_pos hs, List.takeWhile_cons_of_neg (by simp), List.append_nil]

theorem At.lt {s : CString} (h : At data pos s) : pos < data.length := by
  have hl := h.length_le
  rw [terminated_length, List.length_drop] at hl
  omega

theorem At.mono (h : At data pos s) (hp : data <+: data') : At data' pos s := by
  obtain ⟨post, rfl⟩ := hp
  rw [At, List.drop_append_of_le_length h.lt.le]
  exact h.trans (List.prefix_append ..)

theorem At.shift (h : At data pos s) (pre : List UInt8) :
    At (pre ++ data) (pre.length + pos) s := by
  rw [At, List.drop_append, List.drop_of_length_le (Nat.le_add_right ..), Nat.add_sub_cancel_left]
  exact h

end CString

end WordFile
