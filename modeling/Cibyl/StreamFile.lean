import Cibyl.FileOps

namespace Cibyl
set_option autoImplicit true

/-- A `java.io.InputStream` that has a start to return to, and how often it has been read. -/
structure InputStream where
  content : List Byte
  pos : Nat
  reads : Nat
  deriving DecidableEq, Repr

namespace InputStream

/-- How many bytes the next `read` into `size` bytes delivers: at least one, unless none is left,
and else as many as the stream likes. -/
def chunk (split : Nat → Nat) (is : InputStream) (size : Nat) : Nat :=
  min (max 1 (split is.reads)) (min size (is.content.length - is.pos))

/-- `read`, with -1 at the end of the stream. -/
def read (split : Nat → Nat) (is : InputStream) (size : Nat) : Option (List Byte) × InputStream :=
  if is.content.length ≤ is.pos then (none, { is with reads := is.reads + 1 })
  else
    (some ((is.content.drop is.pos).take (is.chunk split size)),
      { is with pos := is.pos + is.chunk split size, reads := is.reads + 1 })

def reset (is : InputStream) : InputStream := { is with pos := 0 }

/-- How far `skip` gets. -/
def skipped (is : InputStream) (n : Word) : Nat := min n.toInt.toNat (is.content.length - is.pos)

def skip (is : InputStream) (n : Word) : Nat × InputStream :=
  (is.skipped n, { is with pos := is.pos + is.skipped n })

end InputStream

abbrev StreamFile := File InputStream

namespace StreamFile

/-- `NOPH_InputStream_read_into`, which sets the flag at the end of the file. -/
def readInto (split : Nat → Nat) (fp : StreamFile) (size : Nat) : List Byte × StreamFile :=
  match fp.priv.read split size with
  | (some bytes, is) => (bytes, { fp with priv := is })
  | (none, is) => ([], { fp with eof := true, priv := is })

/-- The loop of `read`. Every round but the last reads a byte. -/
def readLoop (split : Nat → Nat) : Nat → StreamFile → Nat → List Byte × StreamFile
  | 0, fp, _ => ([], fp)
  | n + 1, fp, inSize =>
    if inSize = 0 then ([], fp)
    else
      let (bytes, fp) := readInto split fp (min inSize 4096)
      if fp.eof then (bytes, fp)
      else
        let (rest, fp) := readLoop split n fp (inSize - bytes.length)
        (bytes ++ rest, fp)

def read (split : Nat → Nat) (fp : StreamFile) (inSize : Word) : (Word × List Byte) × StreamFile :=
  let (bytes, fp) := readLoop split inSize.toNat fp inSize.toNat
  ((BitVec.ofNat 32 bytes.length, bytes), fp)

def write (fp : StreamFile) (_ : Nat → Byte) (_ : Word) : Word × StreamFile := (0, fp)

def seek (fp : StreamFile) (offset : Word) : Bool × StreamFile :=
  let (skip, is) := if offset.toInt < 0 then (fp.vfptr, fp.priv.reset) else (offset, fp.priv)
  let (realSkip, is) := is.skip skip
  ((realSkip : Int) = skip.toInt, { fp with priv := is })

def fops (split : Nat → Nat) : Fops InputStream := ⟨read split, write, seek⟩

/-- `NOPH_InputStream_createFILE`. -/
def createFILE (is : InputStream) (available : Word) : StreamFile :=
  { File.alloc is with fileSize := available }

/-- The file is at a position of `f`, which the stream will be brought to. -/
structure Represents (fp : StreamFile) (f : ByteFile) : Prop where
  content : fp.priv.content = f.bytes
  length_lt : f.bytes.length < 2 ^ 31
  pos : fp.vfptr.toNat = f.pos
  pos_le : f.pos ≤ f.bytes.length
  real : fp.priv.pos = fp.fptr.toNat
  real_le : fp.fptr.toNat ≤ f.bytes.length

/-- Where a seek is to go in the content. -/
def target (fp : StreamFile) (offset whence : Word) : Int :=
  offset.toInt + File.seekBase whence fp.priv.content.length fp.vfptr.toNat

/-- The calls are `fread`, `ftell`, and `fseek` to a position in the content. -/
def Inside (fp : StreamFile) : FileCall → Prop
  | .fread .. | .ftell => True
  | .fseek offset whence =>
    File.IsWhence whence ∧ 0 ≤ target fp offset whence ∧
      target fp offset whence ≤ fp.priv.content.length
  | _ => False

/-- What is left of the content at the position. -/
def left (fp : StreamFile) : Nat := fp.priv.content.length - fp.vfptr.toNat

/-- The calls that do not depend on how the stream splits the content. -/
def Kept (split : Nat → Nat) (fp : StreamFile) : FileCall → Prop
  | .fread size nmemb =>
    min (size.toNat * nmemb.toNat) fp.left = min (size * nmemb).toNat fp.left ∧
      (fp.eof = false ∨ InputStream.chunk split { fp.priv with pos := fp.vfptr.toNat }
        (min (size * nmemb).toNat 4096) = min (size * nmemb).toNat fp.left)
  | .fseek _ whence => whence = SEEK_END → fp.fileSize.toNat = fp.priv.content.length
  | _ => True

section

variable {split : Nat → Nat} {fp : StreamFile}

theorem chunk_pos {is : InputStream} (hs : 0 < size) (hp : is.pos < is.content.length) :
    0 < is.chunk split size := by
  rw [InputStream.chunk]
  omega

/-- While the flag is not set, the loop gathers all that there is up to the size. -/
theorem readLoop_eq (he : fp.eof = false) (hn : k ≤ n) :
    (readLoop split n fp k).1 = (fp.priv.content.drop fp.priv.pos).take k ∧
      ∃ eof reads, (readLoop split n fp k).2 = { fp with
        eof := eof
        priv := ⟨fp.priv.content,
          fp.priv.pos + min k (fp.priv.content.length - fp.priv.pos), reads⟩ } := by
  induction n generalizing fp k with
  | zero =>
    obtain rfl := Nat.le_zero.mp hn
    refine ⟨rfl, fp.eof, fp.priv.reads, ?_⟩
    rw [Nat.zero_min, Nat.add_zero]
    rfl
  | succ n ih =>
    obtain ⟨eof, fptr, vfptr, fileSize, content, pos, reads⟩ := fp
    cases he
    rw [readLoop]
    by_cases hk : k = 0
    · subst hk
      refine ⟨rfl, false, reads, ?_⟩
      rw [if_pos rfl, Nat.zero_min]
      rfl
    · rw [if_neg hk, readInto, InputStream.read]
      by_cases hend : content.length ≤ pos
      · have hz : min k (content.length - pos) = 0 := by omega
        simp only [if_pos hend, if_true, hz, Nat.add_zero]
        rw [List.drop_of_length_le hend, List.take_nil]
        exact ⟨rfl, _, _, rfl⟩
      · have hpos : 0 < InputStream.chunk split ⟨content, pos, reads⟩ (min k 4096) :=
          chunk_pos (by omega) (Nat.lt_of_not_le hend)
        have hle : InputStream.chunk split ⟨content, pos, reads⟩ (min k 4096) ≤
            min k (content.length - pos) := by
          change min (max 1 (split reads)) (min (min k 4096) (content.length - pos)) ≤ _
          omega
        generalize InputStream.chunk split ⟨content, pos, reads⟩ (min k 4096) = c at hpos hle ⊢
        have hlen : ((content.drop pos).take c).length = c := by
          rw [List.length_take, List.length_drop]
          omega
        have hfit : k - c ≤ n := by omega
        let fp' : File InputStream := ⟨false, fptr, vfptr, fileSize, content, pos + c, reads + 1⟩
        have hopen : fp'.eof = false := rfl
        obtain ⟨hrest, eof, reads', hfp⟩ := ih hopen hfit
        dsimp only [fp'] at hrest hfp
        have hsum : pos + c + min (k - c) (content.length - (pos + c)) =
            pos + min k (content.length - pos) := by omega
        simp only [if_neg hend, Bool.false_eq_true, if_false, hlen, hrest]
        refine ⟨?_, eof, reads', ?_⟩
        · rw [← List.drop_drop, ← List.take_add, Nat.add_sub_cancel' (by omega)]
        · rw [hfp, hsum]

theorem Represents.ahead_length (h : Represents fp f) (n : Nat) :
    (f.ahead n).length = min n fp.left := by
  rw [ByteFile.ahead, List.length_take, List.length_drop, left, h.content, h.pos]

theorem Represents.ahead_congr (h : Represents fp f) (he : min n fp.left = min k fp.left) :
    f.ahead n = f.ahead k := by
  rw [left, h.content, h.pos] at he
  rw [ByteFile.ahead, ByteFile.ahead, List.take_eq_take_iff, List.length_drop]
  exact he

/-- A skip inside the content. -/
theorem skip_eq {is : InputStream} {n : Word} (h : is.pos + n.toInt.toNat ≤ is.content.length) :
    is.skip n = (n.toInt.toNat, { is with pos := is.pos + n.toInt.toNat }) := by
  have hs : is.skipped n = n.toInt.toNat := by
    rw [InputStream.skipped]
    omega
  rw [InputStream.skip, hs]

/-- A seek inside the content brings the stream to the virtual position. -/
theorem Represents.applySeek_eq (h : Represents fp f) (split : Nat → Nat) :
    fp.applySeek (fops split) =
      (true, { fp with fptr := fp.vfptr, priv := { fp.priv with pos := fp.vfptr.toNat } }) := by
  have hlt := h.length_lt
  have hpos := h.pos
  have hle := h.pos_le
  have hreal := h.real
  have hreal_le := h.real_le
  have hc : fp.priv.content.length = f.bytes.length := congrArg List.length h.content
  obtain ⟨eof, fptr, vfptr, fileSize, content, pos, reads⟩ := fp
  dsimp only at hpos hreal hreal_le hc
  rw [File.applySeek]
  dsimp only
  split
  · next hne =>
    have hv : vfptr.toInt = vfptr.toNat := by
      rw [BitVec.toInt_eq_toNat_cond, if_pos (by omega)]
    have hd : (vfptr - fptr).toInt = vfptr.toNat - fptr.toNat := by
      have h₁ := vfptr.isLt
      have h₂ := fptr.isLt
      rw [BitVec.toInt_eq_toNat_cond, BitVec.toNat_sub]
      split <;> omega
    by_cases hback : (vfptr - fptr).toInt < 0
    · have hskip : InputStream.skip ⟨content, 0, reads⟩ vfptr =
          (vfptr.toNat, ⟨content, vfptr.toNat, reads⟩) := by
        rw [skip_eq (by dsimp only; omega), hv, Int.toNat_natCast, Nat.zero_add]
      simp only [fops, seek, InputStream.reset, if_pos hback, hskip, hv, decide_true, if_true]
    · have hskip : InputStream.skip ⟨content, pos, reads⟩ (vfptr - fptr) =
          ((vfptr - fptr).toInt.toNat, ⟨content, vfptr.toNat, reads⟩) := by
        have hn : pos + (vfptr - fptr).toInt.toNat = vfptr.toNat := by omega
        rw [skip_eq (by dsimp only; omega)]
        dsimp only
        rw [hn]
      have he : (((vfptr - fptr).toInt.toNat : Nat) : Int) = (vfptr - fptr).toInt :=
        Int.toNat_of_nonneg (Int.not_lt.mp hback)
      simp only [fops, seek, if_neg hback, hskip, he, decide_true, if_true]
  · next hne =>
    cases not_not.mp hne
    rw [hreal]

/-- Once the flag is set, the loop ends after what one `read` delivers. -/
theorem readLoop_eof (he : fp.eof = true) (hk : 0 < k) (n : Nat) :
    (readLoop split (n + 1) fp k).1 =
        (fp.priv.content.drop fp.priv.pos).take (fp.priv.chunk split (min k 4096)) ∧
      ∃ reads, (readLoop split (n + 1) fp k).2 = { fp with
        priv := ⟨fp.priv.content, fp.priv.pos + fp.priv.chunk split (min k 4096), reads⟩ } := by
  obtain ⟨eof, fptr, vfptr, fileSize, content, pos, reads⟩ := fp
  cases he
  rw [readLoop, if_neg (Nat.ne_of_gt hk), readInto, InputStream.read]
  dsimp only
  by_cases hend : content.length ≤ pos
  · have hz : InputStream.chunk split ⟨content, pos, reads⟩ (min k 4096) = 0 := by
      change min (max 1 (split reads)) (min (min k 4096) (content.length - pos)) = 0
      omega
    simp only [if_pos hend, if_true, hz, List.take_zero, Nat.add_zero]
    exact ⟨trivial, _, rfl⟩
  · simp only [if_neg hend, if_true]
    exact ⟨trivial, _, rfl⟩

/-- A read of what the flag or the next chunk does not cut short. -/
theorem Represents.read_eq (h : Represents fp f) {n : Word} (hn : 0 < n.toNat)
    (hk : fp.eof = false ∨ InputStream.chunk split { fp.priv with pos := fp.vfptr.toNat }
      (min n.toNat 4096) = min n.toNat fp.left) :
    ∃ eof reads, read split { fp with
        fptr := fp.vfptr, priv := { fp.priv with pos := fp.vfptr.toNat } } n =
      ((BitVec.ofNat 32 (f.ahead n.toNat).length, f.ahead n.toNat), { fp with
        eof := eof, fptr := fp.vfptr
        priv := ⟨fp.priv.content, fp.vfptr.toNat + (f.ahead n.toNat).length, reads⟩ }) := by
  have hahead : f.ahead n.toNat = (fp.priv.content.drop fp.vfptr.toNat).take n.toNat := by
    rw [ByteFile.ahead, h.content, h.pos]
  have hlen := h.ahead_length n.toNat
  rw [left] at hk hlen
  have hr {eof : Bool} {reads k : Nat} {is : InputStream}
      (hb : (readLoop split n.toNat { fp with fptr := fp.vfptr, priv := is } n.toNat).1 =
        f.ahead n.toNat)
      (hf : (readLoop split n.toNat { fp with fptr := fp.vfptr, priv := is } n.toNat).2 =
        { fp with eof := eof, fptr := fp.vfptr, priv := ⟨fp.priv.content, k, reads⟩ }) :
      read split { fp with fptr := fp.vfptr, priv := is } n =
        ((BitVec.ofNat 32 (f.ahead n.toNat).length, f.ahead n.toNat),
          { fp with eof := eof, fptr := fp.vfptr, priv := ⟨fp.priv.content, k, reads⟩ }) := by
    simp only [read, hb, hf]
  by_cases hb : fp.eof = true
  · have hchunk := hk.resolve_left (by rw [hb]; decide)
    obtain ⟨m, hm⟩ := Nat.exists_eq_add_of_lt hn
    let fp' : StreamFile := { fp with
      fptr := fp.vfptr, priv := { fp.priv with pos := fp.vfptr.toNat } }
    have hset : fp'.eof = true := hb
    obtain ⟨hbytes, reads, hfp⟩ := @readLoop_eof split fp' n.toNat hset hn m
    dsimp only [fp'] at hbytes hfp
    rw [hchunk] at hbytes hfp
    rw [Nat.zero_add] at hm
    rw [← hlen] at hfp
    rw [← hm] at hbytes hfp
    refine ⟨fp.eof, reads, hr (hbytes.trans ?_) hfp⟩
    rw [hahead, List.take_eq_take_iff, List.length_drop]
    exact Nat.min_eq_left (Nat.min_le_right ..)
  · let fp' : StreamFile := { fp with
      fptr := fp.vfptr, priv := { fp.priv with pos := fp.vfptr.toNat } }
    have hopen : fp'.eof = false := Bool.eq_false_of_not_eq_true hb
    obtain ⟨hbytes, eof, reads, hfp⟩ :=
      @readLoop_eq split fp' n.toNat n.toNat hopen (Nat.le_refl n.toNat)
    dsimp only [fp'] at hbytes hfp
    rw [← hlen] at hfp
    exact ⟨eof, reads, hr (hbytes.trans hahead.symm) hfp⟩

/-- A read of the content, however the stream splits it. -/
theorem Represents.fread_refines (h : Represents fp f) {size nmemb : Word}
    (hk : Kept split fp (.fread size nmemb)) :
    (fp.fread (fops split) size nmemb).1 = (f.call (.fread size nmemb)).1 ∧
      Represents (fp.fread (fops split) size nmemb).2 (f.call (.fread size nmemb)).2 := by
  obtain ⟨hn, hk⟩ := hk
  have hahead := h.ahead_congr hn
  have hlen := h.ahead_length (size * nmemb).toNat
  simp only [ByteFile.call, ByteFile.get, hahead]
  rw [File.fread]
  by_cases hz : size * nmemb = 0
  · have h0 : f.ahead (size * nmemb).toNat = [] := by
      rw [hz]
      exact List.take_zero ..
    rw [if_pos hz, h0, List.length_nil, Nat.zero_div]
    exact ⟨rfl, h⟩
  · have hpos : 0 < (size * nmemb).toNat := by
      rw [Nat.pos_iff_ne_zero]
      intro h0
      exact hz (BitVec.eq_of_toNat_eq h0)
    obtain ⟨eof, reads, hr⟩ := h.read_eq hpos hk
    have hlt := h.length_lt
    have hp := h.pos
    have hle := h.pos_le
    have hleft : fp.left = f.bytes.length - f.pos := by
      rw [left, h.content, h.pos]
    have hret : (BitVec.ofNat 32 (f.ahead (size * nmemb).toNat).length).toNat =
        (f.ahead (size * nmemb).toNat).length := by
      rw [BitVec.toNat_ofNat, Nat.mod_eq_of_lt (by omega)]
    have hadd : (fp.vfptr + BitVec.ofNat 32 (f.ahead (size * nmemb).toNat).length).toNat =
        f.pos + (f.ahead (size * nmemb).toNat).length := by
      rw [BitVec.toNat_add_of_lt (by omega), hret, hp]
    rw [if_neg hz, h.applySeek_eq]
    simp only [fops] at hr ⊢
    simp only [if_true, hr, BitVec.toNat_udiv, hret]
    refine ⟨trivial, h.content, hlt, hadd, ?_, ?_, ?_⟩
    · change f.pos + _ ≤ f.bytes.length
      omega
    · change fp.vfptr.toNat + _ = (fp.vfptr + _).toNat
      rw [hadd, hp]
    · change (fp.vfptr + _).toNat ≤ f.bytes.length
      omega

theorem Represents.fseek_refines (h : Represents fp f) {offset whence : Word}
    (hk : Kept split fp (.fseek offset whence)) (hi : Inside fp (.fseek offset whence)) :
    (fp.fseek offset whence).1 = (f.call (.fseek offset whence)).1 ∧
      Represents (fp.fseek offset whence).2 (f.call (.fseek offset whence)).2 := by
  obtain ⟨hw, h₀, h₁⟩ := hi
  have hlt := h.length_lt
  have hc : fp.priv.content.length = f.bytes.length := congrArg List.length h.content
  have ht : File.target fp offset whence = target fp offset whence := by
    rw [File.target, target, File.seekBase, File.seekBase]
    split
    · rfl
    · split
      · next he => rw [hk he]
      · rfl
  have hf : target fp offset whence = f.target offset whence := by
    rw [target, ByteFile.target, hc, h.pos]
  rw [hc] at h₁
  obtain ⟨v, hv, hvt⟩ := File.fseek_eq hw (ht ▸ h₀) (by omega)
  rw [ht] at hvt
  simp only [ByteFile.call, if_pos hw, hv]
  rw [← hf]
  refine ⟨trivial, h.content, hlt, ?_, ?_, h.real, h.real_le⟩
  · change v.toNat = (target fp offset whence).toNat
    omega
  · change (target fp offset whence).toNat ≤ f.bytes.length
    omega

theorem Represents.call_refines (h : Represents fp f) {c : FileCall} (hk : Kept split fp c)
    (hi : Inside fp c) :
    (fp.call (fops split) c).1 = (f.call c).1 ∧
      Represents (fp.call (fops split) c).2 (f.call c).2 := by
  cases c with
  | fread size nmemb => exact h.fread_refines hk
  | fseek offset whence => exact h.fseek_refines hk hi
  | ftell =>
    have hp := h.pos
    have hle := h.pos_le
    have hlt := h.length_lt
    have ht : fp.ftell = .value fp.vfptr.toNat := File.ftell_eq (by omega)
    exact ⟨ht.trans (congrArg (fun n : Nat => FileReply.value n) hp), h⟩
  | _ => exact hi.elim

/-- A run of calls that do not depend on how the stream splits the content is that of the content
with a position. -/
theorem stream_file_run (split : Nat → Nat) (content : List Byte) (available : Word)
    (h : content.length < 2 ^ 31) (cs : List FileCall)
    (hi : EachCall (File.call (fops split)) Inside (createFILE ⟨content, 0, 0⟩ available) cs)
    (hk : EachCall (File.call (fops split)) (Kept split)
      (createFILE ⟨content, 0, 0⟩ available) cs) :
    (replyRun (File.call (fops split)) (createFILE ⟨content, 0, 0⟩ available) cs).1 =
      (replyRun ByteFile.call ⟨content, 0⟩ cs).1 := by
  have h₀ : Represents (createFILE ⟨content, 0, 0⟩ available) ⟨content, 0⟩ :=
    ⟨rfl, h, rfl, Nat.zero_le _, rfl, Nat.zero_le _⟩
  have hstep (fp : StreamFile) (f : ByteFile) (c : FileCall) (hr : Represents fp f)
      (hc : Inside fp c ∧ Kept split fp c) := hr.call_refines hc.2 hc.1
  exact (replyRun_refines hstep cs h₀ (hi.and hk)).1

end

instance (fp : StreamFile) : (c : FileCall) → Decidable (Inside fp c)
  | .fread .. | .ftell => instDecidableTrue
  | .fseek .. => instDecidableAnd
  | .fwrite .. | .fputc _ | .fgetc _ | .rewind => instDecidableFalse

instance (split : Nat → Nat) (fp : StreamFile) : (c : FileCall) → Decidable (Kept split fp c)
  | .fread .. => instDecidableAnd
  | .fseek _ whence => inferInstanceAs (Decidable
      (whence = SEEK_END → fp.fileSize.toNat = fp.priv.content.length))
  | .ftell | .fwrite .. | .fputc _ | .fgetc _ | .rewind => instDecidableTrue

theorem stream_file_run_calls :
    (replyRun (File.call (fops fun _ => 1)) (createFILE ⟨[10, 20, 30], 0, 0⟩ 3)
      [.fread 1 2, .fseek 1 SEEK_SET, .fread 2 4, .ftell]).1 =
      [.members 2 [10, 20], .value 0, .members 1 [20, 30], .value 3] :=
  (stream_file_run (fun _ => 1) [10, 20, 30] 3 (by decide)
    [.fread 1 2, .fseek 1 SEEK_SET, .fread 2 4, .ftell] (by decide) (by decide)).trans (by decide)

/-- After a read that has reached the end, one that has not gets what the stream delivers first. -/
theorem stream_file_cut_short :
    EachCall (File.call (fops fun _ => 1)) Inside (createFILE ⟨[10, 20, 30], 0, 0⟩ 3)
      [.fread 1 4, .fseek 0 SEEK_SET, .fread 1 3] ∧
    (replyRun (File.call (fops fun _ => 1)) (createFILE ⟨[10, 20, 30], 0, 0⟩ 3)
      [.fread 1 4, .fseek 0 SEEK_SET, .fread 1 3]).1 =
      [.members 3 [10, 20, 30], .value 0, .members 1 [10]] ∧
    (replyRun ByteFile.call ⟨[10, 20, 30], 0⟩ [.fread 1 4, .fseek 0 SEEK_SET, .fread 1 3]).1 =
      [.members 3 [10, 20, 30], .value 0, .members 3 [10, 20, 30]] := by
  decide

end StreamFile

end Cibyl
