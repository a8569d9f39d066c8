import Cibyl.DataImage
import Cibyl.Library.ReplyRun

namespace Cibyl
set_option autoImplicit true

/-- `FILE`. `priv` is what its file system keeps. -/
structure File (π : Type) where
  eof : Bool
  fptr : Word
  vfptr : Word
  fileSize : Word
  priv : π

/-- The operations of a file system. `read` returns the amount and the bytes it stores, `write`
takes the memory that starts at its pointer, `seek` tells whether it returned. -/
structure Fops (π : Type) where
  read : File π → Word → (Word × List Byte) × File π
  write : File π → (Nat → Byte) → Word → Word × File π
  seek : File π → Word → Bool × File π

inductive FileCall where
  | fread (size nmemb : Word)
  | fwrite (ptr : Nat → Byte) (size nmemb : Word)
  | fputc (c : Word)
  | fgetc (out : Byte)
  | fseek (offset whence : Word)
  | ftell
  | rewind

/-- What a call returns, and for `fread` what it stores. -/
inductive FileReply where
  | members (n : Nat) (bytes : List Byte)
  | written (n : Nat)
  | value (v : Int)
  | threw
  deriving DecidableEq, Repr

def SEEK_SET : Word := 0

def SEEK_CUR : Word := 1

def SEEK_END : Word := 2

namespace File

variable {π : Type}

/-- `cibyl_file_alloc` zeroes everything. -/
def alloc (priv : π) : File π := ⟨false, 0, 0, 0, priv⟩

/-- Do we need to seek? -/
def applySeek (ops : Fops π) (fp : File π) : Bool × File π :=
  if fp.fptr ≠ fp.vfptr then
    let (returned, fp) := ops.seek fp (fp.vfptr - fp.fptr)
    if returned then (true, { fp with fptr := fp.vfptr }) else (false, fp)
  else (true, fp)

def fread (ops : Fops π) (fp : File π) (inSize nmemb : Word) : FileReply × File π :=
  let size := inSize * nmemb
  if size = 0 then (.members 0 [], fp)
  else
    let (returned, fp) := fp.applySeek ops
    if returned then
      let ((ret, bytes), fp) := ops.read fp size
      (.members (ret / inSize).toNat bytes,
        { fp with fptr := fp.fptr + ret, vfptr := fp.fptr + ret })
    else (.threw, fp)

def fwrite (ops : Fops π) (fp : File π) (ptr : Nat → Byte) (inSize nmemb : Word) :
    FileReply × File π :=
  let size := inSize * nmemb
  if size = 0 then (.written 0, fp)
  else
    let (n, fp) := ops.write fp ptr size
    let ret := n / inSize
    (.written ret.toNat, { fp with fptr := fp.fptr + ret, vfptr := fp.fptr + ret })

def fseek (fp : File π) (offset whence : Word) : FileReply × File π :=
  if whence = SEEK_SET then (.value 0, { fp with vfptr := 0 + offset })
  else if whence = SEEK_END then (.value 0, { fp with vfptr := 0 + (fp.fileSize + offset) })
  else if whence = SEEK_CUR then (.value 0, { fp with vfptr := fp.vfptr + offset })
  else (.threw, fp)

def ftell (fp : File π) : FileReply := .value fp.vfptr.toInt

def rewind (fp : File π) : FileReply × File π := fp.fseek 0 SEEK_SET

/-- `out` is what the local variable holds before the byte is read to it. -/
def fgetc (ops : Fops π) (fp : File π) (out : Byte) : FileReply × File π :=
  match fp.fread ops 1 1 with
  | (.members _ bytes, fp) => (.value (bytes.headD out).toInt, fp)
  | (r, fp) => (r, fp)

/-- The bytes of an `int` in memory, the most significant first. -/
def intBytes (c : Word) (i : Nat) : Byte := c.extractLsb' (24 - 8 * i) 8

def fputc (ops : Fops π) (fp : File π) (c : Word) : FileReply × File π :=
  (.value c.toInt, (fp.fwrite ops (intBytes c) 1 1).2)

def call (ops : Fops π) (fp : File π) : FileCall → FileReply × File π
  | .fread size nmemb => fp.fread ops size nmemb
  | .fwrite ptr size nmemb => fp.fwrite ops ptr size nmemb
  | .fputc c => fp.fputc ops c
  | .fgetc out => fp.fgetc ops out
  | .fseek offset whence => fp.fseek offset whence
  | .ftell => (fp.ftell, fp)
  | .rewind => fp.rewind

/-- The values of `whence` that do not throw. -/
def IsWhence (whence : Word) : Prop :=
  whence = SEEK_SET ∨ whence = SEEK_CUR ∨ whence = SEEK_END

instance (whence : Word) : Decidable (IsWhence whence) := instDecidableOr

/-- The position that a seek counts from, of a file of `size` bytes. -/
def seekBase (whence : Word) (size pos : Nat) : Nat :=
  if whence = SEEK_SET then 0 else if whence = SEEK_END then size else pos

/-- Where a seek goes. -/
def target (fp : File π) (offset whence : Word) : Int :=
  offset.toInt + seekBase whence fp.fileSize.toNat fp.vfptr.toNat

theorem add_toNat_of_target {p offset : Word} (h₀ : 0 ≤ offset.toInt + p.toNat)
    (h₁ : offset.toInt + p.toNat < 2 ^ 31) :
    ((p + offset).toNat : Int) = offset.toInt + p.toNat := by
  have hp := p.isLt
  have ho := offset.isLt
  rw [BitVec.toInt_eq_toNat_cond] at h₀ h₁ ⊢
  rw [BitVec.toNat_add]
  split at h₀ <;> omega

/-- A seek that stays in the range of a `long` sets the virtual position only. -/
theorem fseek_eq {fp : File π} {offset whence : Word} (hw : IsWhence whence)
    (h₀ : 0 ≤ fp.target offset whence) (h₁ : fp.target offset whence < 2 ^ 31) :
    ∃ v, fp.fseek offset whence = (.value 0, { fp with vfptr := v }) ∧
      (v.toNat : Int) = fp.target offset whence := by
  rcases hw with rfl | rfl | rfl
  · exact ⟨0 + offset, rfl, add_toNat_of_target h₀ h₁⟩
  · exact ⟨fp.vfptr + offset, rfl, add_toNat_of_target h₀ h₁⟩
  · have hz : (0 : Word) + (fp.fileSize + offset) = fp.fileSize + offset := BitVec.zero_add _
    refine ⟨fp.fileSize + offset, ?_, add_toNat_of_target h₀ h₁⟩
    rw [← hz]
    rfl

theorem fseek_throws {fp : File π} {whence : Word} (hw : ¬ IsWhence whence) (offset : Word) :
    fp.fseek offset whence = (.threw, fp) := by
  obtain ⟨hs, hc, he⟩ := not_or.mp hw |>.imp id not_or.mp
  rw [fseek, if_neg hs, if_neg he, if_neg hc]

theorem ftell_eq {fp : File π} (h : fp.vfptr.toNat < 2 ^ 31) :
    fp.ftell = .value fp.vfptr.toNat := by
  rw [ftell, BitVec.toInt_eq_toNat_cond, if_pos (by omega)]

end File

/-- An array of bytes with a position in it: what a file is for. -/
structure ByteFile where
  bytes : List Byte
  pos : Nat
  deriving DecidableEq, Repr

namespace ByteFile

/-- The bytes from the position on, `n` at most. -/
def ahead (f : ByteFile) (n : Nat) : List Byte := (f.bytes.drop f.pos).take n

/-- The file with `bs` from the position on. A gap before the position is filled with zeros. -/
def overwrite (f : ByteFile) (bs : List Byte) : List Byte :=
  if bs = [] then f.bytes
  else (f.bytes.take f.pos).rightpad f.pos 0 ++ bs ++ f.bytes.drop (f.pos + bs.length)

/-- Where a seek goes. -/
def target (f : ByteFile) (offset whence : Word) : Int :=
  offset.toInt + File.seekBase whence f.bytes.length f.pos

def put (f : ByteFile) (bs : List Byte) : ByteFile := ⟨f.overwrite bs, f.pos + bs.length⟩

def get (f : ByteFile) (n : Nat) : List Byte × ByteFile :=
  (f.ahead n, ⟨f.bytes, f.pos + (f.ahead n).length⟩)

def call (f : ByteFile) : FileCall → FileReply × ByteFile
  | .fread size nmemb =>
    let (bs, f) := f.get (size.toNat * nmemb.toNat)
    (.members (bs.length / size.toNat) bs, f)
  | .fwrite ptr size nmemb =>
    let bs := (List.range (size.toNat * nmemb.toNat)).map ptr
    (.written (bs.length / size.toNat), f.put bs)
  | .fputc c => (.value c.toInt, f.put [c.setWidth 8])
  | .fgetc _ =>
    match f.get 1 with
    | ([], f) => (.value (-1), f)
    | (b :: _, f) => (.value b.toNat, f)
  | .fseek offset whence =>
    if File.IsWhence whence then (.value 0, ⟨f.bytes, (f.target offset whence).toNat⟩)
    else (.threw, f)
  | .ftell => (.value f.pos, f)
  | .rewind => (.value 0, ⟨f.bytes, 0⟩)

end ByteFile

end Cibyl
