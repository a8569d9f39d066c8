import Cibyl.IndirectFile

namespace Cibyl
set_option autoImplicit true

/-- What closing a file does with its resources and with the file it was read from. -/
inductive CloseEvent where
  | freedMode
  | freedPath
  | freedData
  | freedFile
  | wrote (bytes : List Byte)
  | closed
  deriving DecidableEq, Repr

namespace MemoryFile

/-- The bytes that the file's data pointer and size give. -/
def written (outside : Nat → Byte) (fp : MemoryFile) : List Byte :=
  bytesAt outside fp.priv.data 0 fp.fileSize.toNat

/-- `fwrite(p->data, fp->file_size, 1, tmp) != fp->file_size`. -/
def writeFails (ops : Fops π) (outside : Nat → Byte) (fp : MemoryFile) (tmp : File π) : Bool :=
  match (tmp.fwrite ops (fun i => fp.priv.data.getD i (outside i)) fp.fileSize 1).1 with
  | .written n => n != fp.fileSize.toNat
  | _ => true

/-- A write of nothing does not reach the file. -/
def writes (outside : Nat → Byte) (fp : MemoryFile) : List CloseEvent :=
  if fp.fileSize = 0 then [] else [.wrote (written outside fp)]

/-- The end of `close`. -/
def freeData (f : IndirectFile) : Word × List CloseEvent :=
  (0, if f.allocate then [.freedData] else [])

/-- `close`, and what it does on the way. -/
def close (ops : Fops π) (outside : Nat → Byte) (fopen : String → String → Option (File π))
    (f : IndirectFile) : Word × List CloseEvent :=
  match f.writebackPath with
  | none => freeData f
  | some path =>
    match fopen path f.mode with
    | none => (-1, [.freedMode, .freedPath])
    | some tmp =>
      let freed := [.freedMode, .freedPath] ++ writes outside f.file
      if writeFails ops outside f.file tmp then (-1, freed)
      else ((freeData f).1, freed ++ .closed :: (freeData f).2)

def fclose (ops : Fops π) (outside : Nat → Byte) (fopen : String → String → Option (File π))
    (f : IndirectFile) : Word × List CloseEvent :=
  let r := close ops outside fopen f
  (r.1, r.2 ++ [.freedFile])

/-- The file takes all the bytes. -/
def TakesAll (ops : Fops π) (outside : Nat → Byte) (fp : MemoryFile) (tmp : File π) : Prop :=
  (ops.write tmp (fun i => fp.priv.data.getD i (outside i)) fp.fileSize).1 = fp.fileSize

/-- The contents that the events write. -/
def contentsWritten (events : List CloseEvent) : List (List Byte) :=
  events.filterMap fun
    | .wrote bytes => some bytes
    | _ => none

/-- Closing writes the contents back and releases everything; when a step fails it returns an
error after releasing what it holds. -/
def WritesBack (ops : Fops π) (outside : Nat → Byte) (opened : Option (File π)) (fp : MemoryFile)
    (r : Word × List CloseEvent) : Prop :=
  CloseEvent.freedData ∈ r.2 ∧
    match opened with
    | none => r.1 ≠ 0
    | some tmp => CloseEvent.closed ∈ r.2 ∧
      (TakesAll ops outside fp tmp → contentsWritten r.2 = [contents fp] ∧ r.1 = 0) ∧
      (¬ TakesAll ops outside fp tmp → r.1 ≠ 0)

section

variable {π : Type} {ops : Fops π} {outside : Nat → Byte} {fp : MemoryFile} {tmp : File π}

/-- The count of members is compared with the count of bytes. -/
theorem writeFails_eq (h : fp.fileSize ≠ 0) : writeFails ops outside fp tmp =
    decide ((ops.write tmp (fun i => fp.priv.data.getD i (outside i)) fp.fileSize).1 / fp.fileSize ≠
      fp.fileSize) := by
  have h1 : fp.fileSize * 1 = fp.fileSize := BitVec.mul_one _
  rw [writeFails, File.fwrite, h1, if_neg h]
  simp only [bne, BitVec.toNat_eq, ne_eq, decide_not]
  rfl

theorem written_eq (h : fp.fileSize.toNat ≤ fp.priv.data.length) :
    written outside fp = contents fp := by
  rw [written, bytesAt_eq outside (Nat.le_of_eq (Nat.zero_add _)) h, List.drop_zero, List.take_take,
    Nat.min_self, contents]

/-- A member that is written whole counts as one. -/
theorem takesAll_fails (h : fp.fileSize ≠ 0) (ht : TakesAll ops outside fp tmp) :
    writeFails ops outside fp tmp = decide (fp.fileSize ≠ 1) := by
  have hp : 0 < fp.fileSize.toNat := Nat.pos_of_ne_zero fun h0 => h (BitVec.eq_of_toNat_eq h0)
  have hd : fp.fileSize / fp.fileSize = 1 := by
    apply BitVec.eq_of_toNat_eq
    rw [BitVec.toNat_udiv]
    exact Nat.div_self hp
  rw [writeFails_eq h, ht, hd, decide_eq_decide, ne_comm]

/-- Without an underlying file the buffer is kept. -/
theorem fclose_unopened {f : IndirectFile} (hp : f.writebackPath = some path)
    (ho : fopen path f.mode = none) :
    fclose ops outside fopen f = (-1, [.freedMode, .freedPath, .freedFile]) := by
  simp only [fclose, close, hp, ho]
  rfl

/-- A write that seems to fail leaves the file open and the buffer where it is. -/
theorem fclose_failed {f : IndirectFile} (hp : f.writebackPath = some path)
    (ho : fopen path f.mode = some tmp) (hne : f.file.fileSize ≠ 0)
    (hw : writeFails ops outside f.file tmp = true) : fclose ops outside fopen f =
      (-1, [.freedMode, .freedPath, .wrote (written outside f.file), .freedFile]) := by
  simp only [fclose, close, hp, ho, hw, if_true, writes, if_neg hne]
  rfl

theorem fclose_done {f : IndirectFile} (hp : f.writebackPath = some path)
    (ho : fopen path f.mode = some tmp) (ha : f.allocate = true) (hne : f.file.fileSize ≠ 0)
    (hw : writeFails ops outside f.file tmp = false) : fclose ops outside fopen f =
      (0, [.freedMode, .freedPath, .wrote (written outside f.file), .closed, .freedData,
        .freedFile]) := by
  simp only [fclose, close, hp, ho, hw, writes, if_neg hne, freeData, ha, if_true]
  rfl

/-- Closing an indirect file does what it should exactly when the file is opened and takes all of a
single byte. -/
theorem fclose_writes_back_iff (fopen : String → String → Option (File π)) {f : IndirectFile}
    (hp : f.writebackPath = some path) (ha : f.allocate = true) (hne : f.file.fileSize ≠ 0)
    (hd : f.file.fileSize.toNat ≤ f.file.priv.data.length) :
    WritesBack ops outside (fopen path f.mode) f.file (fclose ops outside fopen f) ↔
      ∃ tmp, fopen path f.mode = some tmp ∧ TakesAll ops outside f.file tmp ∧
        f.file.fileSize = 1 := by
  cases ho : fopen path f.mode with
  | none =>
    rw [fclose_unopened hp ho]
    exact iff_of_false (fun h => absurd h.1 (by simp)) (fun ⟨_, h, _⟩ => nomatch h)
  | some tmp =>
    have hex : (∃ t, some tmp = some t ∧ TakesAll ops outside f.file t ∧ f.file.fileSize = 1) ↔
        TakesAll ops outside f.file tmp ∧ f.file.fileSize = 1 :=
      ⟨fun ⟨_, he, h⟩ => Option.some.inj he ▸ h, fun h => ⟨tmp, rfl, h⟩⟩
    rw [hex]
    cases hw : writeFails ops outside f.file tmp with
    | true =>
      rw [fclose_failed hp ho hne hw]
      refine iff_of_false (fun h => absurd h.1 (by simp)) fun ⟨ht, h1⟩ => ?_
      rw [takesAll_fails hne ht] at hw
      exact of_decide_eq_true hw h1
    | false =>
      rw [fclose_done hp ho ha hne hw, written_eq hd]
      constructor
      · intro ⟨_, _, _, hfail⟩
        have ht : TakesAll ops outside f.file tmp := by
          by_contra ht
          exact hfail ht rfl
        rw [takesAll_fails hne ht] at hw
        exact ⟨ht, not_not.mp (of_decide_eq_false hw)⟩
      · intro ⟨ht, _⟩
        exact ⟨by simp, by simp, fun _ => ⟨rfl, rfl⟩, fun h => absurd ht h⟩

end

/-- An indirect file of the bytes `bs`. -/
def indirect (bs : List Byte) : IndirectFile := ⟨openData bs, true, some "f", "w"⟩

theorem fclose_writes_back_one : WritesBack arrayFops (fun _ => 0) (three "f" "w") (openData [10])
    (fclose arrayFops (fun _ => 0) three (indirect [10])) := by
  have hp : (indirect [10]).writebackPath = some "f" := rfl
  exact (fclose_writes_back_iff three hp rfl (by decide) (by decide)).mpr
    ⟨File.alloc [1, 2, 3], rfl, rfl, rfl⟩

/-- Two bytes are written, and the close fails with the file open and the buffer not freed. -/
theorem fclose_fails_with_two : TakesAll arrayFops (fun _ => 0) (openData [10, 20])
      (File.alloc [1, 2, 3]) ∧
    fclose arrayFops (fun _ => 0) three (indirect [10, 20]) =
      (-1, [.freedMode, .freedPath, .wrote [10, 20], .freedFile]) ∧
    ¬ WritesBack arrayFops (fun _ => 0) (three "f" "w") (openData [10, 20])
      (fclose arrayFops (fun _ => 0) three (indirect [10, 20])) := by
  have hf : fclose arrayFops (fun _ => 0) three (indirect [10, 20]) =
      (-1, [.freedMode, .freedPath, .wrote [10, 20], .freedFile]) := by decide
  refine ⟨rfl, hf, fun h => ?_⟩
  rw [hf] at h
  exact absurd h.1 (by decide)

end MemoryFile

end Cibyl
