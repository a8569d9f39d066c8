import Cibyl.IndirectFile

namespace Cibyl
set_option autoImplicit true

/-- A record store, whose records have the ids from 1 on. -/
structure RecordStore where
  records : List (List Byte)

namespace RecordStore

def getRecord (rs : RecordStore) (id : Int) : Option (List Byte) :=
  if 1 ≤ id then rs.records[id.toNat - 1]? else none

/-- Without such a record it throws. -/
def setRecord (rs : RecordStore) (id : Int) (data : List Byte) : Option RecordStore :=
  if 1 ≤ id ∧ id.toNat ≤ rs.records.length then some ⟨rs.records.set (id.toNat - 1) data⟩ else none

def addRecord (rs : RecordStore) (data : List Byte) : Int × RecordStore :=
  (rs.records.length + 1, ⟨rs.records ++ [data]⟩)

theorem getRecord_setRecord {rs : RecordStore} {id : Int} (h : rs.getRecord id = some old)
    (data : List Byte) :
    ∃ rs', rs.setRecord id data = some rs' ∧ rs'.getRecord id = some data := by
  rw [getRecord] at h
  split at h
  · next h1 =>
    obtain ⟨hlt, -⟩ := List.getElem?_eq_some_iff.mp h
    refine ⟨_, if_pos ⟨h1, by omega⟩, ?_⟩
    rw [getRecord, if_pos h1, List.getElem?_set_self hlt]
  · cases h

end RecordStore

/-- `INVALID_RECORD_MAGIC`, as it lies in memory. -/
def invalidRecord : List Byte := [0xc1, 0xb4, 0x1c, 0x1b, 0x41, 0x09, 0xb4, 0xc1]

namespace RecordFile

open MemoryFile (openMemory bytesAt fops contents Represents Opened Kept SeeksForward)

/-- `get_record`: the data or `NULL`, and the size. -/
def readRecord (a : Allocator) (rs : RecordStore) (id : Int) : Option (List Byte) × Word :=
  match rs.getRecord id with
  | none => (none, 0)
  | some data =>
    match a.realloc [] (BitVec.ofNat 32 data.length) with
    | none => (none, BitVec.ofNat 32 data.length)
    | some _ =>
      if data = invalidRecord then (none, 0) else (some data, BitVec.ofNat 32 data.length)

/-- `rs_open` of a store that opens. -/
def rsOpen (a : Allocator) (rs : RecordStore) (id : Int) : OpenMode → OpenResult
  | .readTruncate | .write => openMemory a none 0 true
  | .readWrite | .readAppend =>
    let (data, rsSize) := readRecord a rs id
    openMemory a data rsSize true
  | .read =>
    match readRecord a rs id with
    | (none, _) => .null
    | (some data, rsSize) => openMemory a (some data) rsSize true
  | .append => .panic

/-- Invalid records are added up to the one to set. -/
def addUpTo (id : Int) : Nat → RecordStore → Option RecordStore
  | 0, _ => none
  | n + 1, rs =>
    let (i, rs) := rs.addRecord invalidRecord
    if id < i then none else if i = id then some rs else addUpTo id n rs

/-- `close_write`, which throws for a negative size. -/
def closeWrite (outside : Nat → Byte) (rs : RecordStore) (id : Int) (fp : MemoryFile) :
    Option RecordStore :=
  let size := fp.vfptr
  if size.toInt < 0 then none
  else
    let data := bytesAt outside fp.priv.data 0 size.toNat
    match rs.setRecord id data with
    | some rs => some rs
    | none => (addUpTo id id.toNat rs).bind fun rs => rs.setRecord id data

/-- `rs_close`. -/
def rsClose (outside : Nat → Byte) (rs : RecordStore) (id : Int) (mode : OpenMode)
    (fp : MemoryFile) : Option RecordStore :=
  if mode = .read then some rs else closeWrite outside rs id fp

/-- The file behind the calls. -/
def rsCalls (a : Allocator) (outside : Nat → Byte) (rs : RecordStore) (id : Int) (mode : OpenMode)
    (cs : List FileCall) : Option MemoryFile :=
  match rsOpen a rs id mode with
  | .file f => some (replyRun (File.call (fops a outside)) f.file cs).2
  | _ => none

/-- The record behind an open, the calls and a close. -/
def rsRun (a : Allocator) (outside : Nat → Byte) (rs : RecordStore) (id : Int) (mode : OpenMode)
    (cs : List FileCall) : Option (List Byte) :=
  (rsCalls a outside rs id mode cs).bind fun fp =>
    (rsClose outside rs id mode fp).bind fun rs => rs.getRecord id

end RecordFile

namespace OpenMode

def Appends (mode : OpenMode) : Prop := mode = append ∨ mode = readAppend

def Truncates (mode : OpenMode) : Prop := mode = write ∨ mode = readTruncate

instance (mode : OpenMode) : Decidable mode.Appends := instDecidableOr

instance (mode : OpenMode) : Decidable mode.Truncates := instDecidableOr

/-- An ordinary file with the bytes `old` when it is opened. -/
def start (mode : OpenMode) (old : List Byte) : ByteFile :=
  if mode.Truncates then ⟨[], 0⟩ else if mode.Appends then ⟨old, old.length⟩ else ⟨old, 0⟩

end OpenMode

/-- The bytes that a call writes. -/
def FileCall.amount : FileCall → Nat
  | .fwrite _ size nmemb => size.toNat * nmemb.toNat
  | .fputc _ => 1
  | _ => 0

/-- A call of an ordinary file in some mode. Where the mode appends, what is written goes to the
end. -/
def ByteFile.callIn (mode : OpenMode) (f : ByteFile) (c : FileCall) : FileReply × ByteFile :=
  if mode.Appends ∧ 0 < c.amount then ({ f with pos := f.bytes.length }).call c else f.call c

/-- The bytes of an ordinary file behind the calls. -/
def ordinaryRun (mode : OpenMode) (old : List Byte) (cs : List FileCall) : List Byte :=
  (replyRun (ByteFile.callIn mode) (mode.start old) cs).2.bytes

namespace RecordFile

open MemoryFile (openMemory bytesAt fops contents Represents Opened Kept SeeksForward)

/-- The calls that a file in some mode answers as an ordinary file does. What is appended is written
at the end. -/
def KeptIn (a : Allocator) (mode : OpenMode) (fp : MemoryFile) (c : FileCall) : Prop :=
  Kept a fp c ∧ SeeksForward fp c ∧ (mode.Appends → 0 < c.amount → fp.vfptr = fp.fileSize)

instance (a : Allocator) (mode : OpenMode) (fp : MemoryFile) (c : FileCall) :
    Decidable (KeptIn a mode fp c) := inferInstanceAs (Decidable (_ ∧ _ ∧ (_ → _ → _)))

/-- The file has the bytes of the ordinary one, and its position where the mode does not append. -/
def Follows (mode : OpenMode) (fp : MemoryFile) (f : ByteFile) : Prop :=
  ∃ p, Represents fp ⟨f.bytes, p⟩ ∧ (¬ mode.Appends → p = f.pos)

section

variable {a : Allocator} {o : Nat → Byte} {fp : MemoryFile} {f : ByteFile} {mode : OpenMode}
  {id : Int} {old : List Byte}

/-- A call that writes nothing leaves the bytes. -/
theorem call_bytes (f : ByteFile) {c : FileCall} (h : c.amount = 0) :
    (f.call c).2.bytes = f.bytes := by
  cases c with
  | fwrite ptr size nmemb =>
    rw [FileCall.amount] at h
    simp only [ByteFile.call, h, List.range_zero, List.map_nil]
    rfl
  | fputc c => exact absurd h Nat.one_ne_zero
  | fgetc out =>
    simp only [ByteFile.call, ByteFile.get]
    split
    · next he => rw [← (Prod.mk.inj he).2]
    · next he => rw [← (Prod.mk.inj he).2]
  | fseek offset whence =>
    simp only [ByteFile.call]
    split <;> rfl
  | fread | ftell | rewind => rfl

/-- Where the mode does not append, a call keeps the files together. -/
theorem Follows.call (h : Follows mode fp f) {c : FileCall} (hk : KeptIn a mode fp c) :
    Follows mode (fp.call (fops a o) c).2 (f.callIn mode c).2 := by
  obtain ⟨p, hr, hp⟩ := h
  obtain ⟨hc, hs, hend⟩ := hk
  have hstep := (hr.call_refines (o := o) hc hs).2
  by_cases ha : mode.Appends
  · by_cases hw : 0 < c.amount
    · have hpos : p = f.bytes.length :=
        hr.pos.symm.trans ((congrArg BitVec.toNat (hend ha hw)).trans hr.size)
      subst hpos
      rw [ByteFile.callIn, if_pos ⟨ha, hw⟩]
      exact ⟨_, hstep, fun h => absurd ha h⟩
    · have hz : c.amount = 0 := Nat.eq_zero_of_not_pos hw
      rw [ByteFile.callIn, if_neg (fun h => hw h.2)]
      refine ⟨(ByteFile.call ⟨f.bytes, p⟩ c).2.pos, ?_, fun h => absurd ha h⟩
      have hb : (ByteFile.call ⟨f.bytes, p⟩ c).2.bytes = (f.call c).2.bytes :=
        (call_bytes _ hz).trans (call_bytes f hz).symm
      rw [← hb]
      exact hstep
  · have hpos := hp ha
    subst hpos
    rw [ByteFile.callIn, if_neg (fun h => ha h.1)]
    exact ⟨_, hstep, fun _ => rfl⟩

/-- Allocation does not fail for the block of a new file and for the old record. -/
structure HasMemory (a : Allocator) (old : List Byte) : Prop where
  block : (a.realloc [] 4096).isSome
  record : (a.realloc [] (BitVec.ofNat 32 old.length)).isSome
  small : old.length < 2 ^ 31

theorem openMemory_none (h : (a.realloc [] 4096).isSome) (size : Word) (allocate : Bool) :
    ∃ f, openMemory a none size allocate = .file f ∧ Opened f.file [] := by
  obtain ⟨data, hd⟩ := Option.isSome_iff_exists.mp h
  refine ⟨⟨File.alloc ⟨data, 4096⟩, true, none, ""⟩, ?_, .empty (a.length hd)⟩
  simp only [openMemory, hd]

/-- An open that does not panic begins with the bytes of an ordinary one. -/
theorem rsOpen_follows {rs : RecordStore} (hm : mode ≠ .read) (ha : mode ≠ .append)
    (hrec : rs.getRecord id = some old) (hmem : HasMemory a old)
    (hold : mode.Truncates ∨ old ≠ invalidRecord) :
    ∃ f, rsOpen a rs id mode = .file f ∧ Follows mode f.file (mode.start old) := by
  have truncated : ∃ f, openMemory a none 0 true = .file f ∧ Represents f.file ⟨[], 0⟩ := by
    obtain ⟨f, hf, ho⟩ := openMemory_none hmem.block 0 true
    exact ⟨f, hf, ho.represents⟩
  have loaded (hne : old ≠ invalidRecord) :
      ∃ f, openMemory a (readRecord a rs id).1 (readRecord a rs id).2 true = .file f ∧
        Represents f.file ⟨old, 0⟩ := by
    obtain ⟨block, hb⟩ := Option.isSome_iff_exists.mp hmem.record
    have hr : readRecord a rs id = (some old, BitVec.ofNat 32 old.length) := by
      simp only [readRecord, hrec, hb, if_neg hne]
    rw [hr]
    exact ⟨_, rfl, MemoryFile.represents_openData hmem.small⟩
  cases mode with
  | read => exact absurd rfl hm
  | append => exact absurd rfl ha
  | write | readTruncate =>
    obtain ⟨f, hf, hr⟩ := truncated
    exact ⟨f, hf, 0, hr, fun _ => rfl⟩
  | readWrite =>
    obtain ⟨f, hf, hr⟩ := loaded (hold.resolve_left (by decide))
    exact ⟨f, hf, 0, hr, fun _ => rfl⟩
  | readAppend =>
    obtain ⟨f, hf, hr⟩ := loaded (hold.resolve_left (by decide))
    exact ⟨f, hf, 0, hr, fun h => absurd (.inr rfl) h⟩

/-- What is saved is the file up to its position. -/
theorem closeWrite_iff {rs : RecordStore} (hrec : rs.getRecord id = some old)
    (h : Follows mode fp f) :
    (closeWrite o rs id fp).bind (fun rs => rs.getRecord id) = some f.bytes ↔
      fp.vfptr = fp.fileSize := by
  obtain ⟨p, hr, -⟩ := h
  have hlt := hr.pos_lt
  have hnn : ¬ fp.vfptr.toInt < 0 := by
    rw [BitVec.toInt_eq_toNat_of_lt (by omega)]
    omega
  obtain ⟨rs', hset, hget⟩ :=
    RecordStore.getRecord_setRecord hrec (bytesAt o fp.priv.data 0 fp.vfptr.toNat)
  have hsaved : (closeWrite o rs id fp).bind (fun rs => rs.getRecord id) =
      some (bytesAt o fp.priv.data 0 fp.vfptr.toNat) := by
    simp only [closeWrite, if_neg hnn, hset, Option.bind_some, hget]
  rw [hsaved, Option.some.injEq]
  have hsize : fp.fileSize.toNat = f.bytes.length := hr.size
  constructor
  · intro he
    have hl := congrArg List.length he
    rw [bytesAt, List.length_map, List.length_range] at hl
    exact BitVec.eq_of_toNat_eq (hl.trans hsize.symm)
  · intro he
    have hfits := hr.fits
    have hblock := hr.block
    have hlen : fp.fileSize.toNat ≤ fp.priv.data.length := hblock ▸ hfits
    rw [he, MemoryFile.bytesAt_eq o (Nat.le_of_eq (Nat.zero_add _)) hlen, List.drop_zero,
      List.take_take, Nat.min_self]
    exact hr.bytes

/-- The record behind a run of calls that are kept is that of an ordinary file, exactly when the
file is not opened for appending only and is closed at its end. -/
theorem record_run_iff (a : Allocator) (o : Nat → Byte) {rs : RecordStore}
    (hm : mode ≠ .read) (hrec : rs.getRecord id = some old) (hmem : HasMemory a old)
    (hold : mode.Truncates ∨ old ≠ invalidRecord) (cs : List FileCall)
    (hk : ∀ f, rsOpen a rs id mode = .file f →
      EachCall (File.call (fops a o)) (KeptIn a mode) f.file cs) :
    rsRun a o rs id mode cs = some (ordinaryRun mode old cs) ↔
      ∃ fp, rsCalls a o rs id mode cs = some fp ∧ fp.vfptr = fp.fileSize := by
  by_cases ha : mode = .append
  · subst ha
    exact iff_of_false (fun h => nomatch h) (fun ⟨_, h, _⟩ => nomatch h)
  · obtain ⟨f, hf, hfol⟩ := rsOpen_follows hm ha hrec hmem hold
    have hstep (s : MemoryFile) (t : ByteFile) (c : FileCall) (hr : Follows mode s t)
        (hc : KeptIn a mode s c) : Follows mode (s.call (fops a o) c).2 (t.callIn mode c).2 :=
      hr.call hc
    have hrun := replyRun_keeps hstep cs hfol (hk f hf)
    have hcalls : rsCalls a o rs id mode cs =
      some (replyRun (File.call (fops a o)) f.file cs).2 := by
      simp only [rsCalls, hf]
    rw [rsRun, hcalls, Option.bind_some, rsClose, if_neg hm, ordinaryRun]
    refine (closeWrite_iff hrec hrun).trans ?_
    exact ⟨fun h => ⟨_, rfl, h⟩, fun ⟨_, he, h⟩ => Option.some.inj he ▸ h⟩

end

/-- A store with one record. -/
def oneRecord : RecordStore := ⟨[[10, 20, 30]]⟩

/-- A byte is written in the middle, and the file is read to its end. -/
def writeAndRead : List FileCall :=
  [.fread 1 1, .fwrite (fun _ => 99) 1 1, .fread 1 5]

theorem record_run_kept : rsRun (.upTo 8000) (fun _ => 0) oneRecord 1 .readWrite writeAndRead =
    some [10, 99, 30] := by
  have hk (f : IndirectFile) (hf : rsOpen (.upTo 8000) oneRecord 1 .readWrite = .file f) :
      EachCall (File.call (fops (.upTo 8000) fun _ => 0)) (KeptIn (.upTo 8000) .readWrite) f.file
        writeAndRead := by
    cases hf
    decide
  have hrec : oneRecord.getRecord 1 = some [10, 20, 30] := rfl
  have hrun := (record_run_iff (.upTo 8000) (fun _ => 0) (by decide) hrec
    ⟨by decide, by decide, by decide⟩ (.inr (by decide)) writeAndRead hk).mpr ⟨_, rfl, by decide⟩
  exact hrun.trans (by decide)

/-- A record that is read in part is cut off there, and a file cannot be opened for appending. -/
theorem record_cut_off :
    rsRun (.upTo 8000) (fun _ => 0) oneRecord 1 .readWrite [.fread 1 1] = some [10] ∧
    ordinaryRun .readWrite [10, 20, 30] [.fread 1 1] = [10, 20, 30] ∧
    rsOpen (.upTo 8000) oneRecord 1 .append = .panic ∧
    OpenMode.getMode "" "a" = some .append :=
  ⟨by decide, by decide, rfl, by decide⟩

end RecordFile

end Cibyl
