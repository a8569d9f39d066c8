import Cibyl.MemoryFile
import Mathlib.Data.List.Induction
import Mathlib.Data.List.Find
import Mathlib.Data.List.GetD
import Mathlib.Data.List.Nodup

namespace Cibyl
set_option autoImplicit true

/-- `struct.pack(">L", v)`, where it does not fail. -/
def pack32 (v : Nat) : List Byte :=
  [BitVec.ofNat 8 (v / 2 ^ 24), BitVec.ofNat 8 (v / 2 ^ 16), BitVec.ofNat 8 (v / 2 ^ 8),
    BitVec.ofNat 8 v]

/-- Words written one after the other. -/
def packAll (vs : List Nat) : Option (List Byte) :=
  if ∀ v ∈ vs, v < 2 ^ 32 then some (vs.flatMap pack32) else none

/-- A word of a block that was read, of which the rest holds what was there before. -/
def wordAt (stale : Nat → Byte) (bs : List Byte) (i : Nat) : Word :=
  let b (k : Nat) := (bs.getD (i + k) (stale (i + k))).toNat
  BitVec.ofNat 32 (b 0 * 2 ^ 24 + b 1 * 2 ^ 16 + b 2 * 2 ^ 8 + b 3)

/-- The string at the start of a block. -/
def cString (bs : List Byte) : List Byte := bs.takeWhile (fun b => b ≠ 0)

/-- A name and the contents of its file, in the order of the dictionary. -/
abbrev NamedFile := List Byte × List Byte

/-- The tables of the writer. -/
structure CibarTables where
  strtab : List Byte → Nat
  datatab : List Byte → Nat
  strtabOffset : Nat
  dataOffset : Nat
  totalSize : Nat

namespace CibarTables

def headerSize : Nat := 24

def fileEntrySize : Nat := 12

def add (t : CibarTables) (f : NamedFile) : CibarTables where
  strtab k := if k = f.1 then t.strtabOffset else t.strtab k
  datatab k := if k = f.1 then t.dataOffset else t.datatab k
  strtabOffset := t.strtabOffset + (f.1.length + 1)
  dataOffset := t.dataOffset + f.2.length
  totalSize := t.totalSize + (f.1.length + 1) + f.2.length

def create (files : List NamedFile) : CibarTables :=
  files.foldl add ⟨fun _ => 0, fun _ => 0, 0, 0, headerSize⟩

def fileEntry (t : CibarTables) (f : NamedFile) : List Nat :=
  [t.strtab f.1, t.datatab f.1, f.2.length]

end CibarTables

def magic : Nat := 0x12344321

open CibarTables in
/-- The archive, or none where a size does not fit its word. -/
def generateCibar (files : List NamedFile) : Option (List Byte) :=
  let t := create files
  let totalSize := t.totalSize + files.length * fileEntrySize
  (packAll ([magic, totalSize, t.strtabOffset, t.dataOffset, files.length,
    totalSize - t.dataOffset] ++ files.flatMap t.fileEntry)).map
    (fun words => words ++ files.flatMap (fun f => f.1 ++ [0]) ++ files.flatMap Prod.snd)

/-- `cibar_file_entry_t`: what begins at its pointers, and the size. -/
structure CibarFileEntry where
  data : List Byte
  dataSize : Word
  name : List Byte

/-- `cibar_t`. -/
structure Cibar where
  nFiles : Word
  files : List CibarFileEntry

namespace Cibar

/-- The members that a read returns, with what it stores. -/
def readBlock (ops : Fops π) (size nmemb : Word) (f : File π) :
    Option (Nat × List Byte × File π) :=
  match f.fread ops size nmemb with
  | (.members n bytes, f) => some (n, bytes, f)
  | _ => none

def cibarOpen (ops : Fops π) (stale : Nat → Byte) (f : File π) : Option Cibar := do
  let (_, cb, f) ← readBlock ops 24 1 f
  if wordAt stale cb 0 ≠ 0x12344321 then none
  else
    let strtabLength := wordAt stale cb 8
    let dataLength := wordAt stale cb 12
    let nFileEntries := wordAt stale cb 16
    let (n, entries, f) ← readBlock ops 1 (12 * nFileEntries) f
    if n ≠ (12 * nFileEntries).toNat then none
    else
      let (n, strings, f) ← readBlock ops 1 strtabLength f
      if n ≠ strtabLength.toNat then none
      else
        let (n, data, _) ← readBlock ops 1 dataLength f
        if n ≠ dataLength.toNat then none
        else
          some ⟨nFileEntries, (List.range nFileEntries.toNat).map fun i =>
            { data := data.drop (wordAt stale entries (12 * i + 4)).toNat
              dataSize := wordAt stale entries (12 * i + 8)
              name := strings.drop (wordAt stale entries (12 * i)).toNat }⟩

/-- `NOPH_MemoryFile_open` on data that begins a larger block. -/
def openMemory (ptr : List Byte) (size : Word) : MemoryFile :=
  { File.alloc ⟨ptr, size⟩ with fileSize := size }

def cibarFileOpen (p : Cibar) (name : List Byte) : Option MemoryFile :=
  ((p.files.take p.nFiles.toInt.toNat).find? (fun e =>
    (cString e.name).length = (cString name).length ∧ cString e.name = cString name)).map
    (fun e => openMemory e.data e.dataSize)

end Cibar

/-- A file at its start with just these bytes. -/
structure HoldsFile (fp : MemoryFile) (bs : List Byte) : Prop where
  size : fp.fileSize.toNat = bs.length
  bytes : fp.contents = bs
  position : fp.fptr = 0 ∧ fp.vfptr = 0

/-- Files whose reads deliver the bytes that are there. -/
structure Serves (ops : Fops π) (holds : File π → ByteFile → Prop) : Prop where
  fread : holds fp f → size ≠ 0 → size.toNat * nmemb.toNat < 2 ^ 32 →
    f.pos + size.toNat * nmemb.toNat ≤ f.bytes.length →
    ∃ fp', fp.fread ops size nmemb =
        (.members nmemb.toNat ((f.bytes.drop f.pos).take (size.toNat * nmemb.toNat)), fp') ∧
      holds fp' ⟨f.bytes, f.pos + size.toNat * nmemb.toNat⟩

theorem serves_memory (a : Allocator) (o : Nat → Byte) :
    Serves (MemoryFile.fops a o) MemoryFile.Represents := by
  constructor
  intro fp f size nmemb h hs hlt hle
  have hmul : (size * nmemb).toNat = size.toNat * nmemb.toNat := BitVec.toNat_mul_of_lt hlt
  have hsize := h.size
  have hpos := h.pos
  have hpos' : 0 < size.toNat := Nat.pos_of_ne_zero fun h => hs (BitVec.eq_of_toNat_eq h)
  have hk : MemoryFile.Kept a fp (.fread size nmemb) := ⟨by rw [hmul], .inr (by omega)⟩
  obtain ⟨hr, hh⟩ := h.fread_refines (o := o) hk
  have hahead : (f.ahead (size.toNat * nmemb.toNat)).length = size.toNat * nmemb.toNat := by
    rw [ByteFile.ahead, List.length_take, List.length_drop]
    omega
  simp only [ByteFile.call, ByteFile.get, hahead, Nat.mul_div_cancel_left _ hpos'] at hr hh
  exact ⟨_, Prod.ext hr rfl, hh⟩

theorem pack32_length (v : Nat) : (pack32 v).length = 4 := rfl

/-- A word is what was packed. -/
theorem wordAt_eq {stale : Nat → Byte} {bs : List Byte} (hv : v < 2 ^ 32)
    (h : ∀ k < 4, bs.getD (i + k) (stale (i + k)) = (pack32 v).getD k 0) :
    (wordAt stale bs i).toNat = v := by
  have h₀ := h 0 (by decide)
  have h₁ := h 1 (by decide)
  have h₂ := h 2 (by decide)
  have h₃ := h 3 (by decide)
  simp only [wordAt, h₀, h₁, h₂, h₃, pack32, List.getD_cons_zero, List.getD_cons_succ,
    BitVec.toNat_ofNat]
  omega

/-- The chunks of a list of equal chunks. -/
theorem flatMap_getD {xs : List α} {g : α → List β} (hg : ∀ x ∈ xs, (g x).length = c)
    (hi : i < xs.length) (hj : j < c) (d : β) :
    (xs.flatMap g).getD (c * i + j) d = (g (xs.get ⟨i, hi⟩)).getD j d := by
  induction xs generalizing i with
  | nil => cases hi
  | cons x xs ih =>
    obtain ⟨hx, hxs⟩ := List.forall_mem_cons.mp hg
    rw [List.flatMap_cons]
    cases i with
    | zero =>
      rw [Nat.mul_zero, Nat.zero_add, List.getD_append _ _ _ _ (by omega)]
      rfl
    | succ i =>
      have hsub : c * (i + 1) + j - (g x).length = c * i + j := by
        rw [hx, Nat.mul_succ]
        omega
      rw [List.getD_append_right _ _ _ _ (by rw [hx, Nat.mul_succ]; omega), hsub,
        ih hxs (Nat.lt_of_succ_lt_succ hi)]
      rfl

theorem flatMap_length {xs : List α} {g : α → List β} (hg : ∀ x ∈ xs, (g x).length = c) :
    (xs.flatMap g).length = c * xs.length := by
  induction xs with
  | nil => rfl
  | cons x xs ih =>
    obtain ⟨hx, hxs⟩ := List.forall_mem_cons.mp hg
    rw [List.flatMap_cons, List.length_append, hx, ih hxs, List.length_cons, Nat.mul_succ,
      Nat.add_comm]

theorem wordAt_flatMap (stale : Nat → Byte) {vs : List Nat} (hv : ∀ v ∈ vs, v < 2 ^ 32)
    (hi : i < vs.length) : (wordAt stale (vs.flatMap pack32) (4 * i)).toNat = vs.getD i 0 := by
  rw [List.getD_eq_getElem _ _ hi]
  refine wordAt_eq (hv _ (List.getElem_mem hi)) fun k hk => ?_
  rw [flatMap_getD (fun v _ => pack32_length v) hi hk, List.getD_eq_getElem _ _ hk,
    List.getD_eq_getElem _ _ hk]
  rfl

theorem cString_append {k : List Byte} (h : (0 : Byte) ∉ k) (bs : List Byte) :
    cString (k ++ 0 :: bs) = k := by
  have hk : ∀ b ∈ k, decide (b ≠ 0) = true :=
    fun b hb => decide_eq_true fun (hz : b = 0) => h (hz ▸ hb)
  rw [cString, List.takeWhile_append_of_pos hk]
  exact List.append_nil k

namespace CibarTables

def strtabBytes (files : List NamedFile) : List Byte := files.flatMap (fun f => f.1 ++ [0])

def dataBytes (files : List NamedFile) : List Byte := files.flatMap Prod.snd

theorem create_sizes (files : List NamedFile) :
    (create files).strtabOffset = (strtabBytes files).length ∧
      (create files).dataOffset = (dataBytes files).length ∧
      (create files).totalSize =
        24 + (strtabBytes files).length + (dataBytes files).length := by
  induction files using List.reverseRecOn with
  | nil => exact ⟨rfl, rfl, rfl⟩
  | append_singleton files f ih =>
    obtain ⟨hs, hd, ht⟩ := ih
    have hsnoc : create (files ++ [f]) = (create files).add f := List.foldl_append
    simp only [hsnoc, add, hs, hd, ht, strtabBytes, dataBytes, List.flatMap_append,
      List.flatMap_singleton, List.length_append, List.length_singleton]
    exact ⟨trivial, trivial, by omega⟩

theorem foldl_add_of_not_mem {files : List NamedFile} (t : CibarTables)
    (h : k ∉ files.map Prod.fst) :
    (files.foldl add t).strtab k = t.strtab k ∧ (files.foldl add t).datatab k = t.datatab k := by
  induction files generalizing t with
  | nil => exact ⟨rfl, rfl⟩
  | cons f files ih =>
    rw [List.map_cons, List.mem_cons, not_or] at h
    obtain ⟨hs, hd⟩ := ih (t.add f) h.2
    exact ⟨hs.trans (if_neg h.1), hd.trans (if_neg h.1)⟩

/-- The offsets of a file are the lengths of what stands before it. -/
theorem create_offsets {pre post : List NamedFile} {f : NamedFile}
    (hn : ((pre ++ f :: post).map Prod.fst).Nodup) :
    (create (pre ++ f :: post)).strtab f.1 = (strtabBytes pre).length ∧
      (create (pre ++ f :: post)).datatab f.1 = (dataBytes pre).length := by
  rw [List.map_append, List.map_cons] at hn
  have hpost : f.1 ∉ post.map Prod.fst :=
    (List.nodup_cons.mp (List.nodup_append.mp hn).2.1).1
  have hcreate : create (pre ++ f :: post) = post.foldl add ((create pre).add f) := by
    rw [create, List.foldl_append]
    rfl
  obtain ⟨hs, hd⟩ := foldl_add_of_not_mem ((create pre).add f) hpost
  obtain ⟨hsize, hdata, -⟩ := create_sizes pre
  rw [hcreate, hs, hd]
  exact ⟨(if_pos rfl).trans hsize, (if_pos rfl).trans hdata⟩

end CibarTables

namespace Cibar

open CibarTables

variable {ops : Fops π} {holds : File π → ByteFile → Prop} {fp : File π}

/-- A read of the next part of a file. -/
theorem readBlock_eq (hd : Serves ops holds) (size nmemb : Word) (pre : List Byte)
    {mid post : List Byte}
    (h : holds fp ⟨pre ++ (mid ++ post), pre.length⟩) (hs : size ≠ 0)
    (hm : mid.length = size.toNat * nmemb.toNat) (hlt : mid.length < 2 ^ 32) :
    ∃ fp', readBlock ops size nmemb fp = some (nmemb.toNat, mid, fp') ∧
      holds fp' ⟨(pre ++ mid) ++ post, (pre ++ mid).length⟩ := by
  obtain ⟨fp', hr, hh⟩ := hd.fread h hs (hm ▸ hlt) (by
    rw [← hm]
    simp only [List.length_append]
    omega)
  rw [← hm, List.drop_left, List.take_left] at hr
  rw [← hm, ← List.append_assoc, ← List.length_append] at hh
  exact ⟨fp', by rw [readBlock, hr], hh⟩

/-- The parts of an archive. -/
theorem generateCibar_eq {files : List NamedFile} (h : generateCibar files = some bytes) :
    ∃ header : List Nat,
      header = [magic, (create files).totalSize + files.length * fileEntrySize,
        (strtabBytes files).length, (dataBytes files).length, files.length,
        (create files).totalSize + files.length * fileEntrySize - (dataBytes files).length] ∧
      (∀ v ∈ header, v < 2 ^ 32) ∧ (∀ v ∈ files.flatMap (create files).fileEntry, v < 2 ^ 32) ∧
      24 + 12 * files.length + (strtabBytes files).length + (dataBytes files).length < 2 ^ 32 ∧
      bytes = header.flatMap pack32 ++
        ((files.flatMap (create files).fileEntry).flatMap pack32 ++
          (strtabBytes files ++ dataBytes files)) := by
  obtain ⟨hs, hd, ht⟩ := create_sizes files
  rw [generateCibar, hs, hd] at h
  obtain ⟨words, hw, hb⟩ := Option.map_eq_some_iff.mp h
  rw [packAll] at hw
  split at hw
  · next hall =>
    cases hw
    obtain ⟨hh, he⟩ := List.forall_mem_append.mp hall
    have htotal := hh _ (List.mem_cons_of_mem _ (List.mem_cons_self ..))
    rw [ht, fileEntrySize] at htotal
    refine ⟨_, rfl, hh, he, by omega, ?_⟩
    rw [← hb, List.flatMap_append, List.append_assoc, List.append_assoc]
    rfl
  · cases hw

/-- The words of the entry of a file. -/
theorem wordAt_fileEntry (stale : Nat → Byte) {t : CibarTables} {files : List NamedFile}
    (he : ∀ v ∈ files.flatMap t.fileEntry, v < 2 ^ 32) (hi : i < files.length) (hj : j < 3) :
    (wordAt stale ((files.flatMap t.fileEntry).flatMap pack32) (12 * i + 4 * j)).toNat =
      (t.fileEntry (files.getD i default)).getD j 0 := by
  have hlen : (files.flatMap t.fileEntry).length = 3 * files.length := flatMap_length fun _ _ => rfl
  have hplace : 12 * i + 4 * j = 4 * (3 * i + j) := by omega
  have hg : ∀ f ∈ files, (t.fileEntry f).length = 3 := fun _ _ => rfl
  rw [hplace, wordAt_flatMap stale he (by omega), flatMap_getD hg hi hj,
    List.getD_eq_getElem _ _ hi]
  rfl

/-- Where all reads return what they were asked for. -/
theorem cibarOpen_of_reads {stale : Nat → Byte} {f f₁ f₂ f₃ f₄ : File π}
    {cb entries strings data : List Byte}
    (h₁ : readBlock ops 24 1 f = some (k, cb, f₁)) (hm : wordAt stale cb 0 = 0x12344321)
    (h₂ : readBlock ops 1 (12 * wordAt stale cb 16) f₁ =
      some ((12 * wordAt stale cb 16).toNat, entries, f₂))
    (h₃ : readBlock ops 1 (wordAt stale cb 8) f₂ = some ((wordAt stale cb 8).toNat, strings, f₃))
    (h₄ : readBlock ops 1 (wordAt stale cb 12) f₃ = some ((wordAt stale cb 12).toNat, data, f₄)) :
    cibarOpen ops stale f = some ⟨wordAt stale cb 16,
      (List.range (wordAt stale cb 16).toNat).map fun i =>
        { data := data.drop (wordAt stale entries (12 * i + 4)).toNat
          dataSize := wordAt stale entries (12 * i + 8)
          name := strings.drop (wordAt stale entries (12 * i)).toNat }⟩ := by
  rw [cibarOpen, h₁, Option.bind_eq_bind, Option.bind_some]
  dsimp only
  rw [if_neg (not_not_intro hm), h₂, Option.bind_some]
  dsimp only
  rw [if_neg (not_not_intro rfl), h₃, Option.bind_some]
  dsimp only
  rw [if_neg (not_not_intro rfl), h₄, Option.bind_some]
  dsimp only
  rw [if_neg (not_not_intro rfl)]

theorem wordAt_header (stale : Nat → Byte) {header : List Nat}
    (hh : ∀ v ∈ header, v < 2 ^ 32) (he : header = [magic, a, strings, data, n, b]) :
    wordAt stale (header.flatMap pack32) 0 = 0x12344321 ∧
    (wordAt stale (header.flatMap pack32) 8).toNat = strings ∧
    (wordAt stale (header.flatMap pack32) 12).toNat = data ∧
    (wordAt stale (header.flatMap pack32) 16).toNat = n := by
  have hword (i : Nat) (hi : i < 6) := wordAt_flatMap stale hh (i := i) (by rw [he]; exact hi)
  have hvalue : (0x12344321 : Word).toNat = magic := by decide
  refine ⟨?_, (hword 2 (by decide)).trans (by rw [he]; rfl),
    (hword 3 (by decide)).trans (by rw [he]; rfl), (hword 4 (by decide)).trans (by rw [he]; rfl)⟩
  apply BitVec.eq_of_toNat_eq
  rw [hvalue]
  exact (hword 0 (by decide)).trans (by rw [he, List.getD_cons_zero])

/-- An archive is opened with an entry for each file. -/
theorem cibarOpen_archive (hd : Serves ops holds) (stale : Nat → Byte)
    {files : List NamedFile} (h : generateCibar files = some bytes) (hf : holds fp ⟨bytes, 0⟩) :
    ∃ n : Word, n.toNat = files.length ∧ cibarOpen ops stale fp = some ⟨n,
      (List.range files.length).map fun i =>
        { data := (dataBytes files).drop ((create files).datatab (files.getD i default).1)
          dataSize := BitVec.ofNat 32 (files.getD i default).2.length
          name := (strtabBytes files).drop ((create files).strtab (files.getD i default).1) }⟩ := by
  obtain ⟨header, hheader, hh, he, hlt, hb⟩ := generateCibar_eq h
  have hlen : header.length = 6 := by
    rw [hheader]
    rfl
  have hhlen : (header.flatMap pack32).length = 24 := by
    rw [flatMap_length fun v _ => pack32_length v, hlen]
  have hwords : (files.flatMap (create files).fileEntry).length = 3 * files.length :=
    flatMap_length fun f _ => rfl
  have helen : ((files.flatMap (create files).fileEntry).flatMap pack32).length =
      12 * files.length := by
    rw [flatMap_length fun v _ => pack32_length v, hwords]
    omega
  rw [hb] at hf
  obtain ⟨fp₁, hr₁, hf₁⟩ := readBlock_eq hd 24 1 [] hf (by decide)
    hhlen (by rw [hhlen]; decide)
  obtain ⟨hmagic, hstrtab, hdata, hn⟩ := wordAt_header stale hh hheader
  generalize hH : header.flatMap pack32 = H at hr₁ hf₁ hmagic hstrtab hdata hn
  have h12 : (12 * wordAt stale H 16).toNat = 12 * files.length := by
    rw [BitVec.toNat_mul_of_lt, hn]
    · rfl
    · rw [hn]
      change 12 * files.length < _
      omega
  have hone : (1 : Word).toNat = 1 := rfl
  obtain ⟨fp₂, hr₂, hf₂⟩ := readBlock_eq hd 1 (12 * wordAt stale H 16) _ hf₁
    (by decide) (by rw [helen, h12, hone, Nat.one_mul]) (by omega)
  obtain ⟨fp₃, hr₃, hf₃⟩ := readBlock_eq hd 1 (wordAt stale H 8) _ hf₂
    (by decide) (by rw [hstrtab, hone, Nat.one_mul]) (by omega)
  rw [← List.append_nil (dataBytes files)] at hf₃
  obtain ⟨fp₄, hr₄, -⟩ := readBlock_eq hd 1 (wordAt stale H 12) _ hf₃
    (by decide) (by rw [hdata, hone, Nat.one_mul]) (by omega)
  refine ⟨wordAt stale H 16, hn, ?_⟩
  rw [cibarOpen_of_reads hr₁ hmagic hr₂ hr₃ hr₄, hn]
  congr 2
  refine List.map_congr_left fun i hi => ?_
  have hi := List.mem_range.mp hi
  have hentry (j : Nat) (hj : j < 3) := wordAt_fileEntry stale he hi hj
  have hsize : wordAt stale ((files.flatMap (create files).fileEntry).flatMap pack32) (12 * i + 8) =
      BitVec.ofNat 32 (files.getD i default).2.length := by
    have h2 := hentry 2 (by decide)
    rw [← BitVec.setWidth_eq (wordAt ..), ← BitVec.ofNat_toNat]
    exact congrArg (BitVec.ofNat 32) h2
  rw [hsize]
  exact congrArg₂ (fun d n => CibarFileEntry.mk ((dataBytes files).drop d) _
    ((strtabBytes files).drop n)) (hentry 1 (by decide)) (hentry 0 (by decide))

/-- The entry of a file. -/
def entryOf (files : List NamedFile) (f : NamedFile) : CibarFileEntry where
  data := (dataBytes files).drop ((create files).datatab f.1)
  dataSize := BitVec.ofNat 32 f.2.length
  name := (strtabBytes files).drop ((create files).strtab f.1)

theorem range_map_getD [Inhabited α] (g : α → β) (xs : List α) :
    ((List.range xs.length).map fun i => g (xs.getD i default)) = xs.map g := by
  refine List.ext_getElem (by simp) fun i h₁ h₂ => ?_
  rw [List.length_map] at h₂
  rw [List.getElem_map, List.getElem_map, List.getElem_range, List.getD_eq_getElem _ _ h₂]

/-- The entry of a file leads to its name and its contents. -/
theorem entryOf_eq {files : List NamedFile} (hn : (files.map Prod.fst).Nodup) (hf : f ∈ files)
    (hnul : (0 : Byte) ∉ f.1) :
    cString (entryOf files f).name = f.1 ∧
      (entryOf files f).data.take f.2.length = f.2 ∧ f.2.length ≤ (dataBytes files).length := by
  obtain ⟨pre, post, rfl⟩ := List.append_of_mem hf
  obtain ⟨hs, hd⟩ := create_offsets hn
  have hstrtab : strtabBytes (pre ++ f :: post) =
      strtabBytes pre ++ (f.1 ++ 0 :: strtabBytes post) := by
    simp [strtabBytes]
  have hdata : dataBytes (pre ++ f :: post) = dataBytes pre ++ (f.2 ++ dataBytes post) := by
    simp [dataBytes]
  simp only [entryOf, hs, hd, hstrtab, hdata, List.drop_left, List.take_left, List.length_append]
  exact ⟨cString_append hnul _, trivial, by omega⟩

theorem files_length_lt {files : List NamedFile} (h : generateCibar files = some bytes) :
    files.length < 2 ^ 31 ∧ (dataBytes files).length < 2 ^ 32 := by
  obtain ⟨-, -, -, -, hlt, -⟩ := generateCibar_eq h
  omega

/-- A lookup goes by the name. -/
theorem cibarFileOpen_eq {files : List NamedFile} (hn : (files.map Prod.fst).Nodup)
    (hnul : ∀ f ∈ files, (0 : Byte) ∉ f.1) {n : Word} (hlen : n.toNat = files.length)
    (hlt : files.length < 2 ^ 31) (name : List Byte) :
    cibarFileOpen ⟨n, files.map (entryOf files)⟩ name =
      (files.find? (fun f => f.1 = cString name)).map
        (fun f => openMemory (entryOf files f).data (entryOf files f).dataSize) := by
  have hall : (files.map (entryOf files)).take n.toInt.toNat = files.map (entryOf files) := by
    rw [BitVec.toInt_eq_toNat_cond, if_pos (by omega), Int.toNat_natCast, hlen]
    exact List.take_of_length_le (by rw [List.length_map])
  have hfind : (files.find? fun f => decide ((cString (entryOf files f).name).length =
      (cString name).length ∧ cString (entryOf files f).name = cString name)) =
      files.find? (fun f => f.1 = cString name) := by
    refine List.find?_congr fun f hf => ?_
    rw [(entryOf_eq hn hf (hnul f hf)).1]
    exact decide_eq_decide.mpr ⟨And.right, fun h => ⟨by rw [h], h⟩⟩
  rw [cibarFileOpen, hall, List.find?_map, ← hfind, Option.map_map]
  rfl

/-- Every stored name opens a file with just its contents, and no other name opens one. -/
theorem cibar_round_trip (hd : Serves ops holds) (stale : Nat → Byte) {files : List NamedFile}
    (hn : (files.map Prod.fst).Nodup) (hnul : ∀ f ∈ files, (0 : Byte) ∉ f.1)
    (h : generateCibar files = some bytes) (hf : holds fp ⟨bytes, 0⟩) :
    ∃ p, cibarOpen ops stale fp = some p ∧
      (∀ f ∈ files, ∀ name, cString name = f.1 →
        ∃ out, cibarFileOpen p name = some out ∧ HoldsFile out f.2) ∧
      ∀ name, cString name ∉ files.map Prod.fst → cibarFileOpen p name = none := by
  obtain ⟨n, hlen, hopen⟩ := cibarOpen_archive hd stale h hf
  obtain ⟨hlt, hdlt⟩ := files_length_lt h
  have hrange := range_map_getD (entryOf files) files
  simp only [entryOf] at hrange
  rw [hrange] at hopen
  refine ⟨_, hopen, fun f hf name hname => ?_, fun name hname => ?_⟩
  · rw [cibarFileOpen_eq hn hnul hlen hlt]
    have hfind : files.find? (fun f => f.1 = cString name) = some f := by
      cases hg : files.find? (fun f => f.1 = cString name) with
      | none => exact absurd (decide_eq_true hname.symm) (List.find?_eq_none.mp hg f hf)
      | some g =>
        have hgname : g.1 = cString name := by simpa using List.find?_some hg
        rw [List.inj_on_of_nodup_map hn (List.mem_of_find?_eq_some hg) hf (hgname.trans hname)]
    rw [hfind]
    obtain ⟨-, hdata, hle⟩ := entryOf_eq hn hf (hnul f hf)
    have hsize : (BitVec.ofNat 32 f.2.length).toNat = f.2.length := by
      rw [BitVec.toNat_ofNat, Nat.mod_eq_of_lt (by omega)]
    refine ⟨_, rfl, hsize, ?_, rfl, rfl⟩
    change (entryOf files f).data.take (BitVec.ofNat 32 f.2.length).toNat = f.2
    rw [hsize, hdata]
  · rw [cibarFileOpen_eq hn hnul hlen hlt, Option.map_eq_none_iff, List.find?_eq_none]
    intro f hf hname'
    exact hname (of_decide_eq_true hname' ▸ List.mem_map_of_mem hf)

/-- An archive of two files, of which one is empty, in a memory file. -/
theorem cibar_round_trip_two :
    let a : Allocator := ⟨fun _ _ => none, nofun, nofun⟩
    let files : List NamedFile := [([97], [1, 2, 3]), ([97, 98], [])]
    let bytes := (generateCibar files).getD []
    ∃ p, cibarOpen (MemoryFile.fops a fun _ => 0) (fun _ => 0) (MemoryFile.openData bytes) =
        some p ∧
      (∀ f ∈ files, ∀ name, cString name = f.1 →
        ∃ out, cibarFileOpen p name = some out ∧ HoldsFile out f.2) ∧
      ∀ name, cString name ∉ files.map Prod.fst → cibarFileOpen p name = none := by
  intro a files bytes
  have hbytes : generateCibar files = some bytes := rfl
  exact cibar_round_trip (serves_memory a _) _ (by decide) (by decide) hbytes
    (MemoryFile.represents_openData (by decide))

end Cibar

end Cibyl
