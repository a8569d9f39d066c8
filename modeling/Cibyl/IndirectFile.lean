import Cibyl.Library.BoundedLoop
import Cibyl.MemoryFile

namespace Cibyl
set_option autoImplicit true

/-- `cibyl_fops_open_mode_t`. -/
inductive OpenMode where
  | read | readWrite | write | append | readAppend | readTruncate
  deriving DecidableEq, Repr

namespace OpenMode

def modeMapping : List (Option String × OpenMode) :=
  [(some "r", read), (some "rb", read), (some "rw", readWrite), (some "r+", readWrite),
   (some "w", write), (some "wb", write), (some "a", append), (some "a+", readAppend),
   (some "w+", readTruncate), (none, read)]

/-- `cibyl_file_get_mode`, which throws without a match. The last entry of the table is compared
with the string `atNull` at address 0. -/
def getMode (atNull inMode : String) : Option OpenMode :=
  modeMapping.foldl (fun m e => if inMode = e.1.getD atNull then some e.2 else m) none

end OpenMode

/-- A memory file with the rest of `NOPH_Memory_file_t`. -/
structure IndirectFile where
  file : MemoryFile
  allocate : Bool
  writebackPath : Option String
  mode : String

/-- What an open returns. `freed` is a pointer to a `FILE` that was freed. -/
inductive OpenResult where
  | null
  | threw
  | panic
  | freed
  | file (f : IndirectFile)

namespace MemoryFile

/-- `NOPH_MemoryFile_open`, which sets up the file. -/
def openMemory (a : Allocator) (ptr : Option (List Byte)) (size : Word) (allocate : Bool) :
    OpenResult :=
  match ptr with
  | none =>
    match a.realloc [] 4096 with
    | none => .freed
    | some data => .file ⟨File.alloc ⟨data, 4096⟩, true, none, ""⟩
  | some data => .file ⟨{ File.alloc ⟨data, size⟩ with fileSize := size }, allocate, none, ""⟩

/-- The variables of the loop that reads the file. -/
structure Reading where
  size : Word
  data : List Byte
  fileSize : Word

/-- A turn of the loop. Without memory it is left for a `NULL`. -/
def readTurn (a : Allocator) (ops : Fops π) (bufsize : Word) (x : Reading) (tmp : File π) :
    Except Unit (Turn Reading Unit) × File π :=
  let size := x.size + bufsize
  match a.realloc x.data size with
  | none => (.ok (.ret ()), tmp)
  | some data =>
    match tmp.fread ops 1 bufsize with
    | (.members n bytes, tmp) =>
      let data := store data x.fileSize.toNat bytes.length fun i => bytes.getD i 0
      let x := ⟨size, data, x.fileSize + BitVec.ofNat 32 n⟩
      (.ok (if n = bufsize.toNat then .next x else .leave x), tmp)
    | (_, tmp) => (.error (), tmp)

/-- Set the path that the file is written back to. -/
def setWriteback (mode : OpenMode) (name inMode : String) : OpenResult → OpenResult
  | .file f =>
    if mode = .write ∨ mode = .readWrite ∨ mode = .readTruncate then
      .file { f with writebackPath := some name, mode := inMode }
    else .file f
  | r => r

/-- `NOPH_MemoryFile_openIndirectSizeHint` with a bound on the turns of its loop. -/
def openIndirectSizeHint (fuel : Nat) (atNull : String) (a : Allocator) (ops : Fops π)
    (fopen : String → String → Option (File π)) (name inMode : String) (sizeHint : Word) :
    Option OpenResult :=
  match OpenMode.getMode atNull inMode with
  | none => some .threw
  | some mode =>
    if mode = .append ∨ mode = .readAppend then some .panic
    else if mode = .read ∨ mode = .readWrite then
      match fopen name "r" with
      | none => some .null
      | some tmp =>
        match boundedLoop (readTurn a ops sizeHint) fuel ⟨0, [], 0⟩ tmp with
        | (.ok none, _) => none
        | (.error _, _) => some .threw
        | (.ok (some (.ret _)), _) => some .null
        | (.ok (some (.leave x)), _) =>
          some (setWriteback mode name inMode (openMemory a (some x.data) x.fileSize true))
    else some (setWriteback mode name inMode (openMemory a none 0 true))

end MemoryFile

/-- A file that delivers all bytes up to the end. `At fp p` says that `fp` is at the byte `p`. -/
structure Delivers (ops : Fops π) (content : List Byte) (At : File π → Nat → Prop) : Prop where
  lined : At fp p → fp.fptr = fp.vfptr
  read : At fp p → n ≠ 0 → ∃ (k : Word) (fp' : File π),
    ops.read fp n = ((k, (content.drop p).take n.toNat), fp') ∧
    k.toNat = ((content.drop p).take n.toNat).length ∧
    At { fp' with fptr := fp'.fptr + k, vfptr := fp'.fptr + k } (p + k.toNat)

section

variable {π : Type} {ops : Fops π} {content : List Byte} {At : File π → Nat → Prop}

theorem Delivers.fread_eq (h : Delivers ops content At) (ha : At fp p) (hn : n ≠ 0) :
    ∃ fp', fp.fread ops 1 n = (.members ((content.drop p).take n.toNat).length
      ((content.drop p).take n.toNat), fp') ∧
      At fp' (p + ((content.drop p).take n.toNat).length) := by
  obtain ⟨k, fp', hr, hk, hat⟩ := h.read ha hn
  have h1 : (1 : Word) * n = n := BitVec.one_mul n
  have hs : fp.applySeek ops = (true, fp) := if_neg (fun hne => hne (h.lined ha))
  have hd : (k / 1).toNat = k.toNat := by
    rw [BitVec.toNat_udiv]
    exact Nat.div_one _
  refine ⟨_, ?_, hk ▸ hat⟩
  rw [File.fread, h1, if_neg hn, hs]
  simp only [if_true, hr, hd, hk]

theorem Delivers.fread_zero (fp : File π) : fp.fread ops 1 0 = (.members 0 [], fp) := by
  have h0 : (1 : Word) * 0 = 0 := by decide
  rw [File.fread, if_pos h0]

end

/-- Blocks of up to `limit` bytes can be had. -/
def Allocator.Succeeds (a : Allocator) (limit : Nat) : Prop :=
  ∀ block n, n.toNat ≤ limit → (a.realloc block n).isSome

namespace MemoryFile

section

variable {π : Type} {ops : Fops π} {content : List Byte} {At : File π → Nat → Prop}
  {a : Allocator} {hint : Word}

/-- The first `p` bytes of the file have been read, in turns that filled the buffer. -/
structure ReadSoFar (content : List Byte) (At : File π → Nat → Prop) (hint : Word) (p : Nat)
    (x : Reading) (tmp : File π) : Prop where
  pos : At tmp p
  le : p ≤ content.length
  turns : hint.toNat ∣ p
  size : x.size.toNat = p
  fileSize : x.fileSize.toNat = p
  data : x.data = content.take p

/-- The whole file has been read. -/
def ReadAll (content : List Byte) : Exit Reading Unit → Prop
  | .leave x => x.fileSize.toNat = content.length ∧ x.data.take content.length = content
  | .ret _ => False

theorem store_at_end (data bytes : List Byte) (h : p + bytes.length ≤ data.length) :
    (store data p bytes.length fun i => bytes.getD i 0).take (p + bytes.length) =
      data.take p ++ bytes := by
  apply List.ext_getElem?
  intro i
  rw [List.getElem?_take, store, List.getElem?_mapIdx]
  by_cases hi : i < p
  · rw [if_pos (by omega), List.getElem?_append_left (by rw [List.length_take]; omega),
      List.getElem?_take_of_lt hi, List.getElem?_eq_getElem (by omega), Option.map_some,
      if_neg (by omega)]
  · have hl : (data.take p).length = p := by
      rw [List.length_take]
      omega
    rw [List.getElem?_append_right (by omega), hl]
    by_cases hb : i < p + bytes.length
    · rw [if_pos hb, List.getElem?_eq_getElem (by omega : i < data.length), Option.map_some,
        if_pos ⟨by omega, hb⟩, List.getD_eq_getElem?_getD,
        List.getElem?_eq_getElem (by omega : i - p < bytes.length)]
      rfl
    · rw [if_neg hb, List.getElem?_eq_none (by omega)]

theorem next_size_le (hd : hint.toNat ∣ p) (hp : p ≤ content.length) :
    p + hint.toNat ≤ (content.length / hint.toNat + 1) * hint.toNat := by
  obtain ⟨q, rfl⟩ := hd
  rcases Nat.eq_zero_or_pos hint.toNat with h0 | h0
  · rw [h0, Nat.zero_mul, Nat.mul_zero, Nat.zero_add]
  · have hq : q ≤ content.length / hint.toNat :=
      (Nat.le_div_iff_mul_le h0).mpr (by rwa [Nat.mul_comm])
    rw [Nat.succ_mul, Nat.mul_comm]
    exact Nat.add_le_add_right (Nat.mul_le_mul_right _ hq) _

/-- What a turn reads is put behind what is there. -/
theorem ReadSoFar.turn (h : ReadSoFar content At hint p x tmp) (hd : Delivers ops content At)
    (hs : a.Succeeds limit) (hn : p + hint.toNat ≤ limit) (hlim : limit < 2 ^ 32)
    (hne : hint ≠ 0) : ∃ (data : List Byte) (fileSize : Word) (tmp' : File π),
      readTurn a ops hint x tmp = (.ok (if Min.min hint.toNat (content.length - p) = hint.toNat then
        .next ⟨x.size + hint, data, fileSize⟩ else .leave ⟨x.size + hint, data, fileSize⟩), tmp') ∧
      (x.size + hint).toNat = p + hint.toNat ∧ data.length = p + hint.toNat ∧
      fileSize.toNat = p + Min.min hint.toNat (content.length - p) ∧
      data.take (p + Min.min hint.toNat (content.length - p)) = content.take (p + hint.toNat) ∧
      At tmp' (p + Min.min hint.toNat (content.length - p)) := by
  have hle := h.le
  have hsize := h.size
  have hsz : (x.size + hint).toNat = p + hint.toNat := by
    rw [BitVec.toNat_add_of_lt (by omega), hsize]
  obtain ⟨data, hdata⟩ := Option.isSome_iff_exists.mp (hs x.data (x.size + hint) (by omega))
  have hlen : data.length = p + hint.toNat := (a.length hdata).trans hsz
  have hxl : x.data.length = p := by
    rw [h.data, List.length_take, Nat.min_eq_left hle]
  have hkept : data.take p = content.take p := by
    have hk := a.kept hdata
    rw [hxl] at hk
    rw [hk, List.take_of_length_le (by omega), h.data]
  obtain ⟨tmp', hr, hat⟩ := hd.fread_eq h.pos hne
  have hbl : ((content.drop p).take hint.toNat).length =
      Min.min hint.toNat (content.length - p) := by
    rw [List.length_take, List.length_drop]
  rw [hbl] at hr hat
  refine ⟨store data x.fileSize.toNat ((content.drop p).take hint.toNat).length fun i =>
    ((content.drop p).take hint.toNat).getD i 0,
    x.fileSize + BitVec.ofNat 32 (Min.min hint.toNat (content.length - p)), tmp', ?_,
      hsz, ?_, ?_, ?_,
    hat⟩
  · rw [readTurn, hdata]
    simp only [hr]
  · rw [store_length, hlen]
  · have hof : (BitVec.ofNat 32 (Min.min hint.toNat (content.length - p))).toNat =
        Min.min hint.toNat (content.length - p) := by
      rw [BitVec.toNat_ofNat]
      exact Nat.mod_eq_of_lt (by omega)
    have hfile := h.fileSize
    rw [BitVec.toNat_add_of_lt (by omega), hfile, hof]
  · have hst := store_at_end (p := p) data ((content.drop p).take hint.toNat) (by omega)
    rw [hbl] at hst
    rw [h.fileSize, hbl, hst, hkept, ← List.take_add]

theorem readTurn_ensures (hd : Delivers ops content At) (hs : a.Succeeds limit)
    (hl : (content.length / hint.toNat + 1) * hint.toNat ≤ limit) (hlim : limit < 2 ^ 32)
    (hne : hint ≠ 0) (h : ReadSoFar content At hint p x tmp) :
    ∃ t tmp', readTurn a ops hint x tmp = (.ok t, tmp') ∧
      t.Ensures (fun x tmp => ∃ p, ReadSoFar content At hint p x tmp)
        (fun r _ => ReadAll content r) (fun x => content.length - x.fileSize.toNat) x tmp' := by
  have hle := h.le
  have hfile := h.fileSize
  have hnext := Nat.le_trans (next_size_le h.turns h.le) hl
  have hpos : 0 < hint.toNat := Nat.pos_of_ne_zero fun h0 => hne (BitVec.eq_of_toNat_eq h0)
  obtain ⟨data, fileSize, tmp', hr, hsz, hlen, hfs, hdata, hat⟩ := h.turn hd hs hnext hlim hne
  refine ⟨_, tmp', hr, ?_⟩
  split
  · next hfull =>
    rw [hfull] at hfs hdata hat
    have hless : content.length - fileSize.toNat < content.length - x.fileSize.toNat := by omega
    refine ⟨⟨p + hint.toNat, hat, by omega, (Nat.dvd_add_right h.turns).mpr (Nat.dvd_refl _), hsz,
      hfs, ?_⟩, hless⟩
    rw [← hdata, List.take_of_length_le (Nat.le_of_eq hlen)]
  · next hshort =>
    have hend : p + Min.min hint.toNat (content.length - p) = content.length := by omega
    rw [hend] at hfs hdata
    exact ⟨hfs, hdata.trans (List.take_of_length_le (by omega))⟩

theorem setWriteback_file (mode : OpenMode) (name inMode : String) (f : IndirectFile) :
    ∃ f', setWriteback mode name inMode (.file f) = .file f' ∧ f'.file = f.file := by
  rw [setWriteback]
  split
  · exact ⟨_, rfl, rfl⟩
  · exact ⟨_, rfl, rfl⟩

/-- With an empty buffer every turn fills it. -/
theorem boundedLoop_empty (ops : Fops π) (hs : a.Succeeds limit) (fuel : Nat) (x : Reading)
    (tmp : File π)
    (hx : x.size = 0) : ∃ tmp', boundedLoop (readTurn a ops 0) fuel x tmp = (.ok none, tmp') := by
  induction fuel generalizing x with
  | zero => exact ⟨tmp, rfl⟩
  | succ fuel ih =>
    obtain ⟨data, hdata⟩ := Option.isSome_iff_exists.mp (hs x.data (x.size + 0) (by
      rw [hx]
      exact Nat.zero_le _))
    obtain ⟨y, hy, hturn⟩ : ∃ y : Reading, y.size = 0 ∧
        readTurn a ops 0 x tmp = (.ok (.next y), tmp) := by
      refine ⟨⟨x.size + 0, store data x.fileSize.toNat 0 fun i => [].getD i 0,
        x.fileSize + BitVec.ofNat 32 0⟩, by simp only [hx]; rfl, ?_⟩
      rw [readTurn, hdata]
      simp only [Delivers.fread_zero]
      rfl
    obtain ⟨tmp', hl⟩ := ih y hy
    exact ⟨tmp', (boundedLoop_next hturn fuel).trans hl⟩

/-- With any other buffer the loop ends when the file does. -/
theorem boundedLoop_reads (hd : Delivers ops content At) (h0 : At tmp 0) (hs : a.Succeeds limit)
    (hl : (content.length / hint.toNat + 1) * hint.toNat ≤ limit) (hlim : limit < 2 ^ 32)
    (hne : hint ≠ 0) : ∃ r tmp', boundedLoop (readTurn a ops hint) (content.length + 1)
      ⟨0, [], 0⟩ tmp = (.ok (some r), tmp') ∧ ReadAll content r := by
  have step (x : Reading) (tmp : File π) (h : ∃ p, ReadSoFar content At hint p x tmp) :
      ∃ t tmp', readTurn a ops hint x tmp = (.ok t, tmp') ∧
        t.Ensures (fun x tmp => ∃ p, ReadSoFar content At hint p x tmp)
          (fun r _ => ReadAll content r) (fun x => content.length - x.fileSize.toNat) x tmp' := by
    obtain ⟨p, h⟩ := h
    exact readTurn_ensures hd hs hl hlim hne h
  have start : ReadSoFar content At hint 0 ⟨0, [], 0⟩ tmp :=
    ⟨h0, Nat.zero_le _, Nat.dvd_zero _, rfl, rfl, rfl⟩
  exact boundedLoop_ends step ⟨0, start⟩ (Nat.lt_succ_of_le (Nat.sub_le _ _))

/-- Reading a file indirectly ends exactly when the size hint is not 0, and then with all of its
bytes. -/
theorem openIndirect_complete_iff (atNull : String) {fopen : String → String → Option (File π)}
    (hd : Delivers ops content At) (h0 : At tmp 0) (ho : fopen name "r" = some tmp)
    (hm : OpenMode.getMode atNull inMode = some .read ∨
      OpenMode.getMode atNull inMode = some .readWrite)
    (hs : a.Succeeds limit) (hl : (content.length / hint.toNat + 1) * hint.toNat ≤ limit)
    (hlim : limit < 2 ^ 32) :
    (∃ fuel f, openIndirectSizeHint fuel atNull a ops fopen name inMode hint = some (.file f) ∧
      contents f.file = content ∧ f.file.fileSize.toNat = content.length) ↔ hint ≠ 0 := by
  obtain ⟨mode, hmode, hread⟩ : ∃ mode, OpenMode.getMode atNull inMode = some mode ∧
      (mode = .read ∨ mode = .readWrite) := by
    rcases hm with hm | hm
    · exact ⟨_, hm, .inl rfl⟩
    · exact ⟨_, hm, .inr rfl⟩
  have hna : ¬ (mode = .append ∨ mode = .readAppend) := by
    rcases hread with rfl | rfl <;> decide
  constructor
  · rintro ⟨fuel, f, hf, -⟩ rfl
    obtain ⟨tmp', hloop⟩ := boundedLoop_empty ops hs fuel ⟨0, [], 0⟩ tmp rfl
    simp only [openIndirectSizeHint, hmode, if_neg hna, if_pos hread, ho, hloop] at hf
    exact nomatch hf
  · intro hne
    obtain ⟨r, tmp', hloop, hr⟩ := boundedLoop_reads hd h0 hs hl hlim hne
    cases r with
    | ret => exact hr.elim
    | leave x =>
      obtain ⟨f, hf, hfile⟩ := setWriteback_file mode name inMode
        ⟨{ File.alloc ⟨x.data, x.fileSize⟩ with fileSize := x.fileSize }, true, none, ""⟩
      refine ⟨content.length + 1, f, ?_, ?_, ?_⟩
      · simp only [openIndirectSizeHint, hmode, if_neg hna, if_pos hread, ho, hloop, openMemory, hf]
      · rw [hfile, contents, hr.1]
        exact hr.2
      · rw [hfile, hr.1]

end

end MemoryFile

/-- A file of bytes, whose writes are complete. -/
def arrayFops : Fops (List Byte) where
  read fp n :=
    let bs := (fp.priv.drop fp.fptr.toNat).take n.toNat
    ((BitVec.ofNat 32 bs.length, bs), fp)
  write fp _ n := (n, fp)
  seek fp _ := (true, fp)

theorem arrayFops_delivers {content : List Byte} (h : content.length < 2 ^ 31) :
    Delivers arrayFops content fun fp p =>
      fp.priv = content ∧ fp.fptr.toNat = p ∧ fp.fptr = fp.vfptr ∧ p ≤ content.length where
  lined := fun ha => ha.2.2.1
  read := by
    intro fp p n ⟨hc, hp, _, hle⟩ hn
    subst hc hp
    have hlen : ((fp.priv.drop fp.fptr.toNat).take n.toNat).length =
        min n.toNat (fp.priv.length - fp.fptr.toNat) := by
      rw [List.length_take, List.length_drop]
    have hof : (BitVec.ofNat 32 ((fp.priv.drop fp.fptr.toNat).take n.toNat).length).toNat =
        ((fp.priv.drop fp.fptr.toNat).take n.toNat).length := by
      rw [BitVec.toNat_ofNat]
      exact Nat.mod_eq_of_lt (by omega)
    refine ⟨_, fp, rfl, hof, rfl, ?_, rfl, ?_⟩
    · rw [BitVec.toNat_add_of_lt (by omega)]
    · omega

theorem Allocator.upTo_succeeds (limit : Nat) : (Allocator.upTo limit).Succeeds limit := by
  intro block n hn
  simp only [upTo, if_pos hn, Option.isSome_some]

namespace MemoryFile

/-- A file of three bytes. -/
def three (_ _ : String) : Option (File (List Byte)) := some (File.alloc [1, 2, 3])

/-- Three bytes, two at a time. -/
theorem openIndirect_complete_three : ∃ fuel f,
    openIndirectSizeHint fuel "" (.upTo 4) arrayFops three "f" "r" 2 = some (.file f) ∧
      contents f.file = [1, 2, 3] ∧ f.file.fileSize.toNat = 3 := by
  have hd := arrayFops_delivers (by decide : ([1, 2, 3] : List Byte).length < 2 ^ 31)
  have hm : OpenMode.getMode "" "r" = some .read := by decide
  have ho : three "f" "r" = some (File.alloc [1, 2, 3]) := rfl
  exact (openIndirect_complete_iff "" hd ⟨rfl, rfl, rfl, by decide⟩ ho (.inl hm)
    (Allocator.upTo_succeeds 4) (by decide) (by decide)).mpr (by decide)

/-- Without a size hint the file is read for ever. -/
theorem openIndirect_never_ends : three "f" "r" = some (File.alloc [1, 2, 3]) ∧
    ∀ fuel, openIndirectSizeHint fuel "" (.upTo 4) arrayFops three "f" "r" 0 = none := by
  refine ⟨rfl, fun fuel => ?_⟩
  have hm : OpenMode.getMode "" "r" = some .read := by decide
  obtain ⟨tmp, hl⟩ := boundedLoop_empty arrayFops (Allocator.upTo_succeeds 4) fuel
    ⟨0, [], 0⟩ (File.alloc [1, 2, 3]) rfl
  have hna : ¬ (OpenMode.read = .append ∨ OpenMode.read = .readAppend) := by decide
  simp only [openIndirectSizeHint, hm, if_neg hna, three, hl, true_or, if_true]

end MemoryFile

end Cibyl
