import Cibyl.MemoryFile

namespace Cibyl
set_option autoImplicit true

/-- What `fgets` returns, and the bytes that it stores from `s` on. -/
inductive FgetsReply where
  | line (stored : List Byte)
  | null
  | threw
  deriving DecidableEq, Repr

namespace File

def newline : Byte := 10

/-- The loop with `n` more rounds allowed. `out` is what the local variable of `fgetc` holds. -/
def fgetsFrom (ops : Fops π) (out : Nat → Byte) (n : Nat) (stored : List Byte) (fp : File π) :
    FgetsReply × File π :=
  match fp.fgetc ops (out n) with
  | (.value c, fp) =>
    if fp.eof ∧ stored = [] then (.null, fp)
    else
      let c : Byte := if fp.eof then 0 else BitVec.ofInt 8 c
      if c = 0 ∨ c = newline then (.line (stored ++ [c, 0]), fp)
      else
        match n with
        | 0 => (.line (stored ++ [c, 0]), fp)
        | n + 1 => fgetsFrom ops out n (stored ++ [c]) fp
  | (_, fp) => (.threw, fp)

def fgets (ops : Fops π) (out : Nat → Byte) (size : Word) (fp : File π) : FgetsReply × File π :=
  fgetsFrom ops out (size - 1).toNat [] fp

end File

/-- The number of bytes up to and including the first newline, or one more than there are. -/
def lineLength (bs : List Byte) : Nat := bs.findIdx (fun b => b = File.newline) + 1

/-- The bytes that the loop stores when no end of file was met before, with `n` more rounds. -/
def lineStored : Nat → List Byte → List Byte
  | _, [] => [0, 0]
  | 0, b :: _ => [b, 0]
  | n + 1, b :: bs => if b = File.newline then [b, 0] else b :: lineStored n bs

/-- The number of bytes that the loop takes from the file. -/
def lineTaken : Nat → List Byte → Nat
  | _, [] => 0
  | 0, _ :: _ => 1
  | n + 1, b :: bs => if b = File.newline then 1 else lineTaken n bs + 1

theorem lineLength_cons (b : Byte) (bs : List Byte) :
    lineLength (b :: bs) = if b = File.newline then 1 else lineLength bs + 1 := by
  rw [lineLength, List.findIdx_cons]
  by_cases hb : b = File.newline
  · simp [hb]
  · simp [hb, lineLength]

/-- A newline among the first bytes ends the line. -/
theorem line_of_newline {bs : List Byte} (h : File.newline ∈ bs.take n) :
    lineStored n bs = bs.take (lineLength bs) ++ [0] ∧ lineTaken n bs = lineLength bs ∧
      lineLength bs ≤ Min.min n bs.length := by
  induction n generalizing bs with
  | zero => cases h
  | succ n ih =>
    cases bs with
    | nil => cases h
    | cons b bs =>
      rw [lineStored, lineTaken, lineLength_cons]
      by_cases hb : b = File.newline
      · rw [if_pos hb, if_pos hb, if_pos hb]
        exact ⟨rfl, rfl, by simp⟩
      · have hm : File.newline ∈ bs.take n := (List.mem_cons.mp h).resolve_left (Ne.symm hb)
        obtain ⟨hs, ht, hl⟩ := ih hm
        rw [if_neg hb, if_neg hb, if_neg hb, hs, ht, List.length_cons]
        exact ⟨rfl, rfl, by omega⟩

theorem lineLength_of_not_mem {bs : List Byte} (h : File.newline ∉ bs.take n) :
    Min.min n bs.length < lineLength bs := by
  induction n generalizing bs with
  | zero => simp [lineLength]
  | succ n ih =>
    cases bs with
    | nil => simp [lineLength]
    | cons b bs =>
      rw [List.take_succ_cons, List.mem_cons, not_or] at h
      have hrest := ih h.2
      rw [lineLength_cons, if_neg (Ne.symm h.1), List.length_cons]
      omega

/-- Where the file ends first, a second terminator follows. -/
theorem line_of_end {bs : List Byte} (h : File.newline ∉ bs.take n) (hn : bs.length ≤ n) :
    lineStored n bs = bs ++ [0, 0] ∧ lineTaken n bs = bs.length := by
  induction n generalizing bs with
  | zero =>
    cases List.eq_nil_of_length_eq_zero (Nat.le_zero.mp hn)
    exact ⟨rfl, rfl⟩
  | succ n ih =>
    cases bs with
    | nil => exact ⟨rfl, rfl⟩
    | cons b bs =>
      rw [List.take_succ_cons, List.mem_cons, not_or] at h
      obtain ⟨hs, ht⟩ := ih h.2 (Nat.le_of_succ_le_succ hn)
      rw [lineStored, lineTaken, if_neg (Ne.symm h.1), if_neg (Ne.symm h.1), hs, ht]
      exact ⟨rfl, rfl⟩

/-- Where the rounds are used up, the terminator lies after the buffer. -/
theorem line_of_full {bs : List Byte} (h : File.newline ∉ bs.take n) (hn : n < bs.length) :
    (lineStored n bs).length = n + 2 := by
  induction n generalizing bs with
  | zero =>
    cases bs with
    | nil => cases hn
    | cons b bs => rfl
  | succ n ih =>
    cases bs with
    | nil => cases hn
    | cons b bs =>
      rw [List.take_succ_cons, List.mem_cons, not_or] at h
      rw [lineStored, if_neg (Ne.symm h.1), List.length_cons, ih h.2 (Nat.lt_of_succ_lt_succ hn)]

namespace MemoryFile

/-- The bytes from the position to the end of the file. -/
def rest (fp : MemoryFile) : List Byte := (fp.priv.data.take fp.fileSize.toNat).drop fp.vfptr.toNat

/-- The number of characters that `fgets` is to take. -/
def lineCount (fp : MemoryFile) (size : Word) : Nat :=
  Min.min (size.toNat - 1) (Min.min (lineLength fp.rest) fp.rest.length)

/-- What `fgets` is to do: the next characters and a NUL, within the buffer. -/
structure GetsLine (fp : MemoryFile) (size : Word) (out : FgetsReply × MemoryFile) : Prop where
  returns : out.1 ≠ .threw
  stored : ∀ bs, out.1 = .line bs → bs.length ≤ size.toNat ∧
    fp.rest.take (fp.lineCount size) ++ [0] <+: bs
  position : out.2.vfptr.toNat = fp.vfptr.toNat + fp.lineCount size
  null : out.1 = .null ↔ 1 < size.toNat ∧ fp.rest = []

/-- A line shorter than the buffer is there, or the file ends two characters before the buffer
does, and no end of file was met before; or the position is just the end of the file. -/
def LineFits (fp : MemoryFile) (size : Word) : Prop :=
  1 < size.toNat ∧ (fp.vfptr = fp.fileSize ∨ fp.eof = false ∧ fp.rest ≠ [] ∧
    (File.newline ∈ fp.rest.take (size.toNat - 1) ∨ fp.rest.length + 2 ≤ size.toNat))

section

variable {a : Allocator} {o : Nat → Byte} {fp : MemoryFile} {out : Byte}

theorem rest_length (h : fp.fileSize.toNat ≤ fp.priv.data.length) :
    fp.rest.length = fp.fileSize.toNat - fp.vfptr.toNat := by
  rw [rest, List.length_drop, List.length_take, Nat.min_eq_left h]

/-- What a read of one character does. -/
theorem fgetc_eq (a : Allocator) (o : Nat → Byte) (fp : MemoryFile) (out : Byte) :
    fp.fgetc (fops a o) out =
      (.value ((bytesAt o fp.priv.data fp.vfptr.toNat
        (min 1 (fp.fileSize - fp.vfptr)).toNat).headD out).toInt,
        { fp with
          eof := fp.eof || decide (fp.fileSize.toNat ≤ fp.vfptr.toNat)
          fptr := fp.vfptr + min 1 (fp.fileSize - fp.vfptr)
          vfptr := fp.vfptr + min 1 (fp.fileSize - fp.vfptr) }) := by
  rw [File.fgetc, File.fread, if_neg (by decide), applySeek_eq]
  rfl

/-- A character is read. -/
theorem fgetc_cons (hfit : fp.fileSize.toNat ≤ fp.priv.data.length) (hr : fp.rest = b :: bs) :
    ∃ fp' : MemoryFile, fp.fgetc (fops a o) out = (.value b.toInt, fp') ∧ fp'.eof = fp.eof ∧
      fp'.rest = bs ∧ fp'.vfptr.toNat = fp.vfptr.toNat + 1 ∧
      fp'.fileSize.toNat ≤ fp'.priv.data.length ∧ fp'.vfptr.toNat ≤ fp'.fileSize.toNat := by
  have hlen := rest_length hfit
  rw [hr, List.length_cons] at hlen
  have hlt : fp.vfptr.toNat < fp.fileSize.toNat := by omega
  have hone : (min 1 (fp.fileSize - fp.vfptr)) = 1 := by
    have h1 : (1 : Word).toNat = 1 := rfl
    apply BitVec.eq_of_toNat_eq
    rw [min_toNat, BitVec.toNat_sub_of_le (Nat.le_of_lt hlt), h1]
    omega
  have hadd : (fp.vfptr + 1).toNat = fp.vfptr.toNat + 1 :=
    BitVec.toNat_add_of_lt (by have := fp.fileSize.isLt; change _ + 1 < _; omega)
  have hbyte : bytesAt o fp.priv.data fp.vfptr.toNat 1 = [b] := by
    rw [bytesAt_eq o hlt hfit, ← rest, hr]
    rfl
  refine ⟨{ fp with
    eof := fp.eof || decide (fp.fileSize.toNat ≤ fp.vfptr.toNat)
    fptr := fp.vfptr + 1
    vfptr := fp.vfptr + 1 }, ?_, ?_, ?_, hadd, hfit, hadd ▸ hlt⟩
  · rw [fgetc_eq, hone]
    change (FileReply.value ((bytesAt o fp.priv.data fp.vfptr.toNat 1).headD out).toInt, _) = _
    rw [hbyte]
    rfl
  · change (fp.eof || decide (fp.fileSize.toNat ≤ fp.vfptr.toNat)) = fp.eof
    rw [decide_eq_false (Nat.not_le.mpr hlt), Bool.or_false]
  · change (fp.priv.data.take fp.fileSize.toNat).drop (fp.vfptr + 1).toNat = bs
    rw [hadd, ← List.drop_drop, ← rest, hr]
    rfl

/-- At the end of the file the flag is set. -/
theorem fgetc_nil (hfit : fp.fileSize.toNat ≤ fp.priv.data.length) (hr : fp.rest = []) :
    ∃ (c : Int) (fp' : MemoryFile), fp.fgetc (fops a o) out = (.value c, fp') ∧ fp'.eof = true ∧
      (fp'.vfptr = fp.vfptr ↔ fp.vfptr = fp.fileSize) := by
  have hlen := rest_length hfit
  rw [hr, List.length_nil] at hlen
  have hle : fp.fileSize.toNat ≤ fp.vfptr.toNat := by omega
  refine ⟨_, _, fgetc_eq a o fp out, ?_, ?_⟩
  · change (fp.eof || decide (fp.fileSize.toNat ≤ fp.vfptr.toNat)) = true
    rw [decide_eq_true hle, Bool.or_true]
  · change fp.vfptr + min 1 (fp.fileSize - fp.vfptr) = fp.vfptr ↔ _
    have h1 : (1 : Word).toNat = 1 := rfl
    have hzero : min 1 (fp.fileSize - fp.vfptr) = 0 ↔ fp.fileSize - fp.vfptr = 0 := by
      rw [← BitVec.toNat_inj, ← BitVec.toNat_inj, min_toNat, h1]
      change _ = 0 ↔ _ = 0
      omega
    rw [BitVec.add_comm, BitVec.add_left_eq_self]
    refine hzero.trans (BitVec.sub_eq_iff_eq_add.trans ?_)
    exact ⟨fun h => (h.trans (BitVec.zero_add _)).symm,
      fun h => h.symm.trans (BitVec.zero_add _).symm⟩

/-- A round of the loop at the end of the file, once a character is stored. -/
theorem fgetsFrom_nil (n : Nat) (out : Nat → Byte)
    (hfit : fp.fileSize.toNat ≤ fp.priv.data.length) (hpos : fp.vfptr.toNat ≤ fp.fileSize.toNat)
    (hr : fp.rest = []) (hs : stored ≠ []) :
    (File.fgetsFrom (fops a o) out n stored fp).1 = .line (stored ++ [0, 0]) ∧
      (File.fgetsFrom (fops a o) out n stored fp).2.vfptr = fp.vfptr := by
  obtain ⟨c, fp', hg, he, hv⟩ := fgetc_nil (a := a) (o := o) hfit hr
  have hlen := rest_length hfit
  rw [hr, List.length_nil] at hlen
  have hend : fp.vfptr = fp.fileSize := BitVec.eq_of_toNat_eq (by omega)
  rw [File.fgetsFrom.eq_def, hg]
  simp only [he, hs, and_false, if_false, if_true, true_or]
  exact ⟨trivial, hv.mpr hend⟩

/-- A round of the loop that meets a character. -/
theorem fgetsFrom_cons (n : Nat) (stored : List Byte) (out : Nat → Byte)
    (hfit : fp.fileSize.toNat ≤ fp.priv.data.length) (heof : fp.eof = false)
    (hr : fp.rest = b :: bs) (hb : b ≠ 0) :
    ∃ fp' : MemoryFile, fp'.eof = false ∧ fp'.rest = bs ∧ fp'.vfptr.toNat = fp.vfptr.toNat + 1 ∧
      fp'.fileSize.toNat ≤ fp'.priv.data.length ∧ fp'.vfptr.toNat ≤ fp'.fileSize.toNat ∧
      File.fgetsFrom (fops a o) out n stored fp =
        if b = File.newline then (.line (stored ++ [b, 0]), fp')
        else match n with
          | 0 => (.line (stored ++ [b, 0]), fp')
          | n + 1 => File.fgetsFrom (fops a o) out n (stored ++ [b]) fp' := by
  obtain ⟨fp', hg, he, hr', hv, hfit', hpos'⟩ :=
    fgetc_cons (a := a) (o := o) hfit hr
  rw [heof] at he
  refine ⟨fp', he, hr', hv, hfit', hpos', ?_⟩
  rw [File.fgetsFrom.eq_def, hg]
  simp only [he, BitVec.ofInt_toInt, hb, false_or, Bool.false_eq_true, false_and, if_false]

/-- From a position in the file, with no end of file met before, the loop stores the line. -/
theorem fgetsFrom_eq (out : Nat → Byte) (hfit : fp.fileSize.toNat ≤ fp.priv.data.length)
    (hpos : fp.vfptr.toNat ≤ fp.fileSize.toNat) (heof : fp.eof = false) (hnul : 0 ∉ fp.rest)
    (hs : stored ≠ [] ∨ fp.rest ≠ []) :
    (File.fgetsFrom (fops a o) out n stored fp).1 = .line (stored ++ lineStored n fp.rest) ∧
      (File.fgetsFrom (fops a o) out n stored fp).2.vfptr.toNat =
        fp.vfptr.toNat + lineTaken n fp.rest := by
  induction n generalizing stored fp with
  | zero =>
    cases hr : fp.rest with
    | nil =>
      obtain ⟨hl, hv⟩ := fgetsFrom_nil (a := a) (o := o) 0 out hfit hpos hr
        (hs.resolve_right (not_not_intro hr))
      exact ⟨hl, congrArg BitVec.toNat hv⟩
    | cons b bs =>
      rw [hr, List.mem_cons, not_or] at hnul
      obtain ⟨fp', -, -, hv, -, -, hstep⟩ := fgetsFrom_cons (a := a) (o := o) 0 stored out hfit
        heof hr (Ne.symm hnul.1)
      rw [hstep, lineStored, lineTaken]
      split <;> exact ⟨rfl, hv⟩
  | succ n ih =>
    cases hr : fp.rest with
    | nil =>
      obtain ⟨hl, hv⟩ := fgetsFrom_nil (a := a) (o := o) (n + 1) out hfit hpos hr
        (hs.resolve_right (not_not_intro hr))
      exact ⟨hl, congrArg BitVec.toNat hv⟩
    | cons b bs =>
      rw [hr, List.mem_cons, not_or] at hnul
      obtain ⟨fp', he, hr', hv, hfit', hpos', hstep⟩ := fgetsFrom_cons (a := a) (o := o) (n + 1)
        stored out hfit heof hr (Ne.symm hnul.1)
      rw [hstep, lineStored, lineTaken]
      by_cases hn : b = File.newline
      · rw [if_pos hn, if_pos hn, if_pos hn]
        exact ⟨rfl, hv⟩
      · obtain ⟨hl, hp⟩ := ih hfit' hpos' he (hr'.symm ▸ hnul.2)
          (.inl (List.concat_ne_nil b stored))
        rw [if_neg hn, if_neg hn, if_neg hn]
        dsimp only
        rw [hl, hp, hv, hr', List.append_assoc, List.singleton_append]
        exact ⟨rfl, by omega⟩

/-- With the end of file met before, or just now, `fgets` returns no line. -/
theorem fgets_null (out : Nat → Byte) (size : Word)
    (hfit : fp.fileSize.toNat ≤ fp.priv.data.length) (h : fp.eof = true ∨ fp.rest = []) :
    (File.fgets (fops a o) out size fp).1 = .null ∧
      (fp.rest = [] → ((File.fgets (fops a o) out size fp).2.vfptr = fp.vfptr ↔
        fp.vfptr = fp.fileSize)) := by
  rw [File.fgets, File.fgetsFrom.eq_def]
  cases hr : fp.rest with
  | nil =>
    obtain ⟨c, fp', hg, he, hv⟩ :=
      fgetc_nil (a := a) (o := o) hfit hr
    rw [hg]
    simp only [he, and_self, if_true]
    exact ⟨trivial, fun _ => hv⟩
  | cons b bs =>
    obtain ⟨fp', hg, he, -⟩ :=
      fgetc_cons (a := a) (o := o) hfit hr
    rw [h.resolve_right (by rw [hr]; exact List.cons_ne_nil b bs)] at he
    rw [hg]
    simp only [he, and_self, if_true]
    exact ⟨trivial, nofun⟩

theorem fgets_null_iff {out : FgetsReply × MemoryFile} (hout : out.1 = .null)
    (hv : fp.rest = [] → (out.2.vfptr = fp.vfptr ↔ fp.vfptr = fp.fileSize)) :
    GetsLine fp size out ↔ 1 < size.toNat ∧ fp.rest = [] ∧ fp.vfptr = fp.fileSize := by
  have hcount (hr : fp.rest = []) : fp.lineCount size = 0 := by
    rw [lineCount, hr, List.length_nil, Nat.min_zero, Nat.min_zero]
  constructor
  · intro h
    obtain ⟨hsize, hr⟩ := h.null.mp hout
    refine ⟨hsize, hr, (hv hr).mp (BitVec.eq_of_toNat_eq ?_)⟩
    rw [h.position, hcount hr, Nat.add_zero]
  · rintro ⟨hsize, hr, hend⟩
    refine ⟨by rw [hout]; exact nofun, fun bs hbs => ?_, ?_, ?_⟩
    · rw [hout] at hbs
      cases hbs
    · rw [(hv hr).mpr hend, hcount hr, Nat.add_zero]
    · exact ⟨fun _ => ⟨hsize, hr⟩, fun _ => hout⟩

theorem fgets_stored_iff {out : FgetsReply × MemoryFile} (hr : fp.rest ≠ [])
    (hsize : 1 ≤ size.toNat) (hout : out.1 = .line (lineStored (size.toNat - 1) fp.rest))
    (hv : out.2.vfptr.toNat = fp.vfptr.toNat + lineTaken (size.toNat - 1) fp.rest) :
    GetsLine fp size out ↔ File.newline ∈ fp.rest.take (size.toNat - 1) ∨
      fp.rest.length + 2 ≤ size.toNat := by
  have hnull : out.1 = .null ↔ 1 < size.toNat ∧ fp.rest = [] := by
    rw [hout]
    exact ⟨nofun, fun h => (hr h.2).elim⟩
  have hreturns : out.1 ≠ .threw := by
    rw [hout]
    exact nofun
  by_cases hn : File.newline ∈ fp.rest.take (size.toNat - 1)
  · obtain ⟨hs, ht, hl⟩ := line_of_newline hn
    have hcount : fp.lineCount size = lineLength fp.rest := by
      rw [lineCount]
      omega
    refine ⟨fun _ => .inl hn, fun _ => ⟨hreturns, fun bs hbs => ?_, ?_, hnull⟩⟩
    · cases hout.symm.trans hbs
      rw [hs, hcount, List.length_append, List.length_take, List.length_singleton]
      exact ⟨by omega, List.prefix_rfl⟩
    · rw [hv, ht, hcount]
  · have hlong := lineLength_of_not_mem hn
    by_cases hend : fp.rest.length ≤ size.toNat - 1
    · obtain ⟨hs, ht⟩ := line_of_end hn hend
      have hcount : fp.lineCount size = fp.rest.length := by
        rw [lineCount]
        omega
      have hlen : (lineStored (size.toNat - 1) fp.rest).length = fp.rest.length + 2 := by
        rw [hs, List.length_append]
        rfl
      constructor
      · intro h
        have hle := (h.stored _ hout).1
        rw [hlen] at hle
        exact .inr hle
      · intro h
        refine ⟨hreturns, fun bs hbs => ?_, by rw [hv, ht, hcount], hnull⟩
        cases hout.symm.trans hbs
        rw [hlen, hs, hcount, List.take_length]
        exact ⟨h.resolve_left hn, (List.prefix_append_right_inj _).mpr (by simp)⟩
    · have hlen := line_of_full hn (Nat.lt_of_not_le hend)
      constructor
      · intro h
        have hle := (h.stored _ hout).1
        omega
      · intro h
        have hle := h.resolve_left hn
        omega

end

/-- `fgets` stores the next line within its buffer just where the line fits. -/
theorem fgets_line_iff (a : Allocator) (o : Nat → Byte) (out : Nat → Byte) (fp : MemoryFile)
    (size : Word) (hfit : fp.fileSize.toNat ≤ fp.priv.data.length) (hnul : 0 ∉ fp.rest)
    (hsize : 1 ≤ size.toInt) :
    GetsLine fp size (File.fgets (fops a o) out size fp) ↔ LineFits fp size := by
  have hone : 1 ≤ size.toNat := by
    have hlt := size.isLt
    rw [BitVec.toInt_eq_toNat_cond] at hsize
    split at hsize <;> omega
  have hlen := rest_length hfit
  by_cases hr : fp.rest = []
  · obtain ⟨hout, hv⟩ := fgets_null (a := a) (o := o) out size hfit (.inr hr)
    rw [fgets_null_iff hout hv, LineFits]
    exact ⟨fun h => ⟨h.1, .inl h.2.2⟩,
      fun h => ⟨h.1, hr, h.2.resolve_right fun h => h.2.1 hr⟩⟩
  · have hend : fp.vfptr ≠ fp.fileSize := by
      intro he
      rw [he, Nat.sub_self] at hlen
      exact hr (List.eq_nil_of_length_eq_zero hlen)
    cases he : fp.eof with
    | true =>
      obtain ⟨hout, hv⟩ := fgets_null (a := a) (o := o) out size hfit (.inl he)
      rw [fgets_null_iff hout hv, LineFits, he]
      exact ⟨fun h => (hr h.2.1).elim, fun h => h.2.elim (fun h => (hend h).elim) nofun⟩
    | false =>
      have hpos : fp.vfptr.toNat ≤ fp.fileSize.toNat := by
        have := List.length_pos_iff.mpr hr
        omega
      have hsub : (size - 1).toNat = size.toNat - 1 := BitVec.toNat_sub_of_le hone
      obtain ⟨hout, hv⟩ := fgetsFrom_eq (a := a) (o := o) (n := (size - 1).toNat)
        out hfit hpos he hnul (.inr hr)
      rw [hsub, List.nil_append] at hout
      rw [hsub] at hv
      rw [File.fgets, hsub, fgets_stored_iff hr hone hout hv, LineFits, he]
      refine ⟨fun h => ⟨?_, .inr ⟨rfl, hr, h⟩⟩, fun h => (h.2.resolve_left hend).2.2⟩
      rcases h with h | h
      · have := List.length_pos_of_mem h
        rw [List.length_take] at this
        omega
      · omega

/-- A line as long as the buffer is stored whole, with its terminator after the buffer. -/
theorem fgets_overrun :
    let a : Allocator := ⟨fun _ _ => none, nofun, nofun⟩
    let fp := openData [97, 98, 10]
    (File.fgets (fops a fun _ => 0) (fun _ => 0) 3 fp).1 = .line [97, 98, 10, 0] ∧
      ¬ GetsLine fp 3 (File.fgets (fops a fun _ => 0) (fun _ => 0) 3 fp) := by
  have hpos : (openData [97, 98, 10]).vfptr.toNat ≤ (openData [97, 98, 10]).fileSize.toNat := by
    decide
  have hstart : ([] : List Byte) ≠ [] ∨ (openData [97, 98, 10]).rest ≠ [] := .inr (by decide)
  have hout := (fgetsFrom_eq (a := ⟨fun _ _ => none, nofun, nofun⟩) (o := fun _ => 0)
    (n := 2) (fun _ => 0) (by decide) hpos rfl (by decide) hstart).1
  exact ⟨hout, fun h => absurd (h.stored _ hout).1 (by decide)⟩

/-- The buffer of a line that fits. -/
theorem fgets_line_iff_four :
    let a : Allocator := ⟨fun _ _ => none, nofun, nofun⟩
    GetsLine (openData [97, 98, 10]) 4
        (File.fgets (fops a fun _ => 0) (fun _ => 0) 4 (openData [97, 98, 10])) ↔
      LineFits (openData [97, 98, 10]) 4 :=
  fgets_line_iff _ _ _ _ _ (by decide) (by decide) (by decide)

end MemoryFile

end Cibyl
