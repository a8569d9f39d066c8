import Cibyl.SyscallDatabase
import Mathlib.Data.List.Forall2
import Mathlib.Tactic.Ring

namespace Cibyl.SyscallDatabase
set_option autoImplicit true

open WordFile (Format CString)
open WordFile.Format (Words words_append words_get packAll_words)

namespace StringTable

/-- Each known string stands at its offset, and new strings go behind the last one. -/
structure Valid (t : StringTable) : Prop where
  length : t.bytes.length = t.offs
  placed : ∀ s offs, t.byContents.lookup s = some offs → CString.At t.bytes offs s

theorem bytes_add (t : StringTable) (s : CString) :
    (t.add s).bytes = t.bytes ++ s.terminated := by
  rw [add, bytes, List.flatMap_append, List.flatMap_singleton]
  rfl

theorem empty_valid : empty.Valid := ⟨rfl, by intro s offs h; cases h⟩

end StringTable

/-- `m` only adds to the table, and its result is right for every table that begins with the one
it leaves. -/
def Stores (m : StateM StringTable α) (P : α → List UInt8 → Prop) : Prop :=
  ∀ t : StringTable, t.Valid → (m t).2.Valid ∧ t.bytes <+: (m t).2.bytes ∧
    ∀ bs, (m t).2.bytes <+: bs → P (m t).1 bs

namespace Stores

theorem pure {a : α} (h : ∀ bs, P a bs) : Stores (Pure.pure a) P :=
  fun _ ht => ⟨ht, List.prefix_rfl, fun bs _ => h bs⟩

theorem bind {m : StateM StringTable α} {k : α → StateM StringTable β} (hm : Stores m P)
    (hk : ∀ a, Stores (k a) (fun b bs => P a bs → Q b bs)) : Stores (m >>= k) Q := by
  intro t ht
  obtain ⟨hv, hp, ha⟩ := hm t ht
  obtain ⟨hv', hp', hb⟩ := hk (m t).1 (m t).2 hv
  exact ⟨hv', hp.trans hp', fun bs h => hb bs h (ha bs (hp'.trans h))⟩

end Stores

theorem addStr_stores (s : Option CString) :
    Stores (addStr s) (fun offs bs => CString.At bs offs (s.getD .empty)) := by
  intro t ht
  rw [addStr]
  generalize s.getD .empty = s
  cases h : t.byContents.lookup s with
  | some offs => exact ⟨ht, List.prefix_rfl, fun bs hb => (ht.placed s offs h).mono hb⟩
  | none =>
    have hb := t.bytes_add s
    have hp : t.bytes <+: (t.add s).bytes := hb ▸ List.prefix_append ..
    have hat : CString.At (t.add s).bytes t.offs s := by
      rw [CString.At, hb, ← ht.length]
      exact ⟨[], by rw [List.append_nil, List.drop_left]⟩
    refine ⟨⟨?_, ?_⟩, hp, fun bs => hat.mono⟩
    · exact hb ▸ by rw [List.length_append, ht.length, CString.terminated_length]; rfl
    · intro s' offs hl
      change List.lookup s' ((s, t.offs) :: t.byContents) = some offs at hl
      rw [List.lookup_cons] at hl
      split at hl
      · next he =>
        cases hl
        exact eq_of_beq he ▸ hat
      · exact (ht.placed s' offs hl).mono hp

/-- The record of an argument that a reader should find. -/
def Arg.entry (arg : Arg) : DbArg :=
  ⟨if arg.objectReference then 1 else 0, arg.javaType.getD .empty, arg.type, arg.name⟩

namespace Function

/-- The record of a function that a reader should find. -/
def entry (user : Nat) (fn : Function) : DbEntry where
  nr := fn.nr
  returns := encodeReturnType fn
  nrArgs := fn.getNrArgs
  qualifier := encodeQualifier fn
  name := fn.name
  javaClass := fn.javaClass.getD .empty
  javaMethod := fn.javaMethod.getD .empty
  set := fn.syscallSet
  returnType := fn.javaReturnType
  args := fn.entryArgs.map Arg.entry
  user := user

theorem entryArgs_length (fn : Function) : fn.entryArgs.length = fn.getNrArgs := by
  by_cases h : fn.getNrArgs = 0
  · rw [entryArgs, if_neg (not_not.mpr h), h]
    rfl
  · rw [entryArgs, if_pos h]
    rw [getNrArgs] at h ⊢
    split
    · next ha =>
      rw [ha] at h ⊢
      split
      · next hv => exact absurd (if_pos hv) h
      · rfl
    · rfl

end Function

/-- The words written for an argument, with its strings in the table. -/
def ArgAt (bs : List UInt8) (arg : Arg) (ws : List Nat) : Prop :=
  ∃ javaType type name,
    ws = [0, (if arg.objectReference then 1 else 0) <<< 24 ||| javaType, 0 <<< 24 ||| type, name] ∧
      CString.At bs javaType (arg.javaType.getD .empty) ∧ CString.At bs type arg.type ∧
      CString.At bs name arg.name

/-- The words written for a function and its arguments, with their strings in the table. -/
def ItemAt (bs : List UInt8) (item : Function) (ws : List Nat) (args : List (List Nat)) : Prop :=
  (∃ name javaClass javaMethod set returnType,
    ws = [item.nr, encodeReturnType item, item.getNrArgs, encodeQualifier item, name, javaClass,
      javaMethod, set, returnType] ∧
      CString.At bs name item.name ∧ CString.At bs javaClass (item.javaClass.getD .empty) ∧
      CString.At bs javaMethod (item.javaMethod.getD .empty) ∧ CString.At bs set item.syscallSet ∧
      CString.At bs returnType item.javaReturnType) ∧
    List.Forall₂ (ArgAt bs) item.entryArgs args

inductive ItemsAt (bs : List UInt8) :
    List Function → List (List Nat) → List (List Nat) → Prop where
  | nil : ItemsAt bs [] [] []
  | cons (h : ItemAt bs item ws as) (hs : ItemsAt bs items out args) :
    ItemsAt bs (item :: items) (ws :: out) (as ++ args)

theorem encodeArg_stores (arg : Arg) : Stores (encodeArg arg) (fun ws bs => ArgAt bs arg ws) := by
  have hj : Stores (encodeArgumentJavaType arg) (fun w bs => ∃ javaType,
      w = (if arg.objectReference then 1 else 0) <<< 24 ||| javaType ∧
        CString.At bs javaType (arg.javaType.getD .empty)) :=
    (addStr_stores _).bind fun offs => .pure fun bs h => ⟨offs, rfl, h⟩
  have ht : Stores (encodeArgumentType arg) (fun w bs => ∃ type, w = 0 <<< 24 ||| type ∧
      CString.At bs type arg.type) :=
    (addStr_stores _).bind fun offs => .pure fun bs h => ⟨offs, rfl, h⟩
  refine hj.bind fun _ => ht.bind fun _ => (addStr_stores _).bind fun name => .pure ?_
  rintro bs hn ⟨type, rfl, ht⟩ ⟨javaType, rfl, hj⟩
  exact ⟨javaType, type, name, rfl, hj, ht, hn⟩

theorem encodeArgs_stores (args : List Arg) :
    Stores (encodeArgs args) (fun ws bs => List.Forall₂ (ArgAt bs) args ws) := by
  induction args with
  | nil => exact .pure fun bs => .nil
  | cons arg args ih =>
    exact (encodeArg_stores arg).bind fun _ => ih.bind fun _ => .pure fun bs has ha => .cons ha has

theorem encodeItem_stores (item : Function) :
    Stores (encodeItem item) (fun p bs => ItemAt bs item p.1 p.2) := by
  refine (addStr_stores _).bind fun name => (addStr_stores _).bind fun javaClass =>
    (addStr_stores _).bind fun javaMethod => (addStr_stores _).bind fun set =>
    (addStr_stores _).bind fun returnType => (encodeArgs_stores _).bind fun args => .pure ?_
  intro bs ha hr hs hm hc hn
  exact ⟨⟨name, javaClass, javaMethod, set, returnType, rfl, hn, hc, hm, hs, hr⟩, ha⟩

theorem encodeItems_stores (items : List Function) :
    Stores (encodeItems items) (fun p bs => ItemsAt bs items p.1 p.2) := by
  induction items with
  | nil => exact .pure fun bs => .nil
  | cons item items ih =>
    exact (encodeItem_stores item).bind fun _ => ih.bind fun _ => .pure fun bs hs h => .cons h hs

/-- The offsets are those of the strings. -/
def StrsAt (bs : List UInt8) (strs : List CString) (ws : List Nat) : Prop :=
  List.Forall₂ (fun s offs => CString.At bs offs s) strs ws

theorem addStrs_stores (strs : List CString) :
    Stores (addStrs strs) (fun ws bs => StrsAt bs strs ws) := by
  induction strs with
  | nil => exact .pure fun bs => .nil
  | cons s strs ih =>
    exact (addStr_stores _).bind fun _ => ih.bind fun _ => .pure fun bs hs h => .cons h hs

theorem Generator.encode_stores (g : Generator) : Stores g.encode (fun p bs =>
    ItemsAt bs g.functions p.1 p.2.1 ∧ StrsAt bs (g.dirs.map g.abspath) p.2.2.1 ∧
      StrsAt bs g.syscallSets p.2.2.2) :=
  (encodeItems_stores _).bind fun _ => (addStrs_stores _).bind fun _ =>
    (addStrs_stores _).bind fun _ => .pure fun _ hs hd hi => ⟨hi, hd, hs⟩

theorem ArgAt.length (h : ArgAt bs arg ws) : ws.length = 4 := by
  obtain ⟨_, _, _, rfl, -⟩ := h
  rfl

theorem argsAt_length (h : List.Forall₂ (ArgAt bs) args as) :
    as.flatten.length = 4 * args.length := by
  induction h with
  | nil => rfl
  | cons ha _ ih =>
    rw [List.flatten_cons, List.length_append, ha.length, ih, List.length_cons, Nat.mul_succ,
      Nat.add_comm]

/-- The flag in the top byte and the offset do not get into each other's way. -/
theorem flag_offset (h : offs < 2 ^ 24) (ht : t < 2 ^ 8) :
    (t <<< 24 ||| offs) &&& 0x00ffffff = offs ∧
      ((t <<< 24 ||| offs) &&& 0xff000000) >>> 24 = t := by
  have hand (n : Nat) : n &&& 0x00ffffff = n % 2 ^ 24 := Nat.and_two_pow_sub_one_eq_mod n 24
  have hhigh (n : Nat) : (n &&& 0xff000000) >>> 24 = (n >>> 24) % 2 ^ 8 := by
    rw [Nat.shiftRight_and_distrib]
    exact Nat.and_two_pow_sub_one_eq_mod _ 8
  rw [hand, hhigh, Nat.shiftLeft_eq, Nat.mul_comm, ← Nat.two_pow_add_eq_or_of_lt h,
    Nat.shiftRight_eq_div_pow, Nat.mul_add_mod, Nat.mod_eq_of_lt h,
    Nat.mul_add_div (Nat.two_pow_pos 24), Nat.div_eq_of_lt h, Nat.add_zero, Nat.mod_eq_of_lt ht]
  exact ⟨rfl, rfl⟩

section

variable {f : Format} {data bs : List UInt8} {strtab : Nat}
  (hs : ∀ offs s, CString.At bs offs s →
    CString.read data (strtab + offs) = some s ∧ offs < 2 ^ 24)

include hs

theorem readStrings_at (h : StrsAt bs strs ws) (hw : f.Words data (f.size * idx) ws) :
    readStrings f data strtab idx strs.length = some strs := by
  induction h generalizing idx with
  | nil => rfl
  | cons ha _ ih =>
    obtain ⟨hr, hw⟩ := hw
    rw [List.length_cons, readStrings, getSyscallFileLong, hr, ih hw]
    simp only [Option.bind_eq_bind, Option.bind_some, (hs _ _ ha).1]
    rfl

theorem readArg_at (h : ArgAt bs arg ws) (hw : f.Words data pos ws) :
    readArg f data strtab pos = some arg.entry := by
  obtain ⟨javaType, type, name, rfl, hj, ht, hn⟩ := h
  obtain ⟨-, hj', ht', hn', -⟩ := hw
  obtain ⟨hj, hjo⟩ := hs _ _ hj
  obtain ⟨ht, hto⟩ := hs _ _ ht
  have hflag : (if arg.objectReference then 1 else 0) < 2 ^ 8 := by
    split <;> decide
  obtain ⟨hoffs, hflags⟩ := flag_offset hjo hflag
  rw [readArg, hj', ht', hn']
  simp only [Option.bind_eq_bind, Option.bind_some, hoffs, hflags,
    (flag_offset hto (Nat.two_pow_pos 8)).1, hj, ht, (hs _ _ hn).1]
  rfl

theorem readArgs_at (h : List.Forall₂ (ArgAt bs) args as) (hw : f.Words data pos as.flatten) :
    readArgs f data strtab pos args.length = some (args.map Arg.entry) := by
  induction h generalizing pos with
  | nil => rfl
  | cons ha _ ih =>
    obtain ⟨hw, hw'⟩ := words_append.mp hw
    rw [ha.length] at hw'
    rw [List.length_cons, readArgs, readArg_at hs ha hw, ih hw']
    rfl

theorem readEntry_at (h : ItemAt bs item ws as)
    (hw : f.Words data (f.size * idx) (ws ++ [arg_count, 0]))
    (ha : f.Words data (args_start + arg_count) as.flatten) (user : Nat) :
    readEntry f data args_start strtab user idx = some (item.entry user) := by
  obtain ⟨⟨name, javaClass, javaMethod, set, returnType, rfl, hn, hc, hm, hs', hr⟩, has⟩ := h
  have hargs := readArgs_at hs has ha
  rw [Function.entryArgs_length] at hargs
  have hword {k w : Nat} (hk : _ = some w) : getSyscallFileLong f data (idx + k) = some w :=
    words_get hw hk
  have h₀ : getSyscallFileLong f data idx = some item.nr := hw.1
  rw [readEntry, h₀, hword rfl, hword rfl, hword rfl, hword rfl, hword rfl, hword rfl, hword rfl,
    hword rfl, hword rfl]
  simp only [Option.bind_eq_bind, Option.bind_some, (hs _ _ hn).1, (hs _ _ hc).1, (hs _ _ hm).1,
    (hs _ _ hs').1, (hs _ _ hr).1, hargs]
  rfl

/-- The loop over the entries inserts the record of each function. -/
theorem readEntries_at (h : ItemsAt bs items out args)
    (hw : f.Words data (f.size * idx) (writeOut f.size arg_count items out))
    (ha : f.Words data (args_start + arg_count) args.flatten) (user : Nat) (t : Tables) :
    readEntries f data args_start strtab user idx items.length t =
      some (items.foldl (fun t item => t.insert (item.entry user)) t) := by
  induction h generalizing idx arg_count t with
  | nil => rfl
  | @cons item ws as items out args hi _ ih =>
    rw [writeOut] at hw
    obtain ⟨hw, hw'⟩ := words_append.mp hw
    rw [List.flatten_append] at ha
    obtain ⟨ha, ha'⟩ := words_append.mp ha
    have hl : (ws ++ [arg_count, 0]).length = 11 := by
      obtain ⟨⟨_, _, _, _, _, rfl, -⟩, -⟩ := hi
      rfl
    have hla : args_start + arg_count + f.size * as.flatten.length =
        args_start + (arg_count + f.size * 4 * item.getNrArgs) := by
      rw [argsAt_length hi.2, Function.entryArgs_length, Nat.add_assoc, Nat.mul_assoc]
    rw [hl, ← Nat.mul_add] at hw'
    rw [hla] at ha'
    rw [List.length_cons, readEntries, readEntry_at hs hi hw ha user]
    exact ih hw' ha' _

end

theorem foldl_insert_other {items : List Function} (h : name ∉ items.map Function.name) (user : Nat)
    (t : Tables) :
    (items.foldl (fun t item => t.insert (item.entry user)) t).syscall_db_table name =
      t.syscall_db_table name := by
  induction items generalizing t with
  | nil => rfl
  | cons item items ih =>
    rw [List.map_cons, List.mem_cons, not_or] at h
    rw [List.foldl_cons, ih h.2]
    exact if_neg h.1

theorem foldl_insert_mem {items : List Function} (hn : (items.map Function.name).Nodup)
    (h : fn ∈ items) (user : Nat) (t : Tables) :
    (items.foldl (fun t item => t.insert (item.entry user)) t).syscall_db_table fn.name =
      some (fn.entry user) := by
  induction items generalizing t with
  | nil => cases h
  | cons item items ih =>
    rw [List.map_cons, List.nodup_cons] at hn
    rw [List.foldl_cons]
    rcases List.mem_cons.mp h with rfl | h
    · rw [foldl_insert_other hn.1]
      exact if_pos rfl
    · exact ih hn.2 h _

theorem foldl_insert_dirs (items : List Function) (user : Nat) (t : Tables) :
    (items.foldl (fun t item => t.insert (item.entry user)) t).syscall_dirs = t.syscall_dirs ∧
      (items.foldl (fun t item => t.insert (item.entry user)) t).syscall_sets = t.syscall_sets := by
  induction items generalizing t with
  | nil => exact ⟨rfl, rfl⟩
  | cons item items ih => exact ih (t.insert (item.entry user))

theorem ItemAt.length (h : ItemAt bs item ws as) : ws.length = 9 := by
  obtain ⟨⟨_, _, _, _, _, rfl, -⟩, -⟩ := h
  rfl

theorem ItemsAt.lengths (h : ItemsAt bs items out args) (sz arg_count : Nat) :
    out.length = items.length ∧ (writeOut sz arg_count items out).length = 11 * items.length ∧
      args.flatten.length = 4 * args.length := by
  induction h generalizing arg_count with
  | nil => exact ⟨rfl, rfl, rfl⟩
  | @cons item ws as items out args hi _ ih =>
    obtain ⟨ho, hw, ha⟩ := ih (arg_count + sz * 4 * item.getNrArgs)
    refine ⟨congrArg Nat.succ ho, ?_, ?_⟩
    · rw [writeOut, List.length_append, List.length_append, hi.length, hw]
      change 11 + 11 * items.length = 11 * (items.length + 1)
      omega
    · rw [List.flatten_append, List.length_append, argsAt_length hi.2, hi.2.length_eq, ha,
        List.length_append, Nat.mul_add]

namespace Generator

/-- The tables with the directories, the sets and a record of each function. -/
def addTo (g : Generator) (t : Tables) : Tables :=
  g.functions.foldl (fun t' item => t'.insert (item.entry t.syscall_dirs.length))
    { t with
      syscall_dirs := t.syscall_dirs ++ g.dirs.map g.abspath
      syscall_sets := t.syscall_sets ++ g.syscallSets }

/-- The reader finds every part of the file where `run` has put it. -/
theorem readSyscallDatabase_run (g : Generator) (f : Format) (hrun : g.run f = some file)
    (hsize : g.strtab.bytes.length < 2 ^ 24) (t : Tables) :
    readSyscallDatabase f file t = some (g.addTo t) := by
  obtain ⟨-, -, hat⟩ := g.encode_stores .empty StringTable.empty_valid
  obtain ⟨hi, hd, hss⟩ := hat _ List.prefix_rfl
  rw [strtab] at hsize
  rw [run] at hrun
  generalize g.encode .empty = r at hi hd hss hsize hrun
  obtain ⟨⟨out, args, dirs, sets⟩, strtab⟩ := r
  dsimp only at hi hd hss hsize hrun
  obtain ⟨ws, hws, rfl⟩ := Option.map_eq_some_iff.mp hrun
  obtain ⟨hw, hlen⟩ := packAll_words hws strtab.bytes
  obtain ⟨hol, hwl, hal⟩ := hi.lengths f.size 0
  have hdl := hd.length_eq
  rw [List.length_map] at hdl
  have hsl := hss.length_eq
  have hargs : f.size * 6 + f.size * g.dirs.length + f.size * g.syscallSets.length +
      f.size * 11 * out.length =
        f.size * (6 + g.dirs.length + g.syscallSets.length + 11 * g.functions.length) := by
    rw [hol]
    ring
  rw [hargs] at hw hlen
  have hlen' : ws.length = f.size * (6 + g.dirs.length + g.syscallSets.length +
      11 * g.functions.length) + f.size * args.length * 4 := by
    simp only [hlen, List.length_append, hwl, hal, ← hdl, ← hsl, List.length_cons, List.length_nil]
    ring
  have hs : ∀ offs s, CString.At strtab.bytes offs s →
      CString.read (ws ++ strtab.bytes) (ws.length + offs) = some s ∧ offs < 2 ^ 24 :=
    fun offs s h => ⟨(h.shift ws).read, h.lt.trans hsize⟩
  obtain ⟨hw, hargsAt⟩ := words_append.mp hw
  obtain ⟨hw, houtAt⟩ := words_append.mp hw
  obtain ⟨hw, hsetsAt⟩ := words_append.mp hw
  obtain ⟨hheadAt, hdirsAt⟩ := words_append.mp hw
  simp only [List.length_append, ← hdl, ← hsl, hwl, List.length_cons, List.length_nil,
    Nat.zero_add] at hargsAt houtAt hsetsAt hdirsAt
  have hword {k w : Nat} (h : _ = some w) : getSyscallFileLong f (ws ++ strtab.bytes) k = some w :=
    Nat.zero_add k ▸ words_get (show f.Words _ (f.size * 0) _ from hheadAt) h
  have hdirs := readStrings_at hs hd hdirsAt
  have hsets := readStrings_at hs hss hsetsAt
  rw [List.length_map] at hdirs
  rw [readSyscallDatabase, hword rfl, hword rfl, hword rfl, hword rfl, hword rfl]
  simp only [Option.bind_eq_bind, Option.bind_some, ← hlen', hol, hdirs, hsets]
  exact readEntries_at hs hi houtAt hargsAt _ _

end Generator

/-- A method of an object with one argument, and a function without arguments. -/
def Generator.sample : Generator where
  abspath s := s
  dirs := [⟨literal "/syscalls", by decide⟩]
  syscallSets := [⟨literal "java", by decide⟩]
  functions :=
    [⟨0, ⟨literal "NOPH_A_b", by decide⟩, ⟨literal "java", by decide⟩, int, some throws,
      [⟨⟨literal "NOPH_A_t", by decide⟩, some ⟨literal "A", by decide⟩, ⟨literal "o", by decide⟩,
        true⟩], some ⟨literal "A", by decide⟩, some ⟨literal "b", by decide⟩⟩,
    ⟨1, ⟨literal "f", by decide⟩, ⟨literal "java", by decide⟩, void, none,
      [⟨void, none, .empty, false⟩], none, none⟩]

end Cibyl.SyscallDatabase
