import Cibyl.LibcString
import Cibyl.Strtoll

namespace Cibyl
set_option autoImplicit true

open Lanes (Flat put put_of_mem put_of_not_mem)

namespace Libc

/-- The loop of `strspn`: the pointer into the string where it ends. -/
def strspnLoop (f : Flat) (s2 : Nat) : Nat → Nat → Nat → Option Nat
  | 0, _, _ => none
  | fuel + 1, s, p =>
    if f p ≠ 0 then
      if f p = f s then strspnLoop f s2 fuel (s + 1) s2 else strspnLoop f s2 fuel s (p + 1)
    else some s

def strspn (f : Flat) (fuel s1 s2 : Nat) : Option Nat :=
  (strspnLoop f s2 fuel s1 s2).map (· - s1)

/-- The inner loop of `strpbrk`. -/
def strpbrkInner (f : Flat) (c : Byte) : Nat → Nat → Option Bool
  | 0, _ => none
  | fuel + 1, p =>
    if f p ≠ 0 then if f p = c then some true else strpbrkInner f c fuel (p + 1) else some false

def strpbrk (f : Flat) (s2 : Nat) : Nat → Nat → Option Nat
  | 0, _ => none
  | fuel + 1, s =>
    if f s ≠ 0 then
      (strpbrkInner f (f s) fuel s2).bind fun found =>
        if found then some s else strpbrk f s2 fuel (s + 1)
    else some 0

/-- The token, what `next_start` is after it, and the memory. -/
def strtokR (f : Flat) (fuel s1 s2 next : Nat) : Option (Nat × Nat × Flat) :=
  let s := if s1 ≠ 0 then s1 else next
  if s ≠ 0 then
    (strspn f fuel s s2).bind fun n =>
      let s := s + n
      if f s ≠ 0 then
        (strpbrk f s2 fuel s).map fun p => if p ≠ 0 then (s, p + 1, put f p [0]) else (s, p, f)
      else some (0, 0, f)
  else some (s, next, f)

/-- The tokens up to `NULL`. Behind the first call the string is `NULL`. -/
def strtokAll (fuel s2 : Nat) : Nat → Nat → Nat → Flat → Option (List Nat × Flat)
  | 0, _, _, _ => none
  | calls + 1, s1, next, f =>
    (strtokR f fuel s1 s2 next).bind fun x =>
      if x.1 = 0 then some ([], x.2.2)
      else (strtokAll fuel s2 calls 0 x.2.1 x.2.2).map fun y => (x.1 :: y.1, y.2)

/-- A string with its NUL. -/
def StringAt (f : Flat) : Nat → List Byte → Prop
  | a, [] => f a = 0
  | a, c :: cs => f a = c ∧ c ≠ 0 ∧ StringAt f (a + 1) cs

instance StringAt.decidable (f : Flat) : (a : Nat) → (cs : List Byte) → Decidable (StringAt f a cs)
  | a, [] => inferInstanceAs (Decidable (f a = 0))
  | a, c :: cs =>
    have := StringAt.decidable f (a + 1) cs
    inferInstanceAs (Decidable (f a = c ∧ c ≠ 0 ∧ StringAt f (a + 1) cs))

/-- What stands between the delimiters. -/
def tokens (ds cs : List Byte) : List (List Byte) :=
  (cs.splitOnP (ds.contains ·)).filter (!·.isEmpty)

/-- A string that is cut into its tokens: each of them is a string, and only delimiters are gone. -/
structure Tokenized (f f' : Flat) (s : Nat) (ds cs : List Byte) (ps : List Nat) : Prop where
  strings : List.Forall₂ (StringAt f') ps (tokens ds cs)
  ascending : ps.Pairwise (· < ·)
  within : ∀ p ∈ ps, s ≤ p ∧ p < s + cs.length
  changed : ∀ i, f' i ≠ f i → s ≤ i ∧ i < s + cs.length ∧ f i ∈ ds ∧ f' i = 0

section

variable {f g : Flat} {a b s p : Nat} {cs ds sep tok rest : List Byte}

theorem StringAt.behind (h : StringAt f a (cs ++ rest)) : StringAt f (a + cs.length) rest := by
  induction cs generalizing a with
  | nil => exact h
  | cons c cs ih =>
    have hbehind := ih h.2.2
    rw [Nat.add_right_comm] at hbehind
    exact hbehind

theorem StringAt.congr (h : StringAt f a cs) (he : ∀ i, a ≤ i → i ≤ a + cs.length → g i = f i) :
    StringAt g a cs := by
  induction cs generalizing a with
  | nil => exact (he a (Nat.le_refl _) (Nat.le_refl _)).trans h
  | cons c cs ih =>
    obtain ⟨hc, hne, hs⟩ := h
    rw [List.length_cons] at he
    refine ⟨(he a (Nat.le_refl _) (by omega)).trans hc, hne, ih hs fun i hi hle => ?_⟩
    exact he i (by omega) (by omega)

/-- A NUL behind the first characters ends the string there. -/
theorem StringAt.cut (h : StringAt f a (cs ++ rest)) :
    StringAt (put f (a + cs.length) [0]) a cs := by
  induction cs generalizing a with
  | nil =>
    have hmem : a ≤ a ∧ a < a + [(0 : Byte)].length := ⟨Nat.le_refl a, Nat.lt_succ_self a⟩
    exact (put_of_mem hmem).trans (by rw [Nat.sub_self]; rfl)
  | cons c cs ih =>
    obtain ⟨hc, hne, hs⟩ := h
    have hcut := ih hs
    rw [Nat.add_right_comm] at hcut
    refine ⟨?_, hne, hcut⟩
    rw [put_of_not_mem (by simp)]
    exact hc

theorem StringAt.ne_zero (h : StringAt f a cs) : ∀ c ∈ cs, c ≠ 0 := by
  induction cs generalizing a with
  | nil => exact fun c hc => absurd hc List.not_mem_nil
  | cons c cs ih => exact List.forall_mem_cons.mpr ⟨h.2.1, ih h.2.2⟩

/-- Where a string goes on with no delimiter, there is none in the memory. -/
theorem StringAt.head_not_mem (h : StringAt f a rest) (hd : StringAt f b ds)
    (hr : ∀ c ∈ rest.head?, c ∉ ds) : f a ∉ ds := by
  cases rest with
  | nil =>
    intro hmem
    exact hd.ne_zero _ hmem h
  | cons c rest => exact h.1 ▸ hr c rfl

theorem strpbrkInner_eq (h : StringAt f p ds) (hf : ds.length < fuel) (c : Byte) :
    strpbrkInner f c fuel p = some (decide (c ∈ ds)) := by
  induction ds generalizing p fuel with
  | nil =>
    obtain ⟨fuel, rfl⟩ := Nat.exists_eq_succ_of_ne_zero (Nat.ne_of_gt hf)
    rw [strpbrkInner, if_neg (fun hn => hn h)]
    rfl
  | cons d ds ih =>
    obtain ⟨hd, hne, hs⟩ := h
    obtain ⟨fuel, rfl⟩ := Nat.exists_eq_succ_of_ne_zero (Nat.ne_of_gt (Nat.zero_lt_of_lt hf))
    rw [strpbrkInner, hd, if_pos hne]
    split
    · next hc =>
      rw [decide_eq_true (hc ▸ List.mem_cons_self ..)]
    · next hc =>
      rw [ih hs (Nat.lt_of_succ_lt_succ hf)]
      simp [Ne.symm hc]

/-- `strpbrk` stops at the first delimiter. -/
theorem strpbrk_eq (h : StringAt f s (tok ++ rest)) (hd : StringAt f b ds)
    (ht : ∀ c ∈ tok, c ∉ ds) (hr : ∀ c ∈ rest.head?, c ∈ ds)
    (hf : tok.length + ds.length + 1 < fuel) :
    strpbrk f b fuel s = some (if rest = [] then 0 else s + tok.length) := by
  induction tok generalizing s fuel with
  | nil =>
    obtain ⟨fuel, rfl⟩ := Nat.exists_eq_succ_of_ne_zero (Nat.ne_of_gt (Nat.zero_lt_of_lt hf))
    cases rest with
    | nil => rw [strpbrk, if_neg (fun hn => hn h), if_pos rfl]
    | cons c rest =>
      have hc : f s = c := h.1
      rw [strpbrk, hc, if_pos h.2.1, strpbrkInner_eq hd (by simp at hf; omega),
        decide_eq_true (hr c rfl)]
      rfl
  | cons c tok ih =>
    obtain ⟨hc, hne, hs⟩ := h
    obtain ⟨ht₁, ht₂⟩ := List.forall_mem_cons.mp ht
    rw [List.length_cons] at hf
    obtain ⟨fuel, rfl⟩ := Nat.exists_eq_succ_of_ne_zero (Nat.ne_of_gt (Nat.zero_lt_of_lt hf))
    rw [strpbrk, hc, if_pos hne, strpbrkInner_eq hd (by omega), decide_eq_false ht₁,
      Option.bind_some, if_neg Bool.false_ne_true, ih hs ht₂ (by omega), List.length_cons,
      Nat.add_right_comm, Nat.add_assoc]

/-- The loop over the delimiters ends with the one that was met, or with the string. -/
theorem strspnLoop_scan (h : StringAt f p ds) (hf : ds.length < fuel) :
    (f s ∈ ds → ∃ fuel', fuel ≤ fuel' + ds.length ∧
      strspnLoop f b fuel s p = strspnLoop f b fuel' (s + 1) b) ∧
    (f s ∉ ds → strspnLoop f b fuel s p = some s) := by
  induction ds generalizing p fuel with
  | nil =>
    obtain ⟨fuel, rfl⟩ := Nat.exists_eq_succ_of_ne_zero (Nat.ne_of_gt hf)
    refine ⟨fun hmem => absurd hmem List.not_mem_nil, fun _ => ?_⟩
    rw [strspnLoop, if_neg (fun hn => hn h)]
  | cons d ds ih =>
    obtain ⟨hd, hne, hs⟩ := h
    rw [List.length_cons] at hf ⊢
    obtain ⟨fuel, rfl⟩ := Nat.exists_eq_succ_of_ne_zero (Nat.ne_of_gt (Nat.zero_lt_of_lt hf))
    obtain ⟨hin, hout⟩ := ih hs (Nat.lt_of_succ_lt_succ hf)
    rw [strspnLoop, hd, if_pos hne]
    split
    · next he =>
      exact ⟨fun _ => ⟨fuel, by omega, rfl⟩, fun hn => absurd (he ▸ List.mem_cons_self ..) hn⟩
    · next he =>
      refine ⟨fun hmem => ?_, fun hn => hout fun hmem => hn (List.mem_cons_of_mem _ hmem)⟩
      obtain ⟨fuel', hle, heq⟩ := hin ((List.mem_cons.mp hmem).resolve_left (Ne.symm he))
      exact ⟨fuel', by omega, heq⟩

/-- `strspn` passes over the delimiters. -/
theorem strspn_eq (h : StringAt f s (sep ++ rest)) (hd : StringAt f b ds)
    (hsep : ∀ c ∈ sep, c ∈ ds) (hr : ∀ c ∈ rest.head?, c ∉ ds)
    (hf : (sep.length + 1) * (ds.length + 1) ≤ fuel) :
    strspnLoop f b fuel s b = some (s + sep.length) := by
  induction sep generalizing s fuel with
  | nil =>
    rw [List.length_nil, Nat.zero_add, Nat.one_mul] at hf
    exact (strspnLoop_scan hd hf).2 (h.head_not_mem hd hr)
  | cons c sep ih =>
    obtain ⟨hc, hne, hs⟩ := h
    obtain ⟨hmem, hsep'⟩ := List.forall_mem_cons.mp hsep
    rw [List.length_cons, Nat.succ_mul] at hf
    have hlt : ds.length < fuel := by omega
    obtain ⟨fuel', hle, heq⟩ := (strspnLoop_scan (b := b) (s := s) hd hlt).1 (hc ▸ hmem)
    rw [heq, ih hs hsep' (by omega), List.length_cons, Nat.add_right_comm, Nat.add_assoc]

theorem tokens_sep (hsep : ∀ c ∈ sep, c ∈ ds) (cs : List Byte) :
    tokens ds (sep ++ cs) = tokens ds cs := by
  induction sep with
  | nil => rfl
  | cons c sep ih =>
    obtain ⟨hc, hsep'⟩ := List.forall_mem_cons.mp hsep
    have hcut := List.splitOnP_append_cons (p := (ds.contains ·)) [] (sep ++ cs)
      (List.contains_iff_mem.mpr hc)
    rw [tokens, List.cons_append, ← List.nil_append (c :: (sep ++ cs)), hcut, List.filter_append]
    exact ih hsep'

theorem tokens_none (ht : ∀ c ∈ tok, c ∉ ds) (hne : tok ≠ []) : tokens ds tok = [tok] := by
  rw [tokens, List.splitOnP_eq_singleton]
  · exact List.filter_cons_of_pos (by simpa using hne)
  · exact fun c hc => Bool.eq_false_iff.mpr fun h => ht c hc (List.contains_iff_mem.mp h)

theorem tokens_token (ht : ∀ c ∈ tok, c ∉ ds) (hne : tok ≠ []) (hc : c ∈ ds)
    (cs : List Byte) : tokens ds (tok ++ c :: cs) = tok :: tokens ds cs := by
  have hcut := List.splitOnP_append_cons (p := (ds.contains ·)) tok cs
    (List.contains_iff_mem.mpr hc)
  rw [tokens, hcut, List.filter_append]
  exact congrArg (· ++ tokens ds cs) (tokens_none ht hne)

/-- Delimiters, a token, and what begins with the next delimiter. -/
theorem exists_token (ds cs : List Byte) : ∃ sep tok rest, cs = sep ++ (tok ++ rest) ∧
    (∀ c ∈ sep, c ∈ ds) ∧ (∀ c ∈ tok, c ∉ ds) ∧ (∀ c ∈ rest.head?, c ∈ ds) ∧
    (tok = [] → rest = []) := by
  have hin (c : Byte) (h : ds.contains c = true) : c ∈ ds := List.contains_iff_mem.mp h
  have hsplit₁ := List.takeWhile_append_dropWhile (p := (ds.contains ·)) (l := cs)
  have hsep : ∀ c ∈ cs.takeWhile (ds.contains ·), c ∈ ds :=
    fun c hc => hin c (List.mem_takeWhile_imp hc)
  have hhead : ∀ c ∈ (cs.dropWhile (ds.contains ·)).head?, ds.contains c = false := by
    intro c hc
    have hnot := List.head?_dropWhile_not (ds.contains ·) cs
    rw [hc] at hnot
    exact hnot
  generalize cs.dropWhile (ds.contains ·) = cs' at *
  have hsplit₂ := List.takeWhile_append_dropWhile (p := (!ds.contains ·)) (l := cs')
  refine ⟨_, cs'.takeWhile (!ds.contains ·), cs'.dropWhile (!ds.contains ·), ?_, hsep, ?_, ?_, ?_⟩
  · rw [hsplit₂, hsplit₁]
  · intro c hc hmem
    have hnot := List.mem_takeWhile_imp (p := (!ds.contains ·)) hc
    rw [List.contains_iff_mem.mpr hmem] at hnot
    cases hnot
  · intro c hc
    have hnot := List.head?_dropWhile_not (!ds.contains ·) cs'
    rw [hc] at hnot
    exact hin c (by simpa using hnot)
  · intro htok
    cases cs' with
    | nil => rfl
    | cons c cs' =>
      rw [List.takeWhile_cons_of_pos (by simpa using hhead c rfl)] at htok
      cases htok

/-- What one call does: there is no token, or the last one, or one with a delimiter behind it. -/
theorem strtokR_eq (h : StringAt f s (sep ++ (tok ++ rest))) (hd : StringAt f b ds)
    (hsep : ∀ c ∈ sep, c ∈ ds) (ht : ∀ c ∈ tok, c ∉ ds) (hr : ∀ c ∈ rest.head?, c ∈ ds)
    (hrest : tok = [] → rest = []) (hs : (if s1 ≠ 0 then s1 else next) = s) (hpos : s ≠ 0)
    (hf : ((sep ++ (tok ++ rest)).length + 1) * (ds.length + 1) < fuel) :
    strtokR f fuel s1 b next =
      some (if tok = [] then (0, 0, f)
        else if rest = [] then (s + sep.length, 0, f)
        else (s + sep.length, s + sep.length + tok.length + 1,
          put f (s + sep.length + tok.length) [0])) := by
  have htail := h.behind
  have hhead : ∀ c ∈ (tok ++ rest).head?, c ∉ ds := by
    intro c hc
    cases tok with
    | nil =>
      rw [hrest rfl] at hc
      cases hc
    | cons t tok =>
      cases hc
      exact ht c (List.mem_cons_self ..)
  rw [List.length_append, List.length_append] at hf
  have hfuel₁ : (sep.length + 1) * (ds.length + 1) ≤ fuel :=
    Nat.le_trans (Nat.mul_le_mul_right _ (by omega)) hf.le
  have hspan := strspn_eq h hd hsep hhead hfuel₁
  have hlen : strspn f fuel s b = some sep.length := by
    rw [strspn, hspan, Option.map_some, Nat.add_sub_cancel_left]
  rw [strtokR]
  dsimp only
  rw [hs, if_pos hpos, hlen, Option.bind_some]
  cases tok with
  | nil =>
    cases hrest rfl
    rw [if_neg (fun hn => hn htail), if_pos rfl]
  | cons c tok =>
    have hne : f (s + sep.length) ≠ 0 := by
      rw [htail.1]
      exact htail.2.1
    have hfuel₂ : ((c :: tok).length + 1) * (ds.length + 1) < fuel :=
      Nat.lt_of_le_of_lt (Nat.mul_le_mul_right _ (by omega)) hf
    have hmul := Nat.le_mul_of_pos_right (c :: tok).length
      (show 0 < ds.length + 1 from Nat.succ_pos _)
    rw [Nat.succ_mul] at hfuel₂
    rw [if_pos hne, strpbrk_eq htail hd ht hr (by omega), Option.map_some,
      if_neg (List.cons_ne_nil c tok)]
    by_cases hnil : rest = []
    · rw [if_pos hnil, if_pos hnil, if_neg (fun hn => hn rfl)]
    · rw [if_neg hnil, if_neg hnil, if_pos (by omega)]

theorem Tokenized.none (h : tokens ds cs = []) : Tokenized f f s ds cs [] where
  strings := h ▸ .nil
  ascending := .nil
  within := fun _ hp => absurd hp List.not_mem_nil
  changed := fun _ hi => absurd rfl hi

theorem Tokenized.last (hs : StringAt f s (sep ++ tok)) (hsep : ∀ c ∈ sep, c ∈ ds)
    (ht : ∀ c ∈ tok, c ∉ ds) (hne : tok ≠ []) :
    Tokenized f f s ds (sep ++ tok) [s + sep.length] where
  strings := by
    rw [tokens_sep hsep, tokens_none ht hne]
    exact .cons hs.behind .nil
  ascending := List.pairwise_singleton _ _
  within := by
    intro p hp
    have hpos := List.length_pos_iff.mpr hne
    rw [List.mem_singleton.mp hp, List.length_append]
    omega
  changed := fun _ hi => absurd rfl hi

/-- A token in front of what is cut behind its delimiter. -/
theorem Tokenized.cons {f' : Flat} {ps : List Nat} (hs : StringAt f s (sep ++ (tok ++ c :: rest)))
    (hsep : ∀ c ∈ sep, c ∈ ds) (ht : ∀ c ∈ tok, c ∉ ds) (hne : tok ≠ []) (hc : c ∈ ds)
    (h : Tokenized (put f (s + sep.length + tok.length) [0]) f' (s + sep.length + tok.length + 1)
      ds rest ps) :
    Tokenized f f' s ds (sep ++ (tok ++ c :: rest)) ((s + sep.length) :: ps) where
  strings := by
    rw [tokens_sep hsep, tokens_token ht hne hc]
    refine .cons (hs.behind.cut.congr fun i hi hle => ?_) h.strings
    by_contra hn
    have hchanged := (h.changed i hn).1
    omega
  ascending := by
    refine List.pairwise_cons.mpr ⟨fun p hp => ?_, h.ascending⟩
    have hle := (h.within p hp).1
    omega
  within := by
    have hpos := List.length_pos_iff.mpr hne
    simp only [List.length_append, List.length_cons]
    refine List.forall_mem_cons.mpr ⟨by omega, fun p hp => ?_⟩
    have hp' := h.within p hp
    omega
  changed := by
    intro i hi
    have hk : f (s + sep.length + tok.length) = c := hs.behind.behind.1
    simp only [List.length_append, List.length_cons]
    by_cases he : i = s + sep.length + tok.length
    · have hsame : f' i = put f (s + sep.length + tok.length) [0] i := by
        by_contra hn
        have hchanged := (h.changed i hn).1
        omega
      have hmem : s + sep.length + tok.length ≤ i ∧
          i < s + sep.length + tok.length + [(0 : Byte)].length :=
        ⟨he.ge, Nat.lt_succ_of_le he.le⟩
      refine ⟨by omega, by omega, he ▸ hk ▸ hc, ?_⟩
      rw [hsame, put_of_mem hmem, he, Nat.sub_self]
      rfl
    · have hsame : put f (s + sep.length + tok.length) [0] i = f i :=
        put_of_not_mem (by rw [List.length_singleton]; omega)
      obtain ⟨hlo, hhi, hmem, hzero⟩ := h.changed i (hsame ▸ hi)
      exact ⟨by omega, by omega, hsame ▸ hmem, hzero⟩

theorem strtokAll_null (f : Flat) (fuel calls : Nat) :
    strtokAll fuel b (calls + 1) 0 0 f = some ([], f) := rfl

/-- The calls of `strtok` for a string, until one returns `NULL`, return just the tokens. -/
theorem strtok_tokens (hs : StringAt f s cs) (hd : StringAt f b ds) (hpos : s ≠ 0)
    (hsel : (if s1 ≠ 0 then s1 else next) = s)
    (hapart : b + ds.length < s ∨ s + cs.length ≤ b)
    (hfuel : (cs.length + 1) * (ds.length + 1) < fuel) (hcalls : cs.length < calls) :
    ∃ ps f', strtokAll fuel b calls s1 next f = some (ps, f') ∧ Tokenized f f' s ds cs ps := by
  induction calls generalizing f s cs s1 next with
  | zero => exact absurd hcalls (Nat.not_lt_zero _)
  | succ calls ih =>
    obtain ⟨sep, tok, rest, rfl, hsep, ht, hr, hrest⟩ := exists_token ds cs
    have hcall := strtokR_eq hs hd hsep ht hr hrest hsel hpos hfuel
    simp only [List.length_append] at hapart hfuel hcalls
    by_cases htok : tok = []
    · -- only delimiters are left
      cases htok
      cases hrest rfl
      rw [if_pos rfl] at hcall
      refine ⟨[], f, ?_, .none ?_⟩
      · rw [strtokAll, hcall]
        rfl
      · rw [tokens_sep hsep]
        rfl
    have hpos' := List.length_pos_iff.mpr htok
    rw [if_neg htok] at hcall
    cases rest with
    | nil =>
      obtain ⟨calls, rfl⟩ := Nat.exists_eq_succ_of_ne_zero (show calls ≠ 0 by omega)
      rw [if_pos rfl] at hcall
      rw [List.append_nil] at hs ⊢
      refine ⟨[s + sep.length], f, ?_, .last hs hsep ht htok⟩
      rw [strtokAll, hcall, Option.bind_some, if_neg (show s + sep.length ≠ 0 by omega),
        strtokAll_null]
      rfl
    | cons c rest =>
      have hc : c ∈ ds := hr c rfl
      rw [if_neg (List.cons_ne_nil c rest)] at hcall
      rw [List.length_cons] at hapart hfuel hcalls
      -- the NUL touches neither the rest nor the delimiters
      have hs' : StringAt (put f (s + sep.length + tok.length) [0])
          (s + sep.length + tok.length + 1) rest :=
        hs.behind.behind.2.2.congr fun i hi _ =>
          put_of_not_mem (by rw [List.length_singleton]; omega)
      have hd' : StringAt (put f (s + sep.length + tok.length) [0]) b ds :=
        hd.congr fun i hi hle => put_of_not_mem (by rw [List.length_singleton]; omega)
      have hfuel' : (rest.length + 1) * (ds.length + 1) < fuel :=
        Nat.lt_of_le_of_lt (Nat.mul_le_mul_right _ (by omega)) hfuel
      obtain ⟨ps, f', hrun, htokenized⟩ := ih hs' hd' (Nat.succ_ne_zero _)
        (if_neg (fun hn => hn rfl)) (by omega) hfuel' (by omega)
      refine ⟨(s + sep.length) :: ps, f', ?_, htokenized.cons hs hsep ht htok hc⟩
      rw [strtokAll, hcall, Option.bind_some, if_neg (show s + sep.length ≠ 0 by omega), hrun]
      rfl

/-- The string ",ab,,c" with the delimiters "," behind it. -/
def listMemory : Flat := fun i => ([0, ch ',', ch 'a', ch 'b', ch ',', ch ',', ch 'c', 0,
  ch ','] : List Byte).getD i 0

theorem strtok_tokens_list : ∃ ps f',
    strtokAll 32 8 7 1 0 listMemory = some (ps, f') ∧
      Tokenized listMemory f' 1 [ch ','] [ch ',', ch 'a', ch 'b', ch ',', ch ',', ch 'c'] ps :=
  strtok_tokens (by decide) (by decide) (by decide) rfl
    (.inr (by decide)) (by decide) (by decide)

end

end Libc

end Cibyl
