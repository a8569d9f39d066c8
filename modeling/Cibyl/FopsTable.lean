import Cibyl.Mips
import Mathlib.Data.List.Infix
import Mathlib.Data.List.Pairwise

namespace Cibyl
set_option autoImplicit true

/-- `cibyl_fops_t`: its priority, and what it does. -/
structure CibylFops (α : Type) where
  priority : Int
  ops : α

/-- A place of the parallel arrays `uris` and `table`. -/
structure FopsEntry (α : Type) where
  uri : List Byte
  fop : CibylFops α

/-- `all_fops_t`. -/
structure AllFops (α : Type) where
  entries : List (FopsEntry α)
  fallback : Option (CibylFops α)

/-- A call of `cibyl_fops_register`. -/
structure Registration (α : Type) extends FopsEntry α where
  isDefault : Bool

namespace AllFops

variable {α : Type}

def empty : AllFops α := ⟨[], none⟩

/-- Replace the current one if the uris match and the priority is above the old one, or make space
for it. -/
def place (x : FopsEntry α) : List (FopsEntry α) → List (FopsEntry α)
  | [] => [x]
  | e :: es =>
    if x.uri = e.uri ∧ x.fop.priority > e.fop.priority then x :: es else e :: place x es

def registerOp (f : AllFops α) (r : Registration α) : AllFops α :=
  ⟨place r.toFopsEntry f.entries, if r.isDefault then some r.fop else f.fallback⟩

/-- The calls one after the other. -/
def registerAll (rs : List (Registration α)) : AllFops α := rs.foldl registerOp empty

/-- The operations for a path, with the URI that has matched. -/
def getFopsFromUri (f : AllFops α) (path : List Byte) : Option (FopsEntry α) :=
  f.entries.find? (fun e => e.uri.isPrefixOf path)

/-- The first entry of a URI. -/
def first (uri : List Byte) (es : List (FopsEntry α)) : Option (FopsEntry α) :=
  es.find? (fun e => e.uri = uri)

/-- The one of the higher priority, the older one where there is none. -/
def better (x : FopsEntry α) : Option (FopsEntry α) → FopsEntry α
  | none => x
  | some e => if x.fop.priority > e.fop.priority then x else e

/-- Placing a fop changes the first entry of its own URI only, and there to the better one. -/
theorem first_place (uri : List Byte) (x : FopsEntry α) (es : List (FopsEntry α)) :
    first uri (place x es) =
      if x.uri = uri then some (better x (first uri es)) else first uri es := by
  induction es with
  | nil =>
    by_cases hx : x.uri = uri
    · simp [place, first, better, hx]
    · simp [place, first, hx]
  | cons e es ih =>
    rw [first, first] at ih
    rw [place]
    by_cases he : e.uri = uri
    · -- the entry is the first of the URI, whether it is replaced or not
      have hf : first uri (e :: es) = some e := List.find?_cons_of_pos (by simpa using he)
      rw [hf]
      by_cases hx : x.uri = uri
      · rw [if_pos hx, better, he, hx]
        by_cases hp : x.fop.priority > e.fop.priority
        · rw [if_pos ⟨rfl, hp⟩, if_pos hp]
          exact List.find?_cons_of_pos (by simpa using hx)
        · rw [if_neg fun h => hp h.2, if_neg hp]
          exact List.find?_cons_of_pos (by simpa using he)
      · rw [if_neg hx, if_neg fun h => hx (h.1.trans he)]
        exact List.find?_cons_of_pos (by simpa using he)
    · have hf : first uri (e :: es) = first uri es := List.find?_cons_of_neg (by simpa using he)
      rw [hf]
      split
      · next hc =>
        have hx : x.uri ≠ uri := fun hx => he (hc.1.symm.trans hx)
        rw [if_neg hx]
        exact List.find?_cons_of_neg (by simpa using hx)
      · rw [← first, ← first] at ih
        rw [← ih]
        exact List.find?_cons_of_neg (by simpa using he)

/-- What the calls make of a URI: nothing, or the call of the highest priority. -/
structure Best (rs : List (Registration α)) (uri : List Byte) (o : Option (FopsEntry α)) :
    Prop where
  from_ : ∀ e, o = some e → ∃ r ∈ rs, r.toFopsEntry = e ∧ r.uri = uri
  highest : ∀ r ∈ rs, r.uri = uri → ∃ e, o = some e ∧ r.fop.priority ≤ e.fop.priority

theorem Best.register (h : Best rs uri o) (r : Registration α) :
    Best (rs ++ [r]) uri (if r.uri = uri then some (better r.toFopsEntry o) else o) := by
  split
  · next hr =>
    constructor
    · intro e he
      cases he
      cases o with
      | none => exact ⟨r, List.mem_append_right _ (List.mem_singleton_self r), rfl, hr⟩
      | some e =>
        rw [better]
        split
        · exact ⟨r, List.mem_append_right _ (List.mem_singleton_self r), rfl, hr⟩
        · obtain ⟨r', hr', he⟩ := h.from_ e rfl
          exact ⟨r', List.mem_append_left _ hr', he⟩
    · intro r' hr' hu
      refine ⟨_, rfl, ?_⟩
      rcases List.mem_append.mp hr' with hr' | hr'
      · obtain ⟨e, rfl, hle⟩ := h.highest r' hr' hu
        rw [better]
        split
        · next hp => exact Int.le_trans hle (Int.le_of_lt hp)
        · exact hle
      · cases List.mem_singleton.mp hr'
        cases o with
        | none => exact Int.le_refl _
        | some e =>
          rw [better]
          split
          · exact Int.le_refl _
          · next hp => exact Int.not_lt.mp hp
  · next hr =>
    constructor
    · intro e he
      obtain ⟨r', hr', he⟩ := h.from_ e he
      exact ⟨r', List.mem_append_left _ hr', he⟩
    · intro r' hr' hu
      rcases List.mem_append.mp hr' with hr' | hr'
      · exact h.highest r' hr' hu
      · cases List.mem_singleton.mp hr'
        exact absurd hu hr

theorem registerAll_snoc (rs : List (Registration α)) (r : Registration α) :
    registerAll (rs ++ [r]) = registerOp (registerAll rs) r := by
  rw [registerAll, List.foldl_append]
  rfl

/-- After any calls the first entry of each URI is the best. -/
theorem best_registerAll (rs : List (Registration α)) (uri : List Byte) :
    Best rs uri (first uri (registerAll rs).entries) := by
  induction rs using List.reverseRecOn with
  | nil => exact ⟨nofun, nofun⟩
  | append_singleton rs r ih =>
    rw [registerAll_snoc, registerOp, first_place]
    exact ih.register r

/-- The entry that a lookup finds is the first of its URI. -/
theorem first_of_getFopsFromUri {f : AllFops α} (h : f.getFopsFromUri path = some e) :
    e.uri <+: path ∧ first e.uri f.entries = some e := by
  obtain ⟨hp, as, bs, hes, has⟩ := List.find?_eq_some_iff_append.mp h
  have hp := List.isPrefixOf_iff_prefix.mp hp
  refine ⟨hp, List.find?_eq_some_iff_append.mpr ⟨by simp, as, bs, hes, fun a ha => ?_⟩⟩
  have hn := has a ha
  rw [Bool.not_eq_true', ← Bool.not_eq_true, List.isPrefixOf_iff_prefix] at hn
  have hne : a.uri ≠ e.uri := fun he => hn (he ▸ hp)
  simpa using hne

/-- Two calls for one URI with different priorities, or for URIs of which none begins the other. -/
def Separate (r d : Registration α) : Prop :=
  r.uri = d.uri ∧ r.fop.priority ≠ d.fop.priority ∨ ¬ r.uri <+: d.uri ∧ ¬ d.uri <+: r.uri

instance : Std.Symm (@Separate α) :=
  ⟨fun _ _ h => h.imp (fun h => ⟨h.1.symm, h.2.symm⟩) And.symm⟩

theorem eq_of_separate {rs : List (Registration α)} (h : rs.Pairwise Separate) (hr : r ∈ rs)
    (hd : d ∈ rs) (hn : ¬ Separate r d) : r = d := by
  by_contra hne
  exact hn (h.forall hr hd hne)

/-- The URIs of a path are alike. -/
theorem uri_eq_of_prefix {rs : List (Registration α)} (h : rs.Pairwise Separate) (hr : r ∈ rs)
    (hd : d ∈ rs) (hrp : r.uri <+: path) (hdp : d.uri <+: path) : r.uri = d.uri := by
  by_cases hs : Separate r d
  · rcases hs with ⟨he, -⟩ | ⟨hn, hn'⟩
    · exact he
    · exact ((List.prefix_or_prefix_of_prefix hrp hdp).elim hn hn').elim
  · rw [eq_of_separate h hr hd hs]

/-- In every order of the calls, a lookup finds the operations of the highest priority among those
whose URI begins the path. -/
theorem uri_selection {calls order : List (Registration α)} (h : calls.Pairwise Separate)
    (hp : order.Perm calls) (path : List Byte) :
    (∀ fop, (getFopsFromUri (registerAll order) path).map FopsEntry.fop = some fop ↔
      ∃ r ∈ calls, r.fop = fop ∧ r.uri <+: path ∧
        ∀ d ∈ calls, d.uri <+: path → d.fop.priority ≤ r.fop.priority) ∧
    (getFopsFromUri (registerAll order) path = none ↔ ∀ r ∈ calls, ¬ r.uri <+: path) := by
  have hbest (uri : List Byte) := best_registerAll order uri
  have hsome (r : Registration α) (hr : r ∈ calls) (hpath : r.uri <+: path) :
      getFopsFromUri (registerAll order) path ≠ none := by
    intro hn
    obtain ⟨e, he, -⟩ := (hbest r.uri).highest r (hp.mem_iff.mpr hr) rfl
    obtain ⟨r', -, rfl, hu⟩ := (hbest r.uri).from_ e he
    have hno := List.find?_eq_none.mp hn _ (List.mem_of_find?_eq_some he)
    rw [hu] at hno
    exact hno (List.isPrefixOf_iff_prefix.mpr hpath)
  have hfound (e : FopsEntry α) (he : getFopsFromUri (registerAll order) path = some e) :
      ∃ r ∈ calls, r.toFopsEntry = e ∧ r.uri <+: path ∧
        ∀ d ∈ calls, d.uri <+: path → d.fop.priority ≤ r.fop.priority := by
    obtain ⟨hpath, hf⟩ := first_of_getFopsFromUri he
    obtain ⟨r, hr, rfl, -⟩ := (hbest e.uri).from_ e hf
    refine ⟨r, hp.mem_iff.mp hr, rfl, hpath, fun d hd hdp => ?_⟩
    have hu := uri_eq_of_prefix h hd (hp.mem_iff.mp hr) hdp hpath
    obtain ⟨e, he, hle⟩ := (hbest r.uri).highest d (hp.mem_iff.mpr hd) hu
    cases Option.some.inj (hf.symm.trans he)
    exact hle
  refine ⟨fun fop => ⟨fun hm => ?_, ?_⟩, ⟨fun hn r hr hpath => hsome r hr hpath hn, fun hno => ?_⟩⟩
  · obtain ⟨e, he, rfl⟩ := Option.map_eq_some_iff.mp hm
    obtain ⟨r, hr, rfl, hrest⟩ := hfound e he
    exact ⟨r, hr, rfl, hrest⟩
  · rintro ⟨r, hr, rfl, hpath, hmax⟩
    cases he : getFopsFromUri (registerAll order) path with
    | none => exact absurd he (hsome r hr hpath)
    | some e =>
      obtain ⟨r', hr', rfl, hpath', hmax'⟩ := hfound e he
      have hu := uri_eq_of_prefix h hr hr' hpath hpath'
      have hpr := Int.le_antisymm (hmax' r hr hpath) (hmax r' hr' hpath')
      have hns : ¬ Separate r r' := by
        rintro (⟨-, hne⟩ | ⟨hn, -⟩)
        · exact hne hpr
        · exact hn (hu ▸ List.prefix_rfl)
      rw [eq_of_separate h hr hr' hns]
      rfl
  · cases he : getFopsFromUri (registerAll order) path with
    | none => rfl
    | some e =>
      obtain ⟨r, hr, -, hpath, -⟩ := hfound e he
      exact absurd hpath (hno r hr)

/-- Two handlers of `file://` and one of `http://`, registered in another order. -/
theorem uri_selection_files :
    let file : List Byte := [102, 105, 108, 101, 58, 47, 47]
    let low : Registration Nat := ⟨⟨file, 1, 0⟩, false⟩
    let high : Registration Nat := ⟨⟨file, 2, 1⟩, true⟩
    let http : Registration Nat := ⟨⟨[104, 116, 116, 112, 58, 47, 47], 1, 2⟩, false⟩
    (∀ fop, (getFopsFromUri (registerAll [high, http, low]) (file ++ [97])).map FopsEntry.fop =
        some fop ↔
      ∃ r ∈ [low, high, http], r.fop = fop ∧ r.uri <+: file ++ [97] ∧
        ∀ d ∈ [low, high, http], d.uri <+: file ++ [97] → d.fop.priority ≤ r.fop.priority) ∧
    (getFopsFromUri (registerAll [high, http, low]) (file ++ [97]) = none ↔
      ∀ r ∈ [low, high, http], ¬ r.uri <+: file ++ [97]) :=
  uri_selection
    (by
      refine .cons ?_ (.cons ?_ (List.pairwise_singleton ..))
      · rintro r (_ | ⟨_, _ | ⟨_, ⟨⟩⟩⟩)
        · exact .inl ⟨rfl, by decide⟩
        · exact .inr ⟨by decide, by decide⟩
      · rintro r (_ | ⟨_, ⟨⟩⟩)
        exact .inr ⟨by decide, by decide⟩)
    (List.perm_append_singleton _ [_, _]) _

end AllFops

end Cibyl
