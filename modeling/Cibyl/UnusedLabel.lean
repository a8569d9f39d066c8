import Cibyl.LabelsOnce
import Cibyl.Peephole

namespace Cibyl
set_option autoImplicit true

open Jvm (Item Op Label)

/-- The labels whose names start with `__CIBYL`. -/
def Jvm.Label.internal : Label → Bool
  | .memoryRead _ | .javamethodBegin | .localJumptab | .exceptionHandlers | .functionReturn
  | .functionReturnNonLocal => true
  | _ => false

namespace Peephole

/-- Nothing in the contents that the template knows goes to the label. -/
def unused (contents : List Piece) (l : Label) : Bool :=
  l.internal && !contents.any (fun p => p.target? == some l || p.isCatch)

def unusedLabel : Template Piece Class where
  classes := [.label]
  accepts contents items :=
    match items with
    | .label l :: _ => .ok (unused contents l)
    | _ => .ok false
  execute _ items := .ok (.nop :: items.tail)

/-- What the template leaves of an item. -/
def dropUnused (contents : List Piece) : Piece → Piece
  | .label l => if unused contents l then .nop else .label l
  | p => p

variable {contents : List Piece}

theorem dropUnused_target (contents : List Piece) (p : Piece) :
    (dropUnused contents p).target? = p.target? := by
  cases p <;> first | rfl | (rw [dropUnused]; split <;> rfl)

theorem dropUnused_isCatch (contents : List Piece) (p : Piece) :
    (dropUnused contents p).isCatch = p.isCatch := by
  cases p <;> first | rfl | (rw [dropUnused]; split <;> rfl)

/-- The labels that go do not count as uses. -/
theorem unused_dropUnused (as bs : List Piece) (l : Label) :
    unused (as.map (dropUnused contents) ++ bs) l = unused (as ++ bs) l := by
  simp only [unused, List.any_append, List.any_map, Function.comp_def, dropUnused_target,
    dropUnused_isCatch]

theorem window_singleton (as bs : List Piece) (p : Piece) (m n k : Nat) :
    Scan.window ⟨as ++ p :: bs, m, n, as.length, k⟩ as.length = [p] := by
  rw [Scan.window]
  dsimp only
  rw [List.take_length_add_append, List.drop_left, List.take_succ_cons, List.take_zero]

theorem test_singleton (as bs : List Piece) (m n k : Nat) (h : p.isNop = false) :
    Scan.test ⟨as ++ p :: bs, m, n, as.length, k⟩ as.length = [p] := by
  rw [Scan.test, window_singleton, solid_item h]
  rfl

theorem replaced_singleton (as bs : List Piece) (m n k : Nat) (h : p.isNop = false) :
    Scan.replaced ⟨as ++ p :: bs, m, n, as.length, k⟩ as.length [q] = as ++ q :: bs := by
  rw [Scan.replaced, window_singleton, replace_item h]
  simp [replace]

/-- Each label is a window of its own. -/
theorem unusedLabel_check (as bs : List Piece) (n k : Nat) (h : p.isInstance .label = true)
    (hn : p.isNop = false) : unusedLabel.turn ⟨as ++ p :: bs, 0, n, as.length, k⟩ p =
      unusedLabel.check ⟨as ++ p :: bs, 0, n, as.length, k⟩ as.length :=
  (Template.turn_match hn rfl h).trans (if_pos rfl)

/-- One turn of the loop settles one item. -/
theorem unusedLabel_turn (n k : Nat) (h : as ++ p :: bs = contents) : ∃ first k', unusedLabel.turn
      ⟨as.map (dropUnused contents) ++ p :: bs, 0, n, as.length, k⟩ p =
      .ok ⟨(as ++ [p]).map (dropUnused contents) ++ bs, 0, first, as.length + 1, k'⟩ := by
  have hnext : (as ++ [p]).map (dropUnused contents) ++ bs =
      as.map (dropUnused contents) ++ dropUnused contents p :: bs := by
    rw [List.map_append, List.map_singleton, List.append_assoc, List.singleton_append]
  have hlen : as.length = (as.map (dropUnused contents)).length := (List.length_map ..).symm
  rw [hnext]
  cases p with
  | label l =>
    have hu : unused (as.map (dropUnused contents) ++ .label l :: bs) l = unused contents l := by
      rw [unused_dropUnused, h]
    have hacc : unusedLabel.accepts (as.map (dropUnused contents) ++ .label l :: bs) [.label l] =
        .ok (unused contents l) := congrArg Except.ok hu
    have htest := test_singleton (as.map (dropUnused contents)) bs 0 n k
      (show (Piece.label l).isNop = false from rfl)
    rw [hlen, unusedLabel_check _ bs n k rfl rfl, Template.check, htest, hacc, dropUnused]
    cases unused contents l with
    | true =>
      refine ⟨(as.map (dropUnused contents)).length, k + 1, ?_⟩
      have hr := replaced_singleton (p := .label l) (q := .nop) (as.map (dropUnused contents)) bs 0
        n k rfl
      rw [if_pos rfl, ← hr]
      rfl
    | false => exact ⟨(as.map (dropUnused contents)).length, k, rfl⟩
  | defaultLabel l =>
    refine ⟨(as.map (dropUnused contents)).length, k, ?_⟩
    rw [hlen, unusedLabel_check _ bs n k rfl rfl, Template.check,
      test_singleton _ _ _ _ _ (show (Piece.defaultLabel l).isNop = false from rfl)]
    rfl
  | _ => exact ⟨n, k, rfl⟩

/-- The loop gets through the contents and has an item left of each. -/
theorem unusedLabel_loop (as : List Piece) (h : as ++ bs = contents)
    (hf : bs.length ≤ fuel) (n k : Nat) :
    ∃ s, unusedLabel.loop fuel ⟨as.map (dropUnused contents) ++ bs, 0, n, as.length, k⟩ = .ok s ∧
      s.contents = contents.map (dropUnused contents) := by
  induction bs generalizing as fuel n k with
  | nil =>
    rw [List.append_nil] at h
    subst h
    rw [List.append_nil]
    cases fuel with
    | zero =>
      refine ⟨_, rfl, ?_⟩
      rfl
    | succ fuel =>
      refine ⟨⟨as.map (dropUnused as), 0, n, as.length, k⟩, ?_, rfl⟩
      rw [Template.loop, List.getElem?_eq_none (by rw [List.length_map])]
  | cons p bs ih =>
    obtain ⟨fuel, rfl⟩ := Nat.exists_eq_add_one_of_ne_zero
      (Nat.ne_of_gt (Nat.lt_of_lt_of_le (Nat.succ_pos _) hf))
    obtain ⟨first, k', ht⟩ := unusedLabel_turn n k h
    obtain ⟨s, hs, hc⟩ := ih (as ++ [p]) (by rw [List.append_assoc]; exact h)
      (Nat.le_of_succ_le_succ hf) first k'
    refine ⟨s, ?_, hc⟩
    have hp : (as.map (dropUnused contents) ++ p :: bs)[as.length]? = some p := by
      rw [List.getElem?_append_right (by rw [List.length_map]), List.length_map, Nat.sub_self]
      rfl
    rw [Template.loop, hp]
    dsimp only
    rw [ht]
    rw [List.length_append, List.length_singleton] at hs
    exact hs

/-- What the template makes of the contents. -/
theorem apply_unusedLabel (contents : List Piece) : ∃ s, unusedLabel.apply contents = .ok s ∧
    s.contents = contents.map (dropUnused contents) :=
  unusedLabel_loop [] rfl
    (Nat.le_trans (Nat.le_succ _) (Nat.le_mul_of_pos_left _ (Nat.succ_pos _))) 0 0

namespace Piece

/-- The label that the item defines. -/
def defines? : Piece → Option Label
  | label l => some l
  | _ => none

/-- The labels that the item refers to. The first line of a switch has none. -/
def names : Piece → List Label
  | goto l | conditionalBranchOne _ l | conditionalBranchTwo _ l => [l]
  | instruction (.jsr l) => [l]
  | base (.row l) | defaultLabel l => [l]
  | base (.item (.catch_ _ start stop h)) => [start, stop, h]
  | _ => []

/-- The label of a `jsr` or of a line of a switch. -/
def other? : Piece → Option Label
  | instruction (.jsr l) | base (.row l) | defaultLabel l => some l
  | _ => none

end Piece

def defined (ps : List Piece) : List Label := ps.filterMap Piece.defines?

def named (ps : List Piece) : List Label := ps.flatMap Piece.names

def targets (ps : List Piece) : List Label := ps.filterMap Piece.target?

def others (ps : List Piece) : List Label := ps.filterMap Piece.other?

/-- Every label that is still referred to is still defined. -/
def LabelsKept (before after : List Piece) : Prop :=
  ∀ l ∈ named after, l ∈ defined before → l ∈ defined after

/-- Some line is a `.catch`, or the labels that a `jsr` or a switch refers to are those of branches
too, where their names start with `__CIBYL`. -/
def UsesSeen (contents : List Piece) : Prop :=
  (∃ p ∈ contents, p.isCatch = true) ∨
    ∀ l ∈ others contents, l ∈ defined contents → l.internal = true → l ∈ targets contents

theorem dropUnused_names (contents : List Piece) (p : Piece) :
    (dropUnused contents p).names = p.names := by
  cases p <;> first | rfl | (rw [dropUnused]; split <;> rfl)

theorem named_dropUnused (contents ps : List Piece) :
    named (ps.map (dropUnused contents)) = named ps := by
  rw [named, List.flatMap_map]
  simp only [dropUnused_names]
  rfl

theorem defines_dropUnused {p : Piece} :
    (dropUnused contents p).defines? = some l ↔ p.defines? = some l ∧
      unused contents l = false := by
  cases p with
  | label l' =>
    rw [dropUnused]
    cases hu : unused contents l' with
    | true =>
      refine ⟨nofun, fun ⟨hl, hn⟩ => ?_⟩
      cases hl
      exact absurd (hu.symm.trans hn) Bool.noConfusion
    | false =>
      refine ⟨fun hl => ⟨hl, ?_⟩, fun h => h.1⟩
      cases hl
      exact hu
  | _ => exact ⟨nofun, fun h => nomatch h.1⟩

theorem mem_defined_dropUnused :
    l ∈ defined (ps.map (dropUnused contents)) ↔ l ∈ defined ps ∧ unused contents l = false := by
  rw [defined, List.filterMap_map]
  simp only [defined, List.mem_filterMap, Function.comp_apply, defines_dropUnused]
  constructor
  · rintro ⟨p, hp, hl, hu⟩
    exact ⟨⟨p, hp, hl⟩, hu⟩
  · rintro ⟨⟨p, hp, hl⟩, hu⟩
    exact ⟨p, hp, hl, hu⟩

theorem unused_iff : unused contents l = true ↔
    l.internal = true ∧ l ∉ targets contents ∧ ∀ p ∈ contents, p.isCatch = false := by
  rw [unused, Bool.and_eq_true, Bool.not_eq_true', List.any_eq_false]
  refine and_congr_right fun _ => ⟨fun h => ⟨fun hl => ?_, fun p hp => ?_⟩, fun h p hp hu => ?_⟩
  · obtain ⟨p, hp, ht⟩ := List.mem_filterMap.mp hl
    exact h p hp (by rw [ht, beq_self_eq_true, Bool.true_or])
  · exact Bool.eq_false_iff.mpr fun hc => h p hp (by rw [hc, Bool.or_true])
  · rcases Bool.or_eq_true_iff.mp hu with ht | hc
    · exact h.1 (List.mem_filterMap.mpr ⟨p, hp, eq_of_beq ht⟩)
    · rw [h.2 p hp] at hc
      cases hc

/-- An item refers to a label as a branch, as a `jsr` or a line of a switch, or as a `.catch`. -/
theorem mem_names {p : Piece} (h : l ∈ p.names) :
    p.target? = some l ∨ p.other? = some l ∨ p.isCatch = true := by
  unfold Piece.names at h
  split at h
  case h_8 => cases h
  case h_7 => exact .inr (.inr rfl)
  all_goals
    cases List.mem_singleton.mp h
    first
      | exact .inl rfl
      | exact .inr (.inl rfl)

theorem names_of_other {p : Piece} (h : p.other? = some l) : l ∈ p.names := by
  unfold Piece.other? at h
  split at h
  case h_4 => cases h
  all_goals
    cases h
    exact List.mem_singleton_self _

theorem labelsKept_iff :
    LabelsKept contents (contents.map (dropUnused contents)) ↔ UsesSeen contents := by
  rw [LabelsKept, named_dropUnused]
  simp only [mem_defined_dropUnused]
  constructor
  · intro h
    by_cases hc : ∃ p ∈ contents, p.isCatch = true
    · exact .inl hc
    refine .inr fun l hl hd hi => Classical.byContradiction fun ht => ?_
    obtain ⟨p, hp, ho⟩ := List.mem_filterMap.mp hl
    have hu := (h l (List.mem_flatMap.mpr ⟨p, hp, names_of_other ho⟩) hd).2
    have hn : ∀ p ∈ contents, p.isCatch = false := fun p hp =>
      Bool.eq_false_iff.mpr fun hpc => hc ⟨p, hp, hpc⟩
    rw [unused_iff.mpr ⟨hi, ht, hn⟩] at hu
    cases hu
  · intro h l hl hd
    refine ⟨hd, Bool.eq_false_iff.mpr fun hu => ?_⟩
    obtain ⟨hi, ht, hn⟩ := unused_iff.mp hu
    have hnc : ¬ ∃ p ∈ contents, p.isCatch = true := fun ⟨p, hp, hc⟩ =>
      Bool.false_ne_true ((hn p hp).symm.trans hc)
    obtain ⟨p, hp, hlp⟩ := List.mem_flatMap.mp hl
    rcases mem_names hlp with h' | h' | h'
    · exact ht (List.mem_filterMap.mpr ⟨p, hp, h'⟩)
    · exact ht ((h.resolve_left hnc) l (List.mem_filterMap.mpr ⟨p, hp, h'⟩) hd hi)
    · exact hnc ⟨p, hp, h'⟩

end Peephole

open Peephole

/-- The template leaves every label that the body still refers to. -/
def JavaMethod.UnusedLabelSafe (env : Env) (m : JavaMethod) : Prop :=
  ∃ s, unusedLabel.apply (m.contents env) = .ok s ∧ LabelsKept (m.contents env) s.contents

theorem JavaMethod.unused_label_safe_iff (env : Env) (m : JavaMethod) :
    m.UnusedLabelSafe env ↔ UsesSeen (m.contents env) := by
  obtain ⟨s, hs, hc⟩ := apply_unusedLabel (m.contents env)
  rw [← labelsKept_iff]
  constructor
  · rintro ⟨s', hs', hk⟩
    cases hs.symm.trans hs'
    rwa [hc] at hk
  · intro hk
    refine ⟨s, hs, ?_⟩
    rwa [hc]

/-- `lb $v0, 0($a0)` and `jr $ra`. -/
def loadByte : List Word := [0x80820000, 0x03e00008, 0]

def loadByteArray : List Entry := (Controller.pass0 0x1000 loadByte).getD []

theorem loadByte_pass0 : Controller.pass0 0x1000 loadByte = some loadByteArray := rfl

def loadByteFunction : Option Function :=
  Function.ofSymbol "f" false loadByteArray (Controller.pass0_attached loadByte_pass0) 0 2

def loadByteMethod : JavaMethod := ⟨loadByteFunction.toList, by decide⟩

def loadByteEnv : Env := Env.single { optimizePartialMemoryOps := true } loadByteMethod

/-- The subroutine of the load has no label when the template is done. -/
theorem subroutine_label_lost : Controller.pass0 0x1000 loadByte = some loadByteArray ∧
    (loadByteMethod.Made loadByteArray ∧ loadByteMethod.Of loadByteArray) ∧
    ¬ loadByteMethod.UnusedLabelSafe loadByteEnv := by
  have hf : loadByteMethod.functions = loadByteFunction.toList := rfl
  refine ⟨loadByte_pass0, JavaMethod.made_of_symbol hf, fun ⟨s, hs, hk⟩ => ?_⟩
  obtain ⟨s', hs', hc⟩ := apply_unusedLabel (loadByteMethod.contents loadByteEnv)
  cases hs.symm.trans hs'
  rw [hc, labelsKept_iff] at hk
  rcases hk with ⟨p, hp, hpc⟩ | hk
  · revert p
    decide +kernel
  · exact absurd (hk (.memoryRead .byte) (by decide +kernel) (by decide +kernel) rfl)
      (by decide +kernel)

end Cibyl
