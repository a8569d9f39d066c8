import Cibyl.Peephole
import Mathlib.Data.List.Forall2
import Mathlib.Logic.Relation

namespace Cibyl
set_option autoImplicit true

namespace Peephole

open Matchable (isNop isInstance)

section

variable {α κ : Type} [Matchable α κ] {t : Template α κ} {s s' : Scan α} {item : α}
  {pre win rest : List α}

/-- Items with new ones, in order, for those that are no nops. -/
inductive Refilled : List α → List α → List α → Prop where
  | nil : Refilled [] [] []
  | nop {p : α} (hn : isNop p = true) (h : Refilled ps rs qs) : Refilled (p :: ps) rs (p :: qs)
  | item {p : α} (hn : isNop p = false) (r : α) (h : Refilled ps rs qs) :
    Refilled (p :: ps) (r :: rs) (r :: qs)

theorem Refilled.length {ps rs qs : List α} (h : Refilled ps rs qs) : qs.length = ps.length := by
  induction h with
  | nil => rfl
  | nop _ _ ih | item _ _ _ ih => exact congrArg Nat.succ ih

theorem Refilled.solid {ps rs qs : List α} (h : Refilled ps rs qs) :
    rs.length = (solid ps).length := by
  induction h with
  | nil => rfl
  | nop hn _ ih => rw [ih, solid_nop hn]
  | item hn _ _ ih => rw [solid_item hn, List.length_cons, List.length_cons, ih]

theorem refilled_replace (ps rs : List α) (h : (solid ps).length ≤ rs.length) :
    Refilled ps (rs.take (solid ps).length) (replace ps rs) := by
  induction ps generalizing rs with
  | nil => exact .nil
  | cons p ps ih =>
    cases hn : isNop p with
    | true =>
      rw [solid_nop hn] at h ⊢
      rw [replace_nop hn]
      exact .nop hn (ih rs h)
    | false =>
      rw [solid_item hn] at h ⊢
      cases rs with
      | nil => exact absurd h (Nat.not_succ_le_zero _)
      | cons r rs =>
        rw [replace_item hn, List.length_cons, List.take_succ_cons]
        exact .item hn r (ih rs (Nat.le_of_succ_le_succ h))

theorem solid_append (ps qs : List α) : solid (ps ++ qs) = solid ps ++ solid qs :=
  List.filter_append ..

namespace Template

/-- The items from one to another, with nops between them at most, are of the classes. -/
structure Window (t : Template α κ) (contents pre win post : List α) : Prop where
  contents : contents = pre ++ (win ++ post)
  classes : List.Forall₂ (fun c p => isInstance p c = true) t.classes (solid win)
  first : ∀ p ∈ win.head?, isNop p = false
  last : ∀ p ∈ win.getLast?, isNop p = false

/-- The turn of the loop asks the template about the items. -/
def Offers (t : Template α κ) (s : Scan α) (items : List α) : Prop :=
  ∃ item c, s.contents[s.cur]? = some item ∧ isNop item = false ∧
    t.classes[s.matching]? = some c ∧ isInstance item c = true ∧
    s.matching + 1 = t.classes.length ∧ items = s.test (if s.matching = 0 then s.cur else s.first)

/-- The items of a window are replaced by the first ones of the replacement. -/
def Rewrites (t : Template α κ) (before after : List α) : Prop :=
  ∃ pre win post items rs win', t.Window before pre win post ∧
    t.accepts before (solid win) = .ok true ∧ t.execute before (solid win) = .ok items ∧
    rs <+: items ∧ Refilled win rs win' ∧ after = pre ++ (win' ++ post)

/-- The contents after a number of applications. -/
inductive Rewritten (t : Template α κ) (contents : List α) : Nat → List α → Prop where
  | start : t.Rewritten contents 0 contents
  | next (h : t.Rewritten contents n ps) (hr : t.Rewrites ps qs) : t.Rewritten contents (n + 1) qs

def Turns (t : Template α κ) (s s' : Scan α) : Prop :=
  ∃ item, s.contents[s.cur]? = some item ∧ t.turn s item = .ok s'

/-- What the loop gets to. -/
def Reaches (t : Template α κ) (contents : List α) (s : Scan α) : Prop :=
  Relation.ReflTransGen t.Turns (.start contents) s

/-- The loop is behind `pre`, and it has matched the items of `win`. -/
structure At (t : Template α κ) (s : Scan α) (pre win rest : List α) : Prop where
  contents : s.contents = pre ++ (win ++ rest)
  cur : s.cur = pre.length + win.length
  matching : s.matching = (solid win).length
  room : s.matching < t.classes.length ∨ t.classes = []
  begins : 0 < s.matching → s.first = pre.length
  first : ∀ p ∈ win.head?, isNop p = false
  classes : List.Forall₂ (fun c p => isInstance p c = true) (t.classes.take s.matching) (solid win)

theorem at_start (t : Template α κ) (contents : List α) :
    t.At (.start contents) [] [] contents where
  contents := rfl
  cur := rfl
  matching := rfl
  room := (Nat.eq_zero_or_pos t.classes.length).symm.imp_right List.length_eq_zero_iff.mp
  begins h := absurd h (Nat.lt_irrefl 0)
  first := nofun
  classes := .nil

/-- The loop goes back to the item after the start of the match. -/
theorem at_restart (hc : s.contents = pre ++ x :: ys) (hm : s.matching = 0)
    (hcur : s.cur = pre.length + 1) : t.At s (pre ++ [x]) [] ys where
  contents := by rw [hc, List.append_assoc]; rfl
  cur := by rw [hcur, List.length_append]; rfl
  matching := hm
  room := hm ▸ (at_start t []).room
  begins h := absurd h (by rw [hm]; exact Nat.lt_irrefl 0)
  first := nofun
  classes := hm ▸ .nil

namespace At

theorem win_nil (h : t.At s pre win rest) (hm : s.matching = 0) : win = [] := by
  cases win with
  | nil => rfl
  | cons p win =>
    have hl := h.matching
    rw [hm, solid_item (h.first p rfl)] at hl
    cases hl

theorem getElem (h : t.At s pre win (item :: rest)) : s.contents[s.cur]? = some item := by
  rw [h.contents, h.cur, ← List.append_assoc, ← List.length_append,
    List.getElem?_append_right (Nat.le_refl _), Nat.sub_self]
  rfl

theorem first_eq (h : t.At s pre win rest) :
    (if s.matching = 0 then s.cur else s.first) = pre.length := by
  split
  · next hm => rw [h.cur, h.win_nil hm]; rfl
  · next hm => exact h.begins (Nat.pos_of_ne_zero hm)

/-- The item at `cur` ends the first part of the contents. -/
theorem split (h : t.At s pre win (item :: rest)) :
    s.contents = pre ++ (win ++ [item]) ++ rest ∧ s.cur + 1 = (pre ++ (win ++ [item])).length := by
  constructor
  · rw [h.contents, List.append_assoc, List.append_assoc]
    rfl
  · rw [h.cur, List.length_append, List.length_append, Nat.add_assoc]
    rfl

theorem window (h : t.At s pre win (item :: rest)) : s.window pre.length = win ++ [item] := by
  rw [Scan.window, h.split.1, h.split.2, List.take_left, List.drop_left]

theorem replaced (h : t.At s pre win (item :: rest)) (rs : List α) :
    s.replaced pre.length rs = pre ++ (replace (win ++ [item]) rs ++ rest) := by
  have htake : s.contents.take pre.length = pre := by rw [h.contents, List.take_left]
  rw [Scan.replaced, htake, h.window, h.split.1, h.split.2, List.drop_left, List.append_assoc]

theorem length (h : t.At s pre win rest) :
    s.contents.length = pre.length + (win.length + rest.length) := by
  rw [h.contents, List.length_append, List.length_append]

/-- The match is no longer than the classes. -/
theorem classes_at (h : t.At s pre win rest) (hc : t.classes[s.matching]? = none) :
    t.classes = [] :=
  h.room.resolve_left (Nat.not_lt.mpr (List.getElem?_eq_none_iff.mp hc))

theorem take_classes (h : t.At s pre win (item :: rest)) (hc : t.classes[s.matching]? = some c)
    (hi : isInstance item c = true) (hn : isNop item = false) :
    List.Forall₂ (fun c p => isInstance p c = true) (t.classes.take (s.matching + 1))
      (solid (win ++ [item])) := by
  rw [List.take_add_one, hc, solid_append, solid_item hn]
  exact List.rel_append h.classes (.cons hi .nil)

/-- Where the last class matches, the items are a window. -/
theorem complete (h : t.At s pre win (item :: rest)) (hc : t.classes[s.matching]? = some c)
    (hi : isInstance item c = true) (hn : isNop item = false)
    (hm : s.matching + 1 = t.classes.length) : t.Window s.contents pre (win ++ [item]) rest where
  contents := by rw [h.contents, List.append_assoc]; rfl
  classes := by
    have hf := h.take_classes hc hi hn
    rwa [hm, List.take_length] at hf
  first p hp := by
    cases win with
    | nil =>
      cases hp
      exact hn
    | cons q win =>
      exact h.first p hp
  last p hp := by
    rw [List.getLast?_append] at hp
    cases hp
    exact hn

/-- An item that the loop goes on with the match over. -/
theorem grow (h : t.At s pre win (item :: rest)) (hw : win = [] → isNop item = false)
    (hc : s'.contents = s.contents) (hcur : s'.cur = s.cur + 1)
    (hm : s'.matching = (solid (win ++ [item])).length)
    (hr : s'.matching < t.classes.length ∨ t.classes = []) (hf : s'.first = pre.length)
    (hcl : List.Forall₂ (fun c p => isInstance p c = true) (t.classes.take s'.matching)
      (solid (win ++ [item]))) : t.At s' pre (win ++ [item]) rest where
  contents := by rw [hc, h.contents, List.append_assoc]; rfl
  cur := by rw [hcur, h.cur, List.length_append, Nat.add_assoc]; rfl
  matching := hm
  room := hr
  begins _ := hf
  first p hp := by
    cases win with
    | nil =>
      cases hp
      exact hw rfl
    | cons q win => exact h.first p hp
  classes := hcl

/-- Behind the first item of the match. -/
theorem restart (h : t.At s pre win (item :: rest)) (hc : s'.contents = s.contents)
    (hm : s'.matching = 0) (hcur : s'.cur = pre.length + 1) :
    ∃ x ys, ys.length = win.length + rest.length ∧ t.At s' (pre ++ [x]) [] ys := by
  cases win with
  | nil => exact ⟨item, rest, (Nat.zero_add _).symm, at_restart (hc.trans h.contents) hm hcur⟩
  | cons x win =>
    refine ⟨x, win ++ item :: rest, ?_, at_restart (hc.trans h.contents) hm hcur⟩
    rw [List.length_append, List.length_cons, List.length_cons]
    omega

end At

/-- What one turn of the loop does: it goes on, or goes back behind the start of the match, or that
with the window rewritten. -/
inductive Next (t : Template α κ) (s s' : Scan α) (pre win : List α) (item : α) (rest : List α) :
    Prop where
  | grow (hc : s'.contents = s.contents) (ha : s'.applied = s.applied)
    (h : t.At s' pre (win ++ [item]) rest)
  | restart (hc : s'.contents = s.contents) (ha : s'.applied = s.applied) (x : α) (ys : List α)
    (hl : ys.length = win.length + rest.length) (h : t.At s' (pre ++ [x]) [] ys)
  | rewrite (hr : t.Rewrites s.contents s'.contents) (ha : s'.applied = s.applied + 1) (x : α)
    (ys : List α) (hl : ys.length = win.length + rest.length) (h : t.At s' (pre ++ [x]) [] ys)

theorem At.next_restart (h : t.At s pre win (item :: rest)) (hc : s'.contents = s.contents)
    (ha : s'.applied = s.applied) (hm : s'.matching = 0) (hcur : s'.cur = pre.length + 1) :
    t.Next s s' pre win item rest := by
  obtain ⟨x, ys, hl, hat⟩ := h.restart hc hm hcur
  exact .restart hc ha x ys hl hat

theorem check_ok (h : t.check s n = .ok s') :
    s' = { s with matching := 0, first := n, cur := n + 1 } ∨
      ∃ items, t.accepts s.contents (s.test n) = .ok true ∧
        t.execute s.contents (s.test n) = .ok items ∧ (s.test n).length ≤ items.length ∧
        s' = ⟨s.replaced n items, 0, n, n + 1, s.applied + 1⟩ := by
  rw [Template.check] at h
  split at h
  · cases h
  · next hacc =>
    split at h
    · cases h
    · next items hx =>
      split at h
      · cases h
      · next hlen => exact .inr ⟨items, hacc, hx, Nat.not_lt.mp hlen, (Except.ok.inj h).symm⟩
  · exact .inl (Except.ok.inj h).symm

theorem At.check (h : t.At s pre win (item :: rest)) (hc : t.classes[s.matching]? = some c)
    (hi : isInstance item c = true) (hn : isNop item = false)
    (hm : s.matching + 1 = t.classes.length) (ht : t.check s pre.length = .ok s') :
    t.Next s s' pre win item rest := by
  have hwin := h.complete hc hi hn hm
  have htest : s.test pre.length = solid (win ++ [item]) := congrArg solid h.window
  obtain rfl | ⟨items, hacc, hx, hlen, rfl⟩ := check_ok ht
  · exact h.next_restart rfl rfl rfl rfl
  · rw [htest] at hacc hx hlen
    have hrep := refilled_replace _ _ hlen
    have hafter := h.replaced items
    have hlen' := hrep.length
    cases hw : replace (win ++ [item]) items with
    | nil =>
      rw [hw, List.length_append] at hlen'
      cases hlen'
    | cons x ys =>
      rw [hw] at hafter hrep hlen'
      refine .rewrite ⟨pre, _, rest, items, _, _, hwin, hacc, hx, List.take_prefix _ _, hrep,
        hafter⟩ rfl x (ys ++ rest) ?_ (at_restart hafter rfl rfl)
      rw [List.length_append, List.length_cons, List.length_singleton] at hlen'
      rw [List.length_append, Nat.succ.inj hlen']

theorem At.turn (h : t.At s pre win (item :: rest)) (ht : t.turn s item = .ok s') :
    t.Next s s' pre win item rest := by
  cases hn : isNop item with
  | true =>
    rw [turn_nop hn] at ht
    cases ht
    by_cases hm : s.matching = 0
    · exact h.next_restart rfl rfl hm (by rw [h.cur, h.win_nil hm]; rfl)
    · have hs : solid (win ++ [item]) = solid win := by
        rw [solid_append, solid_nop hn]
        exact List.append_nil _
      refine .grow rfl rfl (h.grow (fun hw => ?_) rfl rfl ?_ h.room ?_ ?_)
      · rw [h.matching, hw] at hm
        exact absurd rfl hm
      · exact hs ▸ h.matching
      · exact h.begins (Nat.pos_of_ne_zero hm)
      · exact hs ▸ h.classes
  | false =>
    cases hc : t.classes[s.matching]? with
    | none =>
      rw [Template.turn, if_neg (by rw [hn]; exact Bool.false_ne_true), hc] at ht
      cases ht
    | some c =>
      cases hi : isInstance item c with
      | true =>
        rw [turn_match hn hc hi, h.first_eq] at ht
        split at ht
        · next hm => exact h.check hc hi hn hm ht
        · next hm =>
          cases ht
          have hlt := (List.getElem?_eq_some_iff.mp hc).1
          refine .grow rfl rfl (h.grow (fun _ => hn) rfl rfl ?_ (.inl ?_) rfl
            (h.take_classes hc hi hn))
          · rw [solid_append, solid_item hn, List.length_append, ← h.matching]
            rfl
          · exact Nat.lt_of_le_of_ne hlt hm
      | false =>
        rw [turn_mismatch hn hc hi] at ht
        cases ht
        split
        · next hm =>
          exact h.next_restart rfl rfl rfl (congrArg Nat.succ (h.begins hm))
        · next hm =>
          have hm := Nat.eq_zero_of_not_pos hm
          exact h.next_restart rfl rfl hm (by rw [h.cur, h.win_nil hm]; rfl)

/-- The turn raises an exception: that of the template, or without a class to match or an item to
put in an `IndexError`. -/
def Fails (t : Template α κ) (s : Scan α) (e : PyError) : Prop :=
  (∃ items, t.Offers s items ∧ (t.accepts s.contents items = .error e ∨
    t.accepts s.contents items = .ok true ∧ (t.execute s.contents items = .error e ∨
      ∃ rs, t.execute s.contents items = .ok rs ∧ rs.length < items.length ∧ e = .indexError))) ∨
    e = .indexError ∧ t.classes = []

theorem check_fails (h : t.check s n = .error e) :
    t.accepts s.contents (s.test n) = .error e ∨ t.accepts s.contents (s.test n) = .ok true ∧
      (t.execute s.contents (s.test n) = .error e ∨
        ∃ rs, t.execute s.contents (s.test n) = .ok rs ∧ rs.length < (s.test n).length ∧
          e = .indexError) := by
  rw [Template.check] at h
  split at h
  · next hacc =>
    cases h
    exact .inl hacc
  · next hacc =>
    split at h
    · next hx =>
      cases h
      exact .inr ⟨hacc, .inl hx⟩
    · next rs hx =>
      split at h
      · next hlen => exact .inr ⟨hacc, .inr ⟨rs, hx, hlen, (Except.error.inj h).symm⟩⟩
      · cases h
  · cases h

theorem At.fails (h : t.At s pre win (item :: rest)) (ht : t.turn s item = .error e) :
    t.Fails s e := by
  cases hn : isNop item with
  | true =>
    rw [turn_nop hn] at ht
    cases ht
  | false =>
    cases hc : t.classes[s.matching]? with
    | none =>
      rw [Template.turn, if_neg (by rw [hn]; exact Bool.false_ne_true), hc] at ht
      cases ht
      exact .inr ⟨rfl, h.classes_at hc⟩
    | some c =>
      cases hi : isInstance item c with
      | false =>
        rw [turn_mismatch hn hc hi] at ht
        cases ht
      | true =>
        rw [turn_match hn hc hi] at ht
        by_cases hm : s.matching + 1 = t.classes.length
        · rw [if_pos hm] at ht
          exact .inl ⟨_, ⟨item, c, h.getElem, hn, hc, hi, hm, rfl⟩, check_fails ht⟩
        · rw [if_neg hm] at ht
          cases ht

theorem At.of_getElem (h : t.At s pre win rest) (hg : s.contents[s.cur]? = some item) :
    ∃ rest', rest = item :: rest' := by
  cases rest with
  | nil =>
    rw [List.getElem?_eq_none (by rw [h.length, h.cur]; exact Nat.le_refl _)] at hg
    cases hg
  | cons p rest =>
    cases h.getElem.symm.trans hg
    exact ⟨rest, rfl⟩

/-- In fewer than `b` turns the loop ends behind the last item, or a turn raises an exception. -/
def Ends (t : Template α κ) (b : Nat) (s : Scan α) : Prop :=
  ∃ s', Relation.ReflTransGen t.Turns s s' ∧
    ((s'.contents.length ≤ s'.cur ∧ ∀ k, b ≤ k → t.loop k s = .ok s') ∨
      ∃ e, t.Fails s' e ∧ ∀ k, b ≤ k → t.loop k s = .error e)

theorem ends_of_length (h : s.contents.length ≤ s.cur) (b : Nat) : t.Ends (b + 1) s := by
  refine ⟨s, .refl, .inl ⟨h, fun k hk => ?_⟩⟩
  cases k with
  | zero => exact absurd hk (Nat.not_succ_le_zero _)
  | succ k => rw [loop, List.getElem?_eq_none h]

theorem ends_of_fails (hg : s.contents[s.cur]? = some item) (ht : t.turn s item = .error e)
    (h : t.Fails s e) (b : Nat) : t.Ends (b + 1) s := by
  refine ⟨s, .refl, .inr ⟨e, h, fun k hk => ?_⟩⟩
  cases k with
  | zero => exact absurd hk (Nat.not_succ_le_zero _)
  | succ k =>
    rw [loop, hg]
    dsimp only
    rw [ht]

theorem Ends.turn (hg : s.contents[s.cur]? = some item) (ht : t.turn s item = .ok s')
    (h : t.Ends b s') : t.Ends (b + 1) s := by
  have hk {r : Except PyError (Scan α)} (hr : ∀ k, b ≤ k → t.loop k s' = r) (k : Nat)
      (hk : b + 1 ≤ k) : t.loop k s = r := by
    cases k with
    | zero => exact absurd hk (Nat.not_succ_le_zero _)
    | succ k =>
      rw [loop, hg]
      dsimp only
      rw [ht]
      exact hr k (Nat.le_of_succ_le_succ hk)
  obtain ⟨s₁, hs, hend⟩ := h
  refine ⟨s₁, .head ⟨item, hg, ht⟩ hs, ?_⟩
  exact hend.imp (fun h => ⟨h.1, hk h.2⟩) fun ⟨e, he, h⟩ => ⟨e, he, hk h⟩

/-- The turns that are left at most: for each item a match can start from, one over all items. -/
def rank (n : Nat) (win rest : List α) : Nat :=
  (win.length + rest.length) * (n + 1) + rest.length

theorem rank_grow (n : Nat) (win rest : List α) (item : α) :
    rank n (win ++ [item]) rest < rank n win (item :: rest) := by
  rw [rank, rank, List.length_append, List.length_singleton, List.length_cons, Nat.add_assoc,
    Nat.add_comm 1]
  exact Nat.add_lt_add_left (Nat.lt_succ_self _) _

theorem rank_restart (win rest : List α) (item : α) {ys : List α}
    (hl : ys.length = win.length + rest.length) (hn : ys.length ≤ n) :
    rank n [] ys < rank n win (item :: rest) := by
  rw [rank, rank, List.length_nil, Nat.zero_add, List.length_cons]
  calc ys.length * (n + 1) + ys.length < (ys.length + 1) * (n + 1) := by
        rw [Nat.succ_mul]
        omega
    _ = (win.length + (rest.length + 1)) * (n + 1) := by rw [hl, Nat.add_assoc]
    _ ≤ _ := Nat.le_add_right ..

theorem At.ends (h : t.At s pre win rest) (hn : s.contents.length = n)
    (hb : rank n win rest < b) : t.Ends b s := by
  induction b generalizing s pre win rest with
  | zero => exact absurd hb (Nat.not_lt_zero _)
  | succ b ih =>
    cases rest with
    | nil => exact ends_of_length (by rw [h.length, h.cur]; exact Nat.le_refl _) b
    | cons item rest =>
      have hl := h.length
      rw [hn, List.length_cons] at hl
      cases ht : t.turn s item with
      | error e => exact ends_of_fails h.getElem ht (h.fails ht) b
      | ok s' =>
        refine .turn h.getElem ht ?_
        cases h.turn ht with
        | grow _ _ h' =>
          refine ih h' ?_ (Nat.lt_of_lt_of_le (rank_grow ..) (Nat.le_of_lt_succ hb))
          rw [h'.length, List.length_append, List.length_singleton]
          omega
        | restart _ _ x ys hys h' | rewrite _ _ x ys hys h' =>
          refine ih h' ?_ (Nat.lt_of_lt_of_le (rank_restart win rest item hys ?_)
            (Nat.le_of_lt_succ hb))
          · rw [h'.length, List.length_append, List.length_singleton, List.length_nil]
            omega
          · omega

/-- What the loop reaches comes from the contents by as many applications as it counts. -/
theorem Reaches.at_ (h : t.Reaches contents s) :
    (∃ pre win rest, t.At s pre win rest) ∧ t.Rewritten contents s.applied s.contents := by
  induction h with
  | refl => exact ⟨⟨_, _, _, at_start t contents⟩, .start⟩
  | tail _ hs ih =>
    obtain ⟨⟨pre, win, rest, hat⟩, hrw⟩ := ih
    obtain ⟨item, hg, ht⟩ := hs
    obtain ⟨rest, rfl⟩ := hat.of_getElem hg
    cases hat.turn ht with
    | grow hc ha h | restart hc ha _ _ _ h =>
      rw [hc, ha]
      exact ⟨⟨_, _, _, h⟩, hrw⟩
    | rewrite hr ha _ _ _ h =>
      rw [ha]
      exact ⟨⟨_, _, _, h⟩, .next hrw hr⟩

theorem Reaches.turns (h : t.Reaches contents s) (hs : t.Turns s s') :
    s'.contents = s.contents ∧ s'.applied = s.applied ∨
      t.Rewrites s.contents s'.contents ∧ s'.applied = s.applied + 1 := by
  obtain ⟨⟨pre, win, rest, hat⟩, -⟩ := h.at_
  obtain ⟨item, hg, ht⟩ := hs
  obtain ⟨rest, rfl⟩ := hat.of_getElem hg
  cases hat.turn ht with
  | grow hc ha _ | restart hc ha _ _ _ _ => exact .inl ⟨hc, ha⟩
  | rewrite hr ha _ _ _ _ => exact .inr ⟨hr, ha⟩

theorem Reaches.offers (h : t.Reaches contents s) (ho : t.Offers s items) :
    ∃ pre win post, t.Window s.contents pre win post ∧ items = solid win := by
  obtain ⟨⟨pre, win, rest, hat⟩, -⟩ := h.at_
  obtain ⟨item, c, hg, hn, hc, hi, hm, rfl⟩ := ho
  obtain ⟨rest, rfl⟩ := hat.of_getElem hg
  exact ⟨pre, _, rest, hat.complete hc hi hn hm, by rw [hat.first_eq, Scan.test, hat.window]⟩

/-- The whole of the replacement is put in where it has as many items as the window. -/
theorem Rewrites.whole {before after : List α} (h : t.Rewrites before after)
    (hl : ∀ test items, t.execute before test = .ok items → items.length = test.length) :
    ∃ pre win post items win', t.Window before pre win post ∧
      t.execute before (solid win) = .ok items ∧ Refilled win items win' ∧
        after = pre ++ (win' ++ post) := by
  obtain ⟨pre, win, post, items, rs, win', hw, -, hx, hp, hr, ha⟩ := h
  have hrs : rs.length = (solid win).length := hr.solid
  rw [hp.eq_of_length (hrs.trans (hl _ _ hx).symm)] at hr
  exact ⟨pre, win, post, items, win', hw, hx, hr, ha⟩

/-- Applying a template to the contents of a function rewrites them faithfully. -/
structure Faithful (t : Template α κ) (contents : List α) : Prop where
  terminates : ∃ s, t.Reaches contents s ∧
    (s.contents.length ≤ s.cur ∧ t.apply contents = .ok s ∨
      ∃ e, t.Fails s e ∧ t.apply contents = .error e)
  bounded : ∀ k, fuel contents.length ≤ k → t.loop k (.start contents) = t.apply contents
  turns : ∀ s s', t.Reaches contents s → t.Turns s s' →
    s'.contents = s.contents ∧ s'.applied = s.applied ∨
      t.Rewrites s.contents s'.contents ∧ s'.applied = s.applied + 1
  applications : ∀ s, t.Reaches contents s → t.Rewritten contents s.applied s.contents
  windows : ∀ s items, t.Reaches contents s → t.Offers s items →
    ∃ pre win post, t.Window s.contents pre win post ∧ items = solid win

theorem apply_faithful (t : Template α κ) (contents : List α) : t.Faithful contents := by
  have hf : rank contents.length [] contents < fuel contents.length := by
    rw [rank, fuel, List.length_nil, Nat.zero_add, Nat.succ_mul]
    omega
  obtain ⟨s, hs, hend⟩ := (at_start t contents).ends rfl hf
  refine ⟨⟨s, hs, ?_⟩, fun k hk => ?_, fun _ _ h => h.turns, fun _ h => h.at_.2,
    fun _ _ h => h.offers⟩
  · exact hend.imp (fun h => ⟨h.1, h.2 _ (Nat.le_refl _)⟩)
      fun ⟨e, he, h⟩ => ⟨e, he, h _ (Nat.le_refl _)⟩
  · rcases hend with ⟨-, h⟩ | ⟨e, -, h⟩
    · rw [h k hk, apply, h _ (Nat.le_refl _)]
    · rw [h k hk, apply, h _ (Nat.le_refl _)]

end Template

end

end Peephole

end Cibyl
