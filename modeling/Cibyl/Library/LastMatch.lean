import Mathlib.Data.List.Induction

namespace Cibyl
set_option autoImplicit true

/-- The last element of a list that has the property. -/
def lastMatch (p : α → Bool) (l : List α) : Option α := l.reverse.find? p

section

variable {p q : α → Bool} {a : α} {l l' : List α}

@[simp] theorem lastMatch_nil (p : α → Bool) : lastMatch p [] = none := rfl

theorem lastMatch_concat (p : α → Bool) (l : List α) (a : α) :
    lastMatch p (l ++ [a]) = if p a then some a else lastMatch p l := by
  rw [lastMatch, List.reverse_concat, List.find?_cons]
  cases p a <;> rfl

theorem lastMatch_isSome : (lastMatch p l).isSome = l.any p := by
  rw [Bool.eq_iff_iff, lastMatch, List.find?_isSome, List.any_eq_true]
  simp only [List.mem_reverse]

/-- A table that each element enters under its keys holds the last one for every key. -/
theorem foldl_table {α κ : Type} (enters : α → κ → Bool) (l : List α) (k : κ) :
    l.foldl (fun table a k => if enters a k then some a else table k) (fun _ => none) k =
      lastMatch (fun a => enters a k) l := by
  induction l using List.reverseRec with
  | nil => rfl
  | append_singleton l a ih =>
    rw [List.foldl_append, lastMatch_concat, ← ih]
    rfl

theorem lastMatch_append_left (l : List α) (h : ∀ b ∈ l', p b = false) :
    lastMatch p (l ++ l') = lastMatch p l := by
  induction l' using List.reverseRec with
  | nil => rw [List.append_nil]
  | append_singleton l' b ih =>
    rw [← List.append_assoc, lastMatch_concat, h b (by simp), if_neg Bool.false_ne_true]
    exact ih fun c hc => h c (by simp [hc])

/-- Elements that do not match may be taken out or put in. -/
theorem lastMatch_flatMap {f : α → List α}
    (h : ∀ a ∈ l, f a = [a] ∧ p a = q a ∨ q a = false ∧ ∀ b ∈ f a, p b = false) :
    lastMatch p (l.flatMap f) = lastMatch q l := by
  induction l using List.reverseRec with
  | nil => rfl
  | append_singleton l a ih =>
    have hi := ih fun b hb => h b (List.mem_append_left _ hb)
    rw [List.flatMap_append, List.flatMap_singleton, lastMatch_concat]
    rcases h a (List.mem_append_right _ (List.mem_singleton_self a)) with ⟨hf, he⟩ | ⟨hq, hn⟩
    · rw [hf, lastMatch_concat, he, hi]
    · rw [lastMatch_append_left _ hn, hq, if_neg Bool.false_ne_true, hi]

theorem of_lastMatch (h : lastMatch p l = some a) : p a = true := List.find?_some h

/-- The places of a list that ends with `c`. -/
theorem forall_concat_iff {c : α} {P : List α → α → List α → Prop} :
    (∀ as a bs, l ++ [c] = as ++ a :: bs → P as a bs) ↔
      P l c [] ∧ ∀ as a bs, l = as ++ a :: bs → P as a (bs ++ [c]) := by
  constructor
  · intro h
    refine ⟨h l c [] rfl, fun as a bs hl => h as a (bs ++ [c]) ?_⟩
    rw [hl, List.append_assoc]
    rfl
  · rintro ⟨hlast, h⟩ as a bs hl
    rcases List.eq_nil_or_concat bs with rfl | ⟨bs, b, rfl⟩
    · obtain ⟨rfl, hc⟩ := List.append_inj' hl rfl
      cases hc
      exact hlast
    · rw [List.concat_eq_append, ← List.cons_append, ← List.append_assoc] at hl
      obtain ⟨hl', hc⟩ := List.append_inj' hl rfl
      cases hc
      rw [List.concat_eq_append]
      exact h as a bs hl'

/-- Two properties have the same last match if, behind each element that only one of them holds of,
there is one that both hold of. -/
theorem lastMatch_eq_iff : lastMatch p l = lastMatch q l ↔
    ∀ as a bs, l = as ++ a :: bs → p a ≠ q a → ∃ b ∈ bs, p b = true ∧ q b = true := by
  induction l using List.reverseRec with
  | nil =>
    refine ⟨fun _ as a bs h => ?_, fun _ => rfl⟩
    cases as <;> cases h
  | append_singleton l c ih =>
    -- the last element decides, unless neither property holds of it
    rw [forall_concat_iff, lastMatch_concat, lastMatch_concat]
    cases hp : p c <;> cases hq : q c
    · rw [if_neg Bool.false_ne_true, if_neg Bool.false_ne_true, ih]
      simp [hp, hq]
    · refine iff_of_false (fun h => ?_) fun h => ?_
      · rw [if_neg Bool.false_ne_true, if_pos rfl] at h
        exact Bool.false_ne_true (hp.symm.trans (of_lastMatch h))
      · obtain ⟨b, hb, -⟩ := h.1 Bool.false_ne_true
        cases hb
    · refine iff_of_false (fun h => ?_) fun h => ?_
      · rw [if_neg Bool.false_ne_true, if_pos rfl] at h
        exact Bool.false_ne_true (hq.symm.trans (of_lastMatch h.symm))
      · obtain ⟨b, hb, -⟩ := h.1 (Ne.symm Bool.false_ne_true)
        cases hb
    · simp [hp, hq]

end

/-- A place in the list that gives at most one element for each. -/
theorem flatMap_split {f : α → List α} {l pre' post' : List α} {n : α}
    (hf : ∀ a, (f a).length ≤ 1) (h : l.flatMap f = pre' ++ n :: post') :
    ∃ pre a post, l = pre ++ a :: post ∧ pre.flatMap f = pre' ∧ f a = [n] := by
  induction l generalizing pre' with
  | nil =>
    cases pre' <;> cases h
  | cons a l ih =>
    rw [List.flatMap_cons] at h
    match hfa : f a, hf a with
    | [], _ =>
      rw [hfa] at h
      obtain ⟨pre, b, post, rfl, hp, hb⟩ := ih h
      exact ⟨a :: pre, b, post, rfl, by rw [List.flatMap_cons, hfa, hp]; rfl, hb⟩
    | [x], _ =>
      rw [hfa] at h
      cases pre' with
      | nil =>
        cases h
        exact ⟨[], a, l, rfl, rfl, hfa⟩
      | cons y pre' =>
        obtain ⟨rfl, h'⟩ := List.cons.inj h
        obtain ⟨pre, b, post, rfl, hp, hb⟩ := ih h'
        exact ⟨a :: pre, b, post, rfl, by rw [List.flatMap_cons, hfa, hp]; rfl, hb⟩

end Cibyl
