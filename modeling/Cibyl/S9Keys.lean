import Cibyl.S9

namespace Cibyl
set_option autoImplicit true

namespace S9

theorem charDigit_neg : ∀ c : Byte, ¬ IsLetter c → charDigit c < 0 := by
  decide +kernel

/-- The loop gives up at the first character without a digit. -/
theorem keyLoop_neg {digit : Byte → Int} {cs : CString} (h : ∃ c ∈ cs, digit c < 0) :
    keyLoop digit i out cs = -1 := by
  induction cs generalizing i out with
  | nil =>
    obtain ⟨c, hc, -⟩ := h
    cases hc
  | cons c cs ih =>
    rw [keyLoop]
    split
    · rfl
    · next hn =>
      obtain ⟨d, hd, hneg⟩ := h
      rcases List.mem_cons.mp hd with rfl | hd
      · exact absurd hneg hn
      · exact ih ⟨d, hd, hneg⟩

theorem getKey_neg {w : CString} (h : (∃ c ∈ w, ¬ IsLetter c) ∨ 21 < w.length) : getKey w = -1 := by
  rw [getKey]
  split
  · rfl
  · next hle =>
    rcases h with ⟨c, hc, hn⟩ | hlt
    · exact keyLoop_neg ⟨c, hc, charDigit_neg c hn⟩
    · exact absurd hlt hle

/-- No two sequences of one length have the same digits. -/
theorem octal_sequence_inj {ds es : CString} (hd : ∀ d ∈ ds, IsDigit d) (he : ∀ d ∈ es, IsDigit d)
    (h : octal sequenceDigit ds = octal sequenceDigit es) : ds = es := by
  induction ds generalizing es with
  | nil =>
    cases es with
    | nil => rfl
    | cons e es => cases h
  | cons d ds ih =>
    cases es with
    | nil => cases h
    | cons e es =>
      rw [octal_cons, octal_cons] at h
      obtain ⟨hh, ht⟩ := List.cons.inj h
      have hvd := digit_value d (hd d (List.mem_cons_self ..))
      have hve := digit_value e (he e (List.mem_cons_self ..))
      rw [sequenceDigit, sequenceDigit, if_neg hvd.1, if_neg hve.1] at hh
      have hde : d = e := BitVec.eq_of_toInt_eq (by omega)
      rw [hde, ih (fun d hm => hd d (List.mem_cons_of_mem _ hm))
        (fun d hm => he d (List.mem_cons_of_mem _ hm)) ht]

theorem sequence_key_inj {ds es : CString} (hd : ∀ d ∈ ds, IsDigit d) (he : ∀ d ∈ es, IsDigit d)
    (hl : ds.length = es.length) (hn : es.length ≤ 21)
    (h : getKeyBySequence ds = getKeyBySequence es) : ds = es := by
  have hds := (sequence_key hd (hl ▸ hn)).1
  have hes := (sequence_key he hn).1
  rw [h, hes] at hds
  exact octal_sequence_inj hd he
    (octal_inj (sequence_digits hd) (sequence_digits he) hl hds.symm)

/-- The keys of words and of digit sequences agree exactly for the keypad digits, are not negative
and tell the sequences of one length apart; every other word has no key. -/
theorem s9_keys_agree :
    (∀ w ds : CString, (∀ c ∈ w, IsLetter c) → (∀ d ∈ ds, IsDigit d) → w.length = ds.length →
      ds.length ≤ 21 →
        (getKey w = getKeyBySequence ds ↔ w.map keypadDigit = ds.map some) ∧
          0 ≤ (getKey w).toInt ∧ 0 ≤ (getKeyBySequence ds).toInt) ∧
    (∀ ds es : CString, (∀ d ∈ ds, IsDigit d) → (∀ d ∈ es, IsDigit d) → ds.length = es.length →
      es.length ≤ 21 → ds ≠ es → getKeyBySequence ds ≠ getKeyBySequence es) ∧
    (∀ w : CString, (∃ c ∈ w, ¬ IsLetter c) ∨ 21 < w.length → getKey w = -1) := by
  refine ⟨fun w ds hw hd hl hn => ⟨letters_match_iff hw hd hl hn, ?_, ?_⟩, ?_, fun w => getKey_neg⟩
  · exact Int.not_lt.mp (letters_key hw (hl ▸ hn)).2
  · exact Int.not_lt.mp (sequence_key hd hn).2
  · intro ds es hd he hl hn hne h
    exact hne (sequence_key_inj hd he hl hn h)

/-- "cab" and "222". -/
theorem s9_keys_agree_cab : getKey [99, 97, 98] = getKeyBySequence [50, 50, 50] ∧
    getKeyBySequence [50, 51] ≠ getKeyBySequence [51, 50] ∧ getKey [99, 32, 98] = -1 := by
  refine ⟨?_, ?_, ?_⟩
  · exact (s9_keys_agree.1 [99, 97, 98] [50, 50, 50] (by decide) (by decide) rfl (by decide)).1.mpr
      (by decide)
  · exact s9_keys_agree.2.1 [50, 51] [51, 50] (by decide) (by decide) rfl (by decide) (by decide)
  · exact s9_keys_agree.2.2 [99, 32, 98] (.inl (by decide))

end S9

end Cibyl
