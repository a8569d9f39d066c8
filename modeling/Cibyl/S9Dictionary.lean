import Cibyl.S9

namespace Cibyl
set_option autoImplicit true

namespace S9

open CArray (read store zero realloc malloc search filled)

theorem mem_insertWord : v ∈ insertWord ws w ↔ v ∈ ws ∨ v = w := by
  rw [insertWord]
  split
  · next h => exact ⟨.inl, fun hv => hv.elim id (fun he => he ▸ h)⟩
  · rw [List.mem_append, List.mem_singleton]

theorem filter_insertWord (p : CString → Bool) (ws : List CString) (w : CString) :
    (insertWord ws w).filter p = if p w then insertWord (ws.filter p) w else ws.filter p := by
  by_cases hm : w ∈ ws
  · rw [insertWord, if_pos hm]
    split
    · next hp => rw [insertWord, if_pos (List.mem_filter.mpr ⟨hm, hp⟩)]
    · rfl
  · rw [insertWord, if_neg hm, List.filter_append]
    split
    · next hp =>
      have hn : w ∉ ws.filter p := fun h => hm (List.mem_filter.mp h).1
      rw [insertWord, if_neg hn, List.filter_cons_of_pos hp]
      rfl
    · next hp =>
      rw [List.filter_cons_of_neg hp]
      exact List.append_nil _

theorem filter_insertWord_of_not {p : CString → Bool} (h : p w = false) (ws : List CString) :
    (insertWord ws w).filter p = ws.filter p := by
  rw [filter_insertWord, h]
  rfl

theorem mem_dictionary : w ∈ dictionary added ↔ w ∈ added := by
  have h (ws : List CString) : w ∈ added.foldl insertWord ws ↔ w ∈ ws ∨ w ∈ added := by
    induction added generalizing ws with
    | nil => exact ⟨.inl, fun h => h.elim id (fun h => nomatch h)⟩
    | cons v added ih => rw [List.foldl_cons, ih, mem_insertWord, List.mem_cons, or_assoc]
  rw [dictionary, h]
  exact or_iff_right (List.not_mem_nil)

/-- The pointers that are allocated for the words of a key. -/
def capacity (maxWords : Nat) : Nat := if maxWords = 8 then 8 else maxWords + 1

/-- The key has the words `ws`. The room for them was doubled when the ninth came. -/
structure Key.Has (k : Key) (ws : List CString) : Prop where
  count : k.nWords = ws.length
  words : k.words = filled ws (capacity k.maxWords)
  fits : ws.length ≤ k.maxWords
  grown : k.maxWords ≠ 8 → 8 < ws.length
  max : 8 ≤ k.maxWords

theorem keyNew_has (key : DWord) : ∃ k, keyNew key 8 = some k ∧ k.key = key ∧ k.Has [] := by
  refine ⟨⟨key, 0, 8, filled [] 8⟩, ?_, rfl, ⟨rfl, rfl, Nat.zero_le _, fun h => absurd rfl h,
    Nat.le_refl _⟩⟩
  rw [keyNew, CArray.zero_malloc]
  rfl

variable {k : Key} {ws : List CString}

theorem Key.Has.fits_capacity (h : k.Has ws) : ws.length ≤ capacity k.maxWords := by
  have hf := h.fits
  rw [capacity]
  split <;> omega

/-- There is room for one more word after the array was made larger. -/
theorem Key.Has.room (h : k.Has ws) :
    ∃ k', growWords k = some k' ∧ k'.key = k.key ∧ k'.nWords = ws.length ∧
      k'.words = filled ws (capacity k'.maxWords) ∧ ws.length < capacity k'.maxWords ∧
      ws.length + 1 ≤ k'.maxWords ∧ (k'.maxWords ≠ 8 → 8 < ws.length + 1) ∧ 8 ≤ k'.maxWords := by
  have hcount := h.count
  have hfits := h.fits
  have hmax := h.max
  rw [growWords]
  by_cases hg : k.nWords + 1 > k.maxWords
  · have hc : capacity (k.maxWords * 2) = k.maxWords * 2 + 1 := if_neg (by omega)
    have hcap : capacity k.maxWords ≤ k.maxWords * 2 + 1 := by
      rw [capacity]
      split <;> omega
    have hz : zero (realloc (filled ws (capacity k.maxWords)) (k.maxWords * 2 + 1)) ws.length
        (k.maxWords * 2 / 2 + 1) = some (filled ws (k.maxWords * 2 + 1)) :=
      CArray.zero_realloc (Nat.le_refl _) h.fits_capacity hcap (by omega)
    rw [if_pos hg]
    simp only [h.words, hcount, hz, Option.map_some]
    refine ⟨_, rfl, rfl, rfl, ?_, ?_, ?_, ?_, ?_⟩
    · rw [hc]
    · dsimp only
      omega
    · dsimp only
      omega
    · intro _
      omega
    · dsimp only
      omega
  · rw [if_neg hg]
    refine ⟨k, rfl, rfl, hcount, h.words, ?_, by omega, ?_, hmax⟩
    · rw [capacity]
      split <;> omega
    · intro hne
      have := h.grown hne
      omega

/-- A key takes a word that it does not have yet. -/
theorem Key.Has.add (h : k.Has ws) (w : CString) :
    ∃ k', keyAddWord k w = some k' ∧ k'.key = k.key ∧ k'.Has (insertWord ws w) := by
  have hs : search (· == w) k.words k.nWords 0 = some (ws.findIdx? (· == w)) := by
    rw [h.words, h.count, CArray.search_filled]
  rw [keyAddWord, hs]
  cases hi : ws.findIdx? (· == w) with
  | some i =>
    obtain ⟨hlt, he, -⟩ := List.findIdx?_eq_some_iff_getElem.mp hi
    have hm : w ∈ ws := by
      rw [← beq_iff_eq.mp he]
      exact List.getElem_mem hlt
    refine ⟨k, rfl, rfl, ?_⟩
    rwa [insertWord, if_pos hm]
  | none =>
    have hm : w ∉ ws := by
      intro hm
      have hn := List.findIdx?_eq_none_iff.mp hi w hm
      rw [beq_self_eq_true] at hn
      cases hn
    have hlen : (ws ++ [w]).length = ws.length + 1 := List.length_append
    obtain ⟨k', hk, hkey, hn, hw, hc, hf, hg, hmax⟩ := h.room
    rw [insertWord, if_neg hm]
    simp only [bind, Option.bind, hk, hw, hn, CArray.store_filled_next hc]
    exact ⟨_, rfl, hkey, ⟨hlen.symm, rfl, hlen ▸ hf, fun hne => hlen ▸ hg hne, hmax⟩⟩

/-- The keys of one length have the words of the dictionary `dict` of that length. -/
structure Wordlen.HasKeys (wl : Wordlen) (ks : List Key) (dict : List CString) : Prop where
  count : wl.nKeys = ks.length
  keys : wl.keys = filled ks wl.maxKeys
  fits : ks.length < wl.maxKeys
  nodup : (ks.map Key.key).Nodup
  words : ∀ k ∈ ks, k.Has (dict.filter (fun w => getKey w = k.key))
  complete : ∀ w ∈ dict, getKey w ∈ ks.map Key.key

/-- As above, and no key is without words. -/
structure Wordlen.Has (wl : Wordlen) (dict : List CString) : Prop where
  hasKeys : ∃ ks, wl.HasKeys ks dict ∧ ∀ key ∈ ks.map Key.key, ∃ w ∈ dict, getKey w = key

theorem wordlenInit_has : ∃ wl, wordlenInit 8 = some wl ∧ wl.Has [] := by
  refine ⟨⟨0, 8, filled [] 8⟩, ?_, ⟨[], ?_, List.forall_mem_nil _⟩⟩
  · rw [wordlenInit, CArray.zero_malloc]
    rfl
  · exact ⟨rfl, rfl, by decide, List.nodup_nil, List.forall_mem_nil _, List.forall_mem_nil _⟩

variable {wl : Wordlen} {ks : List Key} {dict : List CString}

theorem Wordlen.HasKeys.lookup (h : wl.HasKeys ks dict) (key : DWord) :
    wordlenLookupKey wl key = some (ks.findIdx? (fun k => k.key == key)) := by
  rw [wordlenLookupKey, h.keys, h.count, CArray.search_filled]

/-- A key is added where there is none. -/
theorem Wordlen.HasKeys.addKey (h : wl.HasKeys ks dict) (hn : key ∉ ks.map Key.key) :
    ∃ wl' k, S9.addKey wl key = some (wl', ks.length) ∧ k.key = key ∧
      wl'.HasKeys (ks ++ [k]) dict := by
  obtain ⟨k, hk, hkey, hhas⟩ := keyNew_has key
  have hcount := h.count
  have hfits := h.fits
  have hlen : (ks ++ [k]).length = ks.length + 1 := List.length_append
  have hroom : ∃ wl' : Wordlen, growKeys wl = some wl' ∧ wl'.nKeys = ks.length ∧
      wl'.keys = filled ks wl'.maxKeys ∧ ks.length + 1 < wl'.maxKeys := by
    rw [growKeys]
    by_cases hg : wl.nKeys + 1 ≥ wl.maxKeys
    · have hz : zero (realloc (filled ks wl.maxKeys) (wl.maxKeys * 2)) (wl.maxKeys * 2 / 2)
          (wl.maxKeys * 2 / 2) = some (filled ks (wl.maxKeys * 2)) :=
        CArray.zero_realloc (by omega) (by omega) (by omega) (by omega)
      simp only [if_pos hg, h.keys, hz, Option.map_some]
      refine ⟨_, rfl, hcount, rfl, ?_⟩
      dsimp only
      omega
    · exact ⟨wl, if_neg hg, hcount, h.keys, by omega⟩
  obtain ⟨wl', hwl, hn', hkeys, hlt⟩ := hroom
  rw [S9.addKey]
  simp only [bind, Option.bind, hwl, hk, hkeys, hn',
    CArray.store_filled_next (show ks.length < wl'.maxKeys by omega)]
  refine ⟨_, k, rfl, hkey, ⟨hlen.symm, rfl, hlen ▸ hlt, ?_, ?_, ?_⟩⟩
  · rw [List.map_append, List.nodup_append]
    refine ⟨h.nodup, List.nodup_singleton _, ?_⟩
    rintro a ha b hb rfl
    rw [List.map_singleton, List.mem_singleton, hkey] at hb
    exact hn (hb ▸ ha)
  · intro k' hk'
    rcases List.mem_append.mp hk' with hk' | hk'
    · exact h.words k' hk'
    · cases List.mem_singleton.mp hk'
      have he : dict.filter (fun w => getKey w = k.key) = [] := by
        rw [List.filter_eq_nil_iff]
        intro w hw hkw
        rw [decide_eq_true_eq, hkey] at hkw
        exact hn (hkw ▸ h.complete w hw)
      rwa [he]
  · intro w hw
    rw [List.map_append]
    exact List.mem_append_left _ (h.complete w hw)

/-- A word is added to the key that it has. -/
theorem Wordlen.HasKeys.addWordTo (h : wl.HasKeys ks dict) (hi : ks[i]? = some k)
    (hk : k.key = getKey w) :
    ∃ wl' ks', S9.addWordTo wl i w = some wl' ∧ ks'.map Key.key = ks.map Key.key ∧
      wl'.HasKeys ks' (insertWord dict w) := by
  obtain ⟨hlt, hget⟩ := List.getElem?_eq_some_iff.mp hi
  have hm : k ∈ ks := hget ▸ List.getElem_mem hlt
  have hfits := h.fits
  obtain ⟨k', hadd, hkey, hhas⟩ := (h.words k hm).add w
  have hmap : (ks.set i k').map Key.key = ks.map Key.key := by
    rw [List.map_set, hkey]
    apply List.ext_getElem?
    intro n
    rw [List.getElem?_set, List.length_map, List.getElem?_map]
    split
    · next he => rw [← he, hi, Option.map_some]
    · rfl
  refine ⟨{ wl with keys := filled (ks.set i k') wl.maxKeys }, ks.set i k', ?_, hmap, ?_⟩
  · simp only [S9.addWordTo, bind, Option.bind, h.keys, CArray.read_filled, hi, hadd,
      CArray.store_filled hlt (Nat.le_of_lt hfits)]
  · refine ⟨h.count.trans (List.length_set ..).symm, rfl, (List.length_set ..).trans_lt hfits,
      hmap ▸ h.nodup, ?_, ?_⟩
    · intro j hj
      obtain ⟨n, hn, rfl⟩ := List.getElem_of_mem hj
      have hn' : n < ks.length := by rwa [List.length_set] at hn
      rw [List.getElem_set]
      split
      · rw [hkey, filter_insertWord, if_pos (decide_eq_true hk.symm)]
        exact hhas
      · next hne =>
        have hother : getKey w ≠ ks[n].key := by
          intro he
          have hkeys : (ks.map Key.key)[i]? = (ks.map Key.key)[n]? := by
            rw [List.getElem?_map, List.getElem?_map, hi, List.getElem?_eq_getElem hn',
              Option.map_some, Option.map_some, hk, he]
          exact hne ((List.getElem?_inj (by rwa [List.length_map]) h.nodup).mp hkeys)
        rw [filter_insertWord_of_not (decide_eq_false hother)]
        exact h.words _ (List.getElem_mem hn')
    · intro v hv
      rw [hmap]
      rcases mem_insertWord.mp hv with hv | rfl
      · exact h.complete v hv
      · exact List.mem_map.mpr ⟨k, hm, hk⟩

theorem Wordlen.Has.add (h : wl.Has dict) (hk : ¬ (getKey w).toInt < 0) :
    ∃ wl', wordlenAddWord wl w = some wl' ∧ wl'.Has (insertWord dict w) := by
  obtain ⟨ks, hks, hall⟩ := h.hasKeys
  have hkeep : ∀ key ∈ ks.map Key.key, ∃ v ∈ insertWord dict w, getKey v = key := by
    intro key hkey
    obtain ⟨v, hv, hv'⟩ := hall key hkey
    exact ⟨v, mem_insertWord.mpr (.inl hv), hv'⟩
  rw [wordlenAddWord, if_neg hk, findOrAddKey]
  cases hf : ks.findIdx? (fun k => k.key == getKey w) with
  | some i =>
    obtain ⟨hlt, he, -⟩ := List.findIdx?_eq_some_iff_getElem.mp hf
    obtain ⟨wl', ks', hadd, hmap, hhas⟩ := hks.addWordTo (List.getElem?_eq_getElem hlt)
      (beq_iff_eq.mp he)
    simp only [bind, Option.bind, hks.lookup, hf, hadd]
    exact ⟨wl', rfl, ks', hhas, hmap ▸ hkeep⟩
  | none =>
    have hn : getKey w ∉ ks.map Key.key := by
      intro hm
      obtain ⟨k, hkm, he⟩ := List.mem_map.mp hm
      have hne := List.findIdx?_eq_none_iff.mp hf k hkm
      rw [he, beq_self_eq_true] at hne
      cases hne
    obtain ⟨wl₁, k, haddKey, hkey, hks₁⟩ := hks.addKey hn
    have hget : (ks ++ [k])[ks.length]? = some k := by
      rw [List.getElem?_append_right (Nat.le_refl _), Nat.sub_self]
      rfl
    obtain ⟨wl', ks', hadd, hmap, hhas⟩ := hks₁.addWordTo hget hkey
    simp only [bind, Option.bind, hks.lookup, hf, haddKey, hadd]
    refine ⟨wl', rfl, ks', hhas, ?_⟩
    rw [hmap, List.map_append]
    intro key hm
    rcases List.mem_append.mp hm with hm | hm
    · exact hkeep key hm
    · rw [List.map_singleton, List.mem_singleton, hkey] at hm
      exact ⟨w, mem_insertWord.mpr (.inr rfl), hm.symm⟩

/-- Each table has the words of its length, and there are tables up to the largest length. -/
structure State.Has (s9 : State) (dict : List CString) : Prop where
  count : s9.nWordlens = s9.wordsByLength.length
  tables : ∀ (i : Nat) (wl : Wordlen), s9.wordsByLength[i]? = some wl →
    wl.Has (dict.filter (fun w => w.length = i))
  reach : ∀ i, i < s9.nWordlens ↔ ∃ w ∈ dict, i ≤ w.length

theorem init_has (expectedWords : Nat) : (init expectedWords).Has [] := by
  refine ⟨rfl, ?_, ?_⟩
  · intro i wl h
    cases h
  · intro i
    refine iff_of_false (Nat.not_lt_zero _) ?_
    rintro ⟨w, hw, -⟩
    cases hw

variable {s9 : State}

/-- The tables up to a length are there after `growLengths`, the new ones empty. -/
theorem State.Has.grow (h : s9.Has dict) (len : Nat) :
    ∃ s9', growLengths s9 len = some s9' ∧ s9'.nWordlens = s9'.wordsByLength.length ∧
      s9'.nWordlens = max s9.nWordlens (len + 1) ∧
      ∀ (i : Nat) (wl : Wordlen), s9'.wordsByLength[i]? = some wl →
        wl.Has (dict.filter (fun w => w.length = i)) := by
  have hcount := h.count
  rw [growLengths]
  by_cases hg : len ≥ s9.nWordlens
  · obtain ⟨wl₀, hinit, hwl₀⟩ := wordlenInit_has
    have hlen : (s9.wordsByLength ++ List.replicate (len + 1 - s9.nWordlens) wl₀).length =
        len + 1 := by
      rw [List.length_append, List.length_replicate]
      omega
    simp only [if_pos hg, getExpectedWords, hinit, Option.map_some]
    refine ⟨_, rfl, hlen.symm, ?_, ?_⟩
    · dsimp only
      omega
    · intro i wl hi
      dsimp only at hi
      rw [List.getElem?_append] at hi
      split at hi
      · exact h.tables i wl hi
      · next hge =>
        have he : dict.filter (fun w => w.length = i) = [] := by
          rw [List.filter_eq_nil_iff]
          intro w hw hwi
          have hlt := (h.reach i).mpr ⟨w, hw, Nat.le_of_eq (of_decide_eq_true hwi).symm⟩
          omega
        rw [List.getElem?_replicate] at hi
        split at hi
        · cases hi
          rwa [he]
        · cases hi
  · exact ⟨s9, if_neg hg, hcount, by omega, h.tables⟩

theorem State.Has.add (h : s9.Has dict) (hk : ¬ (getKey w).toInt < 0) :
    ∃ s9', addWord s9 w = some s9' ∧ s9'.Has (insertWord dict w) := by
  obtain ⟨s₁, hs₁, hcount, hn, htables⟩ := h.grow w.length
  have hlt : w.length < s₁.wordsByLength.length := by omega
  have hget := List.getElem?_eq_getElem hlt
  obtain ⟨wl', hwl', hhas⟩ := (htables _ _ hget).add hk
  refine ⟨{ s₁ with wordsByLength := s₁.wordsByLength.set w.length wl' }, ?_, ?_, ?_, ?_⟩
  · simp only [addWord, bind, Option.bind, hs₁, hget, hwl']
  · exact hcount.trans (List.length_set ..).symm
  · intro i wl hi
    dsimp only at hi
    rw [List.getElem?_set] at hi
    by_cases he : w.length = i
    · subst he
      rw [if_pos rfl, if_pos hlt] at hi
      cases hi
      rw [filter_insertWord, if_pos (decide_eq_true rfl)]
      exact hhas
    · rw [if_neg he] at hi
      rw [filter_insertWord_of_not (decide_eq_false he)]
      exact htables i wl hi
  · intro i
    dsimp only
    rw [hn, lt_max_iff, h.reach]
    constructor
    · rintro (⟨v, hv, hle⟩ | hlt)
      · exact ⟨v, mem_insertWord.mpr (.inl hv), hle⟩
      · exact ⟨w, mem_insertWord.mpr (.inr rfl), Nat.le_of_lt_succ hlt⟩
    · rintro ⟨v, hv, hle⟩
      rcases mem_insertWord.mp hv with hv | rfl
      · exact .inl ⟨v, hv, hle⟩
      · exact .inr (Nat.lt_succ_of_le hle)

/-- Words are never refused. -/
theorem State.Has.addWords (h : s9.Has dict) (hw : ∀ w ∈ added, IsWord w) :
    ∃ s9', S9.addWords s9 added = some s9' ∧ s9'.Has (added.foldl insertWord dict) := by
  induction added generalizing s9 dict with
  | nil => exact ⟨s9, rfl, h⟩
  | cons w added ih =>
    obtain ⟨s₁, hs₁, hhas⟩ := h.add (hw w (List.mem_cons_self ..)).key.2
    obtain ⟨s₂, hs₂, hhas₂⟩ := ih hhas (fun v hv => hw v (List.mem_cons_of_mem _ hv))
    exact ⟨s₂, by rw [S9.addWords, hs₁]; exact hs₂, hhas₂⟩

theorem rest_get {words : CArray CString} (h : (rest n ⟨words, i⟩).isSome) :
    i + n + 1 < words.length := by
  induction n generalizing i with
  | zero =>
    rw [rest, lookupNext] at h
    cases hg : words[i + 1]? with
    | none =>
      rw [hg] at h
      cases h
    | some s => exact (List.getElem?_eq_some_iff.mp hg).1
  | succ n ih =>
    rw [rest, lookupNext] at h
    cases hg : words[i + 1]? with
    | none =>
      rw [hg] at h
      cases h
    | some s =>
      rw [hg] at h
      cases s with
      | uninit => cases h
      | null => cases h
      | ptr w =>
        dsimp only [Option.map_some] at h
        rw [Option.isSome_map] at h
        have := ih h
        omega

/-- The calls return the words behind the iterator where there is room for a NULL. -/
theorem rest_filled {ws : List CString} (h : ws.length < cap) (hi : i < ws.length) :
    rest (ws.length - 1 - i) ⟨filled ws cap, i⟩ = some (ws.drop (i + 1)) := by
  obtain ⟨n, hn⟩ : ∃ n, ws.length - 1 - i = n := ⟨_, rfl⟩
  induction n generalizing i with
  | zero =>
    have hge : ¬ i + 1 < ws.length := by omega
    have hcap : i + 1 < cap := by omega
    rw [hn, rest, lookupNext, CArray.filled_get, dif_neg hge, if_pos hcap, Option.map_some,
      List.drop_of_length_le (by omega)]
  | succ n ih =>
    have hlt : i + 1 < ws.length := by omega
    have hn' : ws.length - 1 - (i + 1) = n := by omega
    have hr := ih hlt hn'
    rw [hn'] at hr
    rw [hn, rest, lookupNext, CArray.filled_get, dif_pos hlt, Option.map_some]
    dsimp only
    rw [hr, Option.map_some, List.getElem_cons_drop]

/-- A key gives back its words unless they fill the array, which has no room for a NULL then. -/
theorem Key.Has.rest_iff (h : k.Has (w :: ws)) :
    (rest (k.nWords - 1) ⟨k.words, 0⟩).map (fun vs => (k.nWords, w :: vs)) =
      some ((w :: ws).length, w :: ws) ↔ (w :: ws).length ≠ 8 := by
  have hfits := h.fits
  have hgrown := h.grown
  have hmax := h.max
  rw [h.words, h.count]
  constructor
  · intro hr he
    have hm : k.maxWords = 8 := by
      by_contra hne
      have := hgrown hne
      omega
    have hsome :
        (rest ((w :: ws).length - 1) ⟨filled (w :: ws) (capacity k.maxWords), 0⟩).isSome := by
      rw [← Option.isSome_map, hr]
      rfl
    have hlt := rest_get hsome
    rw [CArray.filled_length h.fits_capacity, hm, capacity, if_pos rfl] at hlt
    omega
  · intro hne
    have hlt : (w :: ws).length < capacity k.maxWords := by
      rw [capacity]
      split <;> omega
    have hr := rest_filled (i := 0) hlt (Nat.zero_lt_succ _)
    rw [Nat.sub_zero] at hr
    rw [hr]
    rfl

/-- The words of one length that have the key of the sequence. -/
theorem matching_eq {ds : CString} (hw : ∀ w ∈ added, IsWord w) (hd : ∀ d ∈ ds, IsDigit d) :
    matching added ds = ((dictionary added).filter (fun w => w.length = ds.length)).filter
      (fun w => getKey w = getKeyBySequence ds) := by
  rw [matching, List.filter_filter]
  apply List.filter_congr
  intro w hm
  have hword := hw w (mem_dictionary.mp hm)
  rw [← Bool.decide_and, decide_eq_decide]
  constructor
  · intro he
    have hl : w.length = ds.length := by
      rw [← List.length_map (f := keypadDigit), he, List.length_map]
    exact ⟨(hword.matches_iff hd hl).mpr he, hl⟩
  · rintro ⟨hk, hl⟩
    exact (hword.matches_iff hd hl).mp hk

theorem enumerate_long {ds : CString} (s9 : State) (h : 21 < ds.length) :
    enumerate s9 ds = some (0, []) := by
  have hneg : (getKeyBySequence ds).toInt < 0 := by
    rw [getKeyBySequence, if_pos (by omega)]
    decide
  rw [enumerate, lookup, if_pos hneg]
  rfl

/-- A sequence that is longer than every word reads a table that is not there. -/
theorem State.Has.enumerate_outside {ds : CString} (h : s9.Has dict)
    (hk : ¬ (getKeyBySequence ds).toInt < 0) (hl : ¬ ∃ w ∈ dict, ds.length ≤ w.length) :
    enumerate s9 ds = none := by
  have hge : s9.wordsByLength.length ≤ ds.length := by
    rw [← h.count]
    exact Nat.le_of_not_lt (mt (h.reach _).mp hl)
  rw [enumerate, lookup, if_neg hk, List.getElem?_eq_none hge]
  rfl

theorem State.Has.enumerate_iff {ds : CString} (h : s9.Has dict)
    (hk : ¬ (getKeyBySequence ds).toInt < 0) (hl : ∃ w ∈ dict, ds.length ≤ w.length)
    (hm : (dict.filter (fun w => w.length = ds.length)).filter
      (fun w => getKey w = getKeyBySequence ds) = ms) :
    enumerate s9 ds = some (ms.length, ms) ↔ ms.length ≠ 8 := by
  have hlt : ds.length < s9.wordsByLength.length := by
    rw [← h.count]
    exact (h.reach _).mpr hl
  have hget := List.getElem?_eq_getElem hlt
  obtain ⟨ks, hks, hall⟩ := (h.tables _ _ hget).hasKeys
  rw [enumerate, lookup, if_neg hk]
  simp only [bind, Option.bind, hget, hks.lookup]
  cases hf : ks.findIdx? (fun k => k.key == getKeyBySequence ds) with
  | none =>
    have he : ms = [] := by
      rw [← hm, List.filter_eq_nil_iff]
      intro w hw hkw
      obtain ⟨k, hkm, hkk⟩ := List.mem_map.mp (hks.complete w hw)
      have hne := List.findIdx?_eq_none_iff.mp hf k hkm
      rw [hkk, of_decide_eq_true hkw, beq_self_eq_true] at hne
      cases hne
    subst he
    exact iff_of_true rfl (by decide)
  | some i =>
    obtain ⟨hi, hke, -⟩ := List.findIdx?_eq_some_iff_getElem.mp hf
    have hke := beq_iff_eq.mp hke
    have hhas := hks.words _ (List.getElem_mem hi)
    rw [hke, hm] at hhas
    have hne : ms ≠ [] := by
      rintro rfl
      obtain ⟨w, hw, hkw⟩ := hall _ (List.mem_map_of_mem (List.getElem_mem hi))
      rw [List.filter_eq_nil_iff] at hm
      exact hm w hw (decide_eq_true (hkw.trans hke))
    have hfirst : ks[i].words[0]? = some (.ptr (ms.head hne)) := by
      have hpos := List.length_pos_of_ne_nil hne
      rw [hhas.words, CArray.filled_get, dif_pos hpos, List.head_eq_getElem]
    have hcons := List.cons_head_tail hne
    have hr := Key.Has.rest_iff (hcons.symm ▸ hhas)
    rw [hcons] at hr
    simp only [hks.keys, CArray.read_filled, List.getElem?_eq_getElem hi, hfirst]
    exact hr

/-- A lookup and the calls for the next words return the words of the sequence, and NULL, where the
sequence is not longer than every word and there are not just eight of them; longer sequences than
a key can hold are refused. -/
theorem s9_enumerate_iff (expectedWords : Nat) {added : List CString}
    (hw : ∀ w ∈ added, IsWord w) {ds : CString} (hd : ∀ d ∈ ds, IsDigit d) :
    ∃ s9, addWords (init expectedWords) added = some s9 ∧
      (enumerate s9 ds = some ((matching added ds).length, matching added ds) ↔
        21 < ds.length ∨
          (∃ w ∈ added, ds.length ≤ w.length) ∧ (matching added ds).length ≠ 8) := by
  obtain ⟨s9, hs9, hhas⟩ := (init_has expectedWords).addWords hw
  have hmem : (∃ w ∈ dictionary added, ds.length ≤ w.length) ↔
      ∃ w ∈ added, ds.length ≤ w.length := by
    simp only [mem_dictionary]
  refine ⟨s9, hs9, ?_⟩
  by_cases hlong : 21 < ds.length
  · have hnil : matching added ds = [] := by
      rw [matching, List.filter_eq_nil_iff]
      intro w hm he
      have hle := (hw w (mem_dictionary.mp hm)).le
      have hl := congrArg List.length (of_decide_eq_true he)
      rw [List.length_map, List.length_map] at hl
      omega
    rw [enumerate_long s9 hlong, hnil]
    exact iff_of_true rfl (.inl hlong)
  · have hk := (sequence_key hd (Nat.le_of_not_lt hlong)).2
    rw [or_iff_right hlong]
    by_cases hl : ∃ w ∈ dictionary added, ds.length ≤ w.length
    · rw [hhas.enumerate_iff hk hl (matching_eq hw hd).symm]
      exact (and_iff_right (hmem.mp hl)).symm
    · rw [hhas.enumerate_outside hk hl]
      exact iff_of_false (fun h => nomatch h) (fun h => hl (hmem.mpr h.1))

theorem s9_enumerate_cab :
    ∃ s9, addWords (init 0) [[99, 97, 98], [98, 97, 100], [97, 98, 98]] = some s9 ∧
      (enumerate s9 [50, 50, 50] = some
          ((matching [[99, 97, 98], [98, 97, 100], [97, 98, 98]] [50, 50, 50]).length,
            matching [[99, 97, 98], [98, 97, 100], [97, 98, 98]] [50, 50, 50]) ↔
        21 < [(50 : Byte), 50, 50].length ∨
          (∃ w ∈ [[(99 : Byte), 97, 98], [98, 97, 100], [97, 98, 98]],
            [(50 : Byte), 50, 50].length ≤ w.length) ∧
          (matching [[99, 97, 98], [98, 97, 100], [97, 98, 98]] [50, 50, 50]).length ≠ 8) := by
  have hw (w : CString) (h : w ∈ [[(99 : Byte), 97, 98], [98, 97, 100], [97, 98, 98]]) :
      IsWord w := by
    rcases List.mem_cons.mp h with rfl | h
    · exact ⟨by decide, by decide, by decide⟩
    · rcases List.mem_cons.mp h with rfl | h
      · exact ⟨by decide, by decide, by decide⟩
      · cases List.mem_singleton.mp h
        exact ⟨by decide, by decide, by decide⟩
  exact s9_enumerate_iff 0 hw (by decide)

/-- With eight words of one sequence the calls do not end; a sequence that is longer than every
word reads behind the tables. -/
theorem s9_enumerate_lost :
    ((addWords (init 0) [[97, 97], [97, 98], [97, 99], [98, 97], [98, 98], [98, 99], [99, 97],
        [99, 98]]).bind (enumerate · [50, 50]) = none ∧
      (matching [[97, 97], [97, 98], [97, 99], [98, 97], [98, 98], [98, 99], [99, 97], [99, 98]]
        [50, 50]).length = 8) ∧
    ((addWords (init 0) [[97]]).bind (enumerate · [50, 50]) = none ∧
      matching [[97]] [50, 50] = []) := by
  decide +kernel

end S9

end Cibyl
