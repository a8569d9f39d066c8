import Cibyl.Jvm

namespace Cibyl
set_option autoImplicit true

namespace CallTableMethod

/-- The chain of range tests of an entry point: the number of the first range with the address, or
that of the method behind the last `else`. Java compares the addresses as signed integers. -/
def route : List (Word × Word) → Word → Nat
  | [], _ => 0
  | r :: ranges, address =>
    if r.1.toInt ≤ address.toInt ∧ address.toInt < r.2.toInt then 0 else route ranges address + 1

/-- Addresses from 2 GiB on are negative in Java. -/
def Negative (address : Word) : Prop := 2 ^ 31 ≤ address.toNat

instance (address : Word) : Decidable (Negative address) := inferInstanceAs (Decidable (_ ≤ _))

theorem toInt_of_negative {x : Word} (h : Negative x) : x.toInt = (x.toNat : Int) - 2 ^ 32 := by
  rw [BitVec.toInt_eq_toNat_cond, if_neg (by rw [Negative] at h; omega)]
  rfl

theorem toInt_of_not_negative {x : Word} (h : ¬ Negative x) : x.toInt = x.toNat := by
  rw [BitVec.toInt_eq_toNat_cond, if_pos (by rw [Negative] at h; omega)]

/-- How Java compares two addresses. -/
theorem toInt_le_iff {x y : Word} : x.toInt ≤ y.toInt ↔
    (Negative x ∧ ¬ Negative y) ∨ ((Negative x ↔ Negative y) ∧ x.toNat ≤ y.toNat) := by
  have hx := x.isLt
  have hy := y.isLt
  by_cases hnx : Negative x <;> by_cases hny : Negative y <;>
    simp only [hnx, hny, toInt_of_negative, toInt_of_not_negative, not_false_eq_true] <;>
    rw [Negative] at hnx hny <;> simp <;> omega

theorem toInt_lt_iff {x y : Word} : x.toInt < y.toInt ↔
    (Negative x ∧ ¬ Negative y) ∨ ((Negative x ↔ Negative y) ∧ x.toNat < y.toNat) := by
  have hx := x.isLt
  have hy := y.isLt
  by_cases hnx : Negative x <;> by_cases hny : Negative y <;>
    simp only [hnx, hny, toInt_of_negative, toInt_of_not_negative, not_false_eq_true] <;>
    rw [Negative] at hnx hny <;> simp <;> omega

section

variable {b : Nat → Word} {k : Nat} {x : Word}

/-- The ranges between consecutive bounds. -/
def rangesOf (b : Nat → Word) (k : Nat) : List (Word × Word) :=
  (List.range k).map (fun i => (b i, b (i + 1)))

/-- The address lies in range `i`. -/
def InRange (b : Nat → Word) (i : Nat) (x : Word) : Prop :=
  (b i).toInt ≤ x.toInt ∧ x.toInt < (b (i + 1)).toInt

theorem route_eq_iff (b : Nat → Word) (k : Nat) (x : Word) (j : Nat) (hj : j ≤ k) :
    route (rangesOf b k) x = j ↔ (∀ i, i < j → ¬ InRange b i x) ∧ (j < k → InRange b j x) := by
  induction k generalizing b j with
  | zero =>
    cases Nat.le_zero.mp hj
    exact iff_of_true rfl
      ⟨fun i hi => absurd hi (Nat.not_lt_zero i), fun h => absurd h (Nat.lt_irrefl 0)⟩
  | succ k ih =>
    have hr : rangesOf b (k + 1) = (b 0, b 1) :: rangesOf (fun i => b (i + 1)) k := by
      rw [rangesOf, List.range_succ_eq_map, List.map_cons, List.map_map]
      rfl
    rw [hr, route]
    cases j with
    | zero =>
      split
      · next h => exact iff_of_true rfl ⟨fun i hi => absurd hi (Nat.not_lt_zero i), fun _ => h⟩
      · next h =>
        exact iff_of_false (Nat.succ_ne_zero _) (fun hc => h (hc.2 (Nat.zero_lt_succ k)))
    | succ j =>
      split
      · next h =>
        exact iff_of_false (Ne.symm (Nat.succ_ne_zero _)) (fun hc => hc.1 0 (Nat.zero_lt_succ j) h)
      · next h =>
        rw [Nat.add_right_cancel_iff, ih (fun i => b (i + 1)) j (Nat.le_of_succ_le_succ hj)]
        refine and_congr ⟨fun hc i hi => ?_, fun hc i hi => hc (i + 1) (Nat.succ_lt_succ hi)⟩
          ⟨fun hc hj => hc (Nat.lt_of_succ_lt_succ hj), fun hc hj => hc (Nat.succ_lt_succ hj)⟩
        cases i with
        | zero => exact h
        | succ i => exact hc i (Nat.lt_of_succ_lt_succ hi)

theorem route_le (ranges : List (Word × Word)) (x : Word) : route ranges x ≤ ranges.length := by
  induction ranges with
  | nil => exact Nat.le_refl 0
  | cons r ranges ih =>
    rw [route]
    split
    · exact Nat.zero_le _
    · exact Nat.succ_le_succ ih

theorem rangesOf_length (b : Nat → Word) (k : Nat) : (rangesOf b k).length = k := by
  rw [rangesOf, List.length_map, List.length_range]

end

/-- Addresses `a` below `n` in groups of `size`, of which `last` is the last one, and a bound for
each group that is not below its first address. -/
structure Groups (a b : Nat → Word) (n size last : Nat) : Prop where
  size_pos : 0 < size
  last_pos : 0 < last
  fits : (last + 1) * size ≤ n
  ascending : ∀ p q, p < q → q < n → (a p).toNat < (a q).toNat
  above : ∀ j, j ≤ last → (a (j * size)).toNat ≤ (b j).toNat

/-- The bounds are the first addresses of the groups, on one side of 2 GiB. The first bound may also
be a negative one above all the addresses, where the first address is none. -/
structure Bounded (a b : Nat → Word) (n size last : Nat) : Prop where
  first : b 0 = a 0 ∨ ¬ Negative (a 0) ∧ Negative (b 0) ∧ ∀ p, p < n → (a p).toNat < (b 0).toNat
  later : ∀ j, 0 < j → j ≤ last → b j = a (j * size)
  side : ∀ j, j ≤ last → (Negative (a (j * size)) ↔ Negative (a 0))

section

variable {a b : Nat → Word} {n size last : Nat}

theorem Groups.first_lt (h : Groups a b n size last) (hj : j ≤ last) : j * size < n := by
  have := h.size_pos
  have hle := Nat.mul_le_mul_right size (Nat.succ_le_succ hj)
  have hm : (j + 1) * size = j * size + size := Nat.succ_mul j size
  have hf := h.fits
  have hle' : (j + 1) * size ≤ (last + 1) * size := hle
  omega

theorem Groups.ascending_le (h : Groups a b n size last) (hp : p ≤ q) (hq : q < n) :
    (a p).toNat ≤ (a q).toNat := by
  rcases Nat.lt_or_eq_of_le hp with hp | rfl
  · exact Nat.le_of_lt (h.ascending p q hp hq)
  · exact Nat.le_refl _

theorem Groups.firsts_lt (h : Groups a b n size last) (hi : i < j) (hj : j ≤ last) :
    (a (i * size)).toNat < (a (j * size)).toNat :=
  h.ascending _ _ (Nat.mul_lt_mul_of_pos_right hi h.size_pos) (h.first_lt hj)

/-- The group of an address. -/
theorem Groups.group (h : Groups a b n size last) (p : Nat) :
    min (p / size) last * size ≤ p ∧
      (min (p / size) last < last → p < (min (p / size) last + 1) * size) := by
  refine ⟨(Nat.mul_le_mul_right size (Nat.min_le_left ..)).trans (Nat.div_mul_le_self p size),
    fun hlt => ?_⟩
  have hm : min (p / size) last = p / size := by omega
  rw [hm, Nat.mul_comm]
  exact Nat.lt_mul_div_succ p h.size_pos

theorem Groups.group_first (h : Groups a b n size last) (hj : j ≤ last) :
    min (j * size / size) last = j := by
  rw [Nat.mul_div_cancel j h.size_pos, Nat.min_eq_left hj]

theorem inRange_iff : InRange b i x ↔
    ((Negative (b i) ∧ ¬ Negative x) ∨ ((Negative (b i) ↔ Negative x) ∧ (b i).toNat ≤ x.toNat)) ∧
      ((Negative x ∧ ¬ Negative (b (i + 1))) ∨
        ((Negative x ↔ Negative (b (i + 1))) ∧ x.toNat < (b (i + 1)).toNat)) := by
  rw [InRange, toInt_le_iff, toInt_lt_iff]

/-- With such bounds every address is in its own range. -/
theorem Bounded.routes (hb : Bounded a b n size last) (h : Groups a b n size last) (hp : p < n) :
    route (rangesOf b last) (a p) = min (p / size) last := by
  obtain ⟨hlow, hhigh⟩ := h.group p
  rw [route_eq_iff _ _ _ _ (Nat.min_le_right ..)]
  generalize hj : min (p / size) last = j at *
  have hjl : j ≤ last := hj ▸ Nat.min_le_right ..
  have h0 := h.ascending_le (Nat.zero_le p) hp
  refine ⟨fun i hi hin => ?_, fun hlt => ?_⟩
  · have hnext := hb.later (i + 1) (Nat.succ_pos i) (by omega)
    have hside := hb.side (i + 1) (by omega)
    have hle : (a ((i + 1) * size)).toNat ≤ (a p).toNat :=
      h.ascending_le ((Nat.mul_le_mul_right size hi).trans hlow) hp
    rw [inRange_iff, hnext] at hin
    rcases Nat.eq_zero_or_pos i with rfl | hpos
    · have hfirst := hb.first
      rcases hfirst with hfirst | ⟨hn, hn', hall⟩
      · rw [hfirst] at hin
        simp only [Negative] at *
        omega
      · have := hall p hp
        simp only [Negative] at *
        omega
    · have hthis := hb.later i hpos (by omega)
      have hside' := hb.side i (by omega)
      rw [hthis] at hin
      simp only [Negative] at *
      omega
  · have hnext := hb.later (j + 1) (Nat.succ_pos j) hlt
    have hside := hb.side (j + 1) hlt
    have hup := h.ascending p _ (hhigh hlt) (h.first_lt hlt)
    have hdown := h.ascending_le hlow hp
    rw [inRange_iff, hnext]
    rcases Nat.eq_zero_or_pos j with rfl | hpos
    · rcases hb.first with hfirst | ⟨hn, hn', -⟩
      · rw [hfirst]
        simp only [Negative] at *
        omega
      · simp only [Negative] at *
        omega
    · have hthis := hb.later j hpos hjl
      have hside' := hb.side j hjl
      rw [hthis]
      simp only [Negative] at *
      omega

/-- What the routing says of the first address of each group. -/
structure FirstsRouted (a b : Nat → Word) (size last : Nat) : Prop where
  here : ∀ j, j < last → InRange b j (a (j * size))
  notBefore : ∀ i, i < last → ¬ InRange b i (a (last * size))

theorem Groups.firstsRouted (h : Groups a b n size last)
    (hr : ∀ p, p < n → route (rangesOf b last) (a p) = min (p / size) last) :
    FirstsRouted a b size last := by
  have hroute (j : Nat) (hj : j ≤ last) : route (rangesOf b last) (a (j * size)) = j :=
    (hr _ (h.first_lt hj)).trans (h.group_first hj)
  exact ⟨fun j hj => ((route_eq_iff _ _ _ _ hj.le).mp (hroute j hj.le)).2 hj,
    ((route_eq_iff _ _ _ _ (Nat.le_refl _)).mp (hroute last (Nat.le_refl _))).1⟩

/-- The later bounds are the first addresses of their groups. -/
theorem FirstsRouted.later (hf : FirstsRouted a b size last) (h : Groups a b n size last)
    (hpos : 0 < j) (hj : j ≤ last) : b j = a (j * size) := by
  obtain ⟨i, rfl⟩ : ∃ i, j = i + 1 := ⟨j - 1, by omega⟩
  have hprev := inRange_iff.mp (hf.here i (by omega))
  have hlt : (a (i * size)).toNat < (a ((i + 1) * size)).toNat :=
    h.firsts_lt (Nat.lt_succ_self i) hj
  have habove := h.above (i + 1) hj
  apply BitVec.eq_of_toNat_eq
  rcases Nat.lt_or_eq_of_le hj with hj | hj
  · have hthis := inRange_iff.mp (hf.here (i + 1) hj)
    simp only [Negative] at *
    omega
  · have hlast := hf.notBefore i (by omega)
    rw [inRange_iff, ← hj] at hlast
    simp only [Negative] at *
    omega

/-- The groups begin on one side of 2 GiB. -/
theorem FirstsRouted.side (hf : FirstsRouted a b size last) (h : Groups a b n size last)
    (hj : j ≤ last) : Negative (a (j * size)) ↔ Negative (a 0) := by
  induction j with
  | zero => rw [Nat.zero_mul]
  | succ j ih =>
    have hside := ih (by omega)
    have hprev := inRange_iff.mp (hf.here j hj)
    have hlater : b (j + 1) = a ((j + 1) * size) := hf.later h (Nat.succ_pos j) hj
    have hlt : (a (j * size)).toNat < (a ((j + 1) * size)).toNat :=
      h.firsts_lt (Nat.lt_succ_self j) hj
    rw [hlater] at hprev
    simp only [Negative] at *
    omega

/-- The first bound is the first address, or a negative one above all of them. -/
theorem FirstsRouted.first (hf : FirstsRouted a b size last) (h : Groups a b n size last)
    (hr : ∀ p, p < n → route (rangesOf b last) (a p) = min (p / size) last) :
    b 0 = a 0 ∨ ¬ Negative (a 0) ∧ Negative (b 0) ∧ ∀ p, p < n → (a p).toNat < (b 0).toNat := by
  have hthis := inRange_iff.mp (hf.here 0 h.last_pos)
  have habove := h.above 0 (Nat.zero_le _)
  rw [Nat.zero_mul] at hthis habove
  by_cases hn : Negative (a 0) ↔ Negative (b 0)
  · left
    apply BitVec.eq_of_toNat_eq
    simp only [Negative] at *
    omega
  · right
    have hna : ¬ Negative (a 0) := by
      simp only [Negative] at *
      omega
    have hnb : Negative (b 0) := by
      simp only [Negative] at *
      omega
    refine ⟨hna, hnb, fun p hp => ?_⟩
    by_contra hge
    -- such an address would be taken by the first range, and is in the last group
    have hnp : Negative (a p) := by
      simp only [Negative] at *
      omega
    have hlast : last * size ≤ p := by
      by_contra hlt
      have hup := h.ascending_le (Nat.le_of_lt (Nat.lt_of_not_le hlt))
        (h.first_lt (Nat.le_refl last))
      have hside := hf.side h (Nat.le_refl last)
      simp only [Negative] at *
      omega
    have hgroup : min (p / size) last = last := by
      have := (Nat.le_div_iff_mul_le h.size_pos).mpr hlast
      omega
    have hnot := ((route_eq_iff _ _ _ _ (Nat.min_le_right ..)).mp (hr p hp)).1 0
      (by rw [hgroup]; exact h.last_pos)
    rw [inRange_iff, hf.later h Nat.one_pos h.last_pos] at hnot
    have hside : Negative (a (1 * size)) ↔ Negative (a 0) := hf.side h h.last_pos
    simp only [Negative] at *
    omega

/-- Every address is sent to its group just where the bounds are right. -/
theorem routes_iff (h : Groups a b n size last) :
    (∀ p, p < n → route (rangesOf b last) (a p) = min (p / size) last) ↔
      Bounded a b n size last := by
  refine ⟨fun hr => ?_, fun hb p hp => hb.routes h hp⟩
  have hf := h.firstsRouted hr
  exact ⟨hf.first h hr, fun j hpos hj => hf.later h hpos hj, fun j hj => hf.side h hj⟩

end

end CallTableMethod

end Cibyl
