import Cibyl.Library.Calendar
import Cibyl.CRunTime

namespace Cibyl
set_option autoImplicit true

open Calendar

namespace Time

/-- `struct tm`. -/
structure Tm where
  sec : Int
  min : Int
  hour : Int
  mday : Int
  mon : Int
  year : Int
  wday : Int
  yday : Int
  isdst : Int
  deriving DecidableEq, Repr

def secsPerHour : Int := 60 * 60

def secsPerDay : Int := secsPerHour * 24

/-- `__isleap`. -/
def isleap (year : Int) : Bool :=
  year.tmod 4 == 0 && (year.tmod 100 != 0 || year.tmod 400 == 0)

/-- `__mon_yday`, for normal years and leap years. -/
def monYday (leap : Bool) : List Int :=
  if leap then [0, 31, 60, 91, 121, 152, 182, 213, 244, 274, 305, 335, 366]
  else [0, 31, 59, 90, 120, 151, 181, 212, 243, 273, 304, 334, 365]

/-- `DIV`. -/
def div (a b : Int) : Int := a.tdiv b - if a.tmod b < 0 then 1 else 0

def leapsThruEndOf (y : Int) : Int := div y 4 - div y 100 + div y 400

/-- The loop over a negative rest of the day. -/
def borrow (days rem : Int) : Int × Int :=
  if rem < 0 then borrow (days - 1) (rem + secsPerDay) else (days, rem)
termination_by (-rem).toNat
decreasing_by
  unfold secsPerDay secsPerHour
  omega

/-- The loop over a rest that is a day or more. -/
def carry (days rem : Int) : Int × Int :=
  if rem ≥ secsPerDay then carry (days + 1) (rem - secsPerDay) else (days, rem)
termination_by rem.toNat
decreasing_by
  unfold secsPerDay secsPerHour at *
  omega

/-- The loop that corrects the year. -/
def correctYear : Nat → Int → Int → Option (Int × Int)
  | 0, _, _ => none
  | fuel + 1, days, y =>
    if days < 0 ∨ days ≥ (if isleap y then 366 else 365) then
      let yg := y + days.tdiv 365 - if days.tmod 365 < 0 then 1 else 0
      correctYear fuel
        (days - ((yg - y) * 365 + leapsThruEndOf (yg - 1) - leapsThruEndOf (y - 1))) yg
    else some (days, y)

/-- The loop that goes down to the month. -/
def month (ip : List Int) (days : Int) : Nat → Nat
  | 0 => 0
  | y + 1 => if days < ip.getD (y + 1) 0 then month ip days y else y + 1

/-- `__offtime`. -/
def offtime (t offset : Int) (tp : Tm) : Option Tm :=
  let (days, rem) := borrow (t.tdiv secsPerDay) (t.tmod secsPerDay + offset)
  let (days, rem) := carry days rem
  let wday := (4 + days).tmod 7
  match correctYear (days.natAbs + 2) days 1970 with
  | none => none
  | some (yday, y) =>
    let ip := monYday (isleap y)
    let mon := month ip yday 11
    some { tp with
      hour := rem.tdiv secsPerHour
      min := (rem.tmod secsPerHour).tdiv 60
      sec := (rem.tmod secsPerHour).tmod 60
      wday := if wday < 0 then wday + 7 else wday
      year := y - 1900
      yday := yday
      mon := mon
      mday := yday - ip.getD mon 0 + 1 }

/-- `t` is the static variable of the function. -/
def gmtime (t : Tm) (timep : Int) : Option Tm := offtime timep 0 t

/-- `_mktime`. -/
def mktime (year mon day hour min sec : Word) : Word :=
  let (mon, year) := if 0 ≥ (mon - 2).toInt then (mon - 2 + 12, year - 1) else (mon - 2, year)
  (((year / 4 - year / 100 + year / 400 + 367 * mon / 12 + day + year * 365 - 719499) * 24 + hour)
    * 60 + min) * 60 + sec

def timegm (tm : Tm) : Int :=
  (mktime (BitVec.ofInt 32 (tm.year + 1900)) (BitVec.ofInt 32 (tm.mon + 1))
    (BitVec.ofInt 32 tm.mday) (BitVec.ofInt 32 tm.hour) (BitVec.ofInt 32 tm.min)
    (BitVec.ofInt 32 tm.sec)).toInt

section

variable {days rem y : Int}

/-- `DIV` rounds down. -/
theorem div_eq (a : Int) {b : Int} (hb : 0 < b) : div a b = a / b := by
  have hr := Int.emod_nonneg a hb.ne'
  have hr' := Int.emod_lt_of_pos a hb
  unfold div
  rw [Int.tdiv_eq_ediv, Int.tmod_eq_emod]
  by_cases h : 0 ≤ a ∨ b ∣ a
  · rw [if_pos h, if_pos h, if_neg (by omega)]
    omega
  · rw [if_neg h, if_neg h, Int.sign_eq_one_of_pos hb, if_pos (by omega)]
    omega

theorem tmod_eq_zero (a : Int) {b : Int} (hb : 0 < b) : a.tmod b = 0 ↔ a % b = 0 := by
  have hr := Int.emod_lt_of_pos a hb
  rw [Int.tmod_eq_emod]
  by_cases h : 0 ≤ a ∨ b ∣ a
  · rw [if_pos h, Int.natCast_zero, Int.sub_zero]
  · rw [if_neg h]
    have hd : a % b ≠ 0 := fun he => h (.inr (Int.dvd_of_emod_eq_zero he))
    omega

theorem leapsThruEndOf_eq (y : Int) : leapsThruEndOf y = leaps y := by
  unfold leapsThruEndOf leaps
  rw [div_eq y (by decide), div_eq y (by decide), div_eq y (by decide)]

theorem isleap_iff (y : Int) : isleap y = true ↔ IsLeap y := by
  rw [isleap, IsLeap, Bool.and_eq_true, Bool.or_eq_true, beq_iff_eq, beq_iff_eq, bne_iff_ne, ne_eq,
    tmod_eq_zero y (by decide), tmod_eq_zero y (by decide), tmod_eq_zero y (by decide)]

theorem isleap_length (y : Int) : (if isleap y then 366 else 365) = yearLength y := by
  unfold yearLength
  simp only [isleap_iff]

theorem secsPerDay_eq : secsPerDay = 86400 := rfl

theorem borrow_spec (days rem : Int) : 0 ≤ (borrow days rem).2 ∧
    (borrow days rem).1 * secsPerDay + (borrow days rem).2 = days * secsPerDay + rem := by
  fun_induction borrow days rem with
  | case1 days rem h ih =>
    refine ⟨ih.1, ih.2.trans ?_⟩
    rw [secsPerDay_eq]
    omega
  | case2 days rem h => exact ⟨Int.not_lt.mp h, rfl⟩

theorem carry_spec (h : 0 ≤ rem) : 0 ≤ (carry days rem).2 ∧ (carry days rem).2 < secsPerDay ∧
    (carry days rem).1 * secsPerDay + (carry days rem).2 = days * secsPerDay + rem := by
  fun_induction carry days rem with
  | case1 days rem hr ih =>
    obtain ⟨h₀, h₁, h₂⟩ := ih (Int.sub_nonneg.mpr hr)
    refine ⟨h₀, h₁, h₂.trans ?_⟩
    rw [secsPerDay_eq]
    omega
  | case2 days rem hr => exact ⟨h, Int.not_le.mp hr, rfl⟩

theorem guess_eq (days y : Int) :
    (y + days.tdiv 365 - if days.tmod 365 < 0 then 1 else 0) = y + days / 365 := by
  rw [Int.add_sub_assoc, ← div, div_eq days (by decide)]

/-- The days that the guess is off by. -/
theorem correct_days (days y : Int) : ∃ l, days / 365 * 365 + leapsThruEndOf (y + days / 365 - 1) -
      leapsThruEndOf (y - 1) = daysBefore (y + days / 365) - daysBefore y ∧
    daysBefore (y + days / 365) - daysBefore y = days / 365 * 365 + l ∧
    (0 ≤ days → 0 ≤ l ∧ l ≤ days / 365 / 4 + 1) ∧
    (days < 0 → l ≤ 0 ∧ -l ≤ -(days / 365) / 4 + 1) := by
  refine ⟨leaps (y + days / 365 - 1) - leaps (y - 1), ?_, ?_, ?_, ?_⟩
  · rw [leapsThruEndOf_eq, leapsThruEndOf_eq]
    unfold daysBefore
    omega
  · unfold daysBefore
    omega
  · intro h
    have hl := leaps_between (show y - 1 ≤ y + days / 365 - 1 by omega)
    omega
  · intro h
    have hl := leaps_between (show y + days / 365 - 1 ≤ y - 1 by omega)
    omega

theorem correctYear_done (hf : 0 < fuel) (h₀ : 0 ≤ days) (h₁ : days < yearLength y) :
    correctYear fuel days y = some (days, y) := by
  obtain ⟨fuel, rfl⟩ := Nat.exists_eq_succ_of_ne_zero hf.ne'
  rw [correctYear, isleap_length, if_neg (by omega)]

/-- The loop ends in the year of the day. -/
theorem correctYear_spec (h : days.natAbs + 1 < fuel) :
    ∃ d y', correctYear fuel days y = some (d, y') ∧ 0 ≤ d ∧ d < yearLength y' ∧
      daysBefore y' + d = daysBefore y + days := by
  induction fuel generalizing days y with
  | zero => omega
  | succ fuel ih =>
    have hlen : 365 ≤ yearLength y := by
      unfold yearLength
      split
      · decide
      · decide
    rw [correctYear, isleap_length]
    split
    · next hd =>
      dsimp only
      obtain ⟨l, hcode, hl, hpos, hneg⟩ := correct_days days y
      rw [guess_eq, add_sub_cancel_left, hcode]
      generalize hdays : days - (daysBefore (y + days / 365) - daysBefore y) = days'
      by_cases hq : days / 365 = -1
      · -- the year before holds the day
        have hprev := daysBefore_succ (y - 1)
        rw [Int.sub_add_cancel] at hprev
        rw [hq] at hdays hl ⊢
        rw [← Int.sub_eq_add_neg] at hdays hl ⊢
        have h₀ : 0 ≤ days' := by omega
        have h₁ : days' < yearLength (y - 1) := by omega
        exact ⟨days', y - 1, correctYear_done (by omega) h₀ h₁, h₀, h₁, by omega⟩
      · have hless : days'.natAbs + 1 < fuel := by omega
        obtain ⟨d, y', hc, h₀, h₁, hsum⟩ := @ih days' (y + days / 365) hless
        exact ⟨d, y', hc, h₀, h₁, by omega⟩
    · next hd =>
      rw [not_or, Int.not_lt, Int.not_le] at hd
      exact ⟨days, y, rfl, hd.1, hd.2, rfl⟩

theorem month_spec {ip : List Int} (n : Nat) (h₀ : ip.getD 0 0 ≤ days)
    (h₁ : days < ip.getD (n + 1) 0) : month ip days n ≤ n ∧ ip.getD (month ip days n) 0 ≤ days ∧
      days < ip.getD (month ip days n + 1) 0 := by
  induction n with
  | zero => exact ⟨Nat.le_refl _, h₀, h₁⟩
  | succ n ih =>
    rw [month]
    split
    · next h =>
      obtain ⟨hle, h⟩ := ih h
      exact ⟨Nat.le_succ_of_le hle, h⟩
    · next h => exact ⟨Nat.le_refl _, Int.not_lt.mp h, h₁⟩

theorem weekday_eq (days : Int) : (if (4 + days).tmod 7 < 0 then (4 + days).tmod 7 + 7 else
    (4 + days).tmod 7) = (4 + days) % 7 := by
  have hr := Int.emod_nonneg (4 + days) (show (7 : Int) ≠ 0 by decide)
  have hr' := Int.emod_lt_of_pos (4 + days) (show (0 : Int) < 7 by decide)
  rw [Int.tmod_eq_emod]
  by_cases h : 0 ≤ 4 + days ∨ 7 ∣ 4 + days
  · rw [if_pos h, Int.natCast_zero, Int.sub_zero, if_neg (Int.not_lt.mpr hr)]
  · rw [if_neg h, if_pos (by omega)]
    omega

end

namespace Tm

/-- The days before the month in its year. -/
def monthStart (tm : Tm) (m : Int) : Int := (monYday (isleap (tm.year + 1900))).getD m.toNat 0

/-- The days since the start of 1970. -/
def days (tm : Tm) : Int := daysBefore (tm.year + 1900) - daysBefore 1970 + tm.yday

def seconds (tm : Tm) : Int := ((tm.days * 24 + tm.hour) * 60 + tm.min) * 60 + tm.sec

/-- A date and a time of the day, with the day of the year and of the week that belong to it. -/
structure Valid (tm : Tm) : Prop where
  sec : 0 ≤ tm.sec ∧ tm.sec < 60
  min : 0 ≤ tm.min ∧ tm.min < 60
  hour : 0 ≤ tm.hour ∧ tm.hour < 24
  mon : 0 ≤ tm.mon ∧ tm.mon < 12
  mday : 1 ≤ tm.mday ∧ tm.monthStart tm.mon + tm.mday ≤ tm.monthStart (tm.mon + 1)
  yday : tm.yday = tm.monthStart tm.mon + tm.mday - 1
  wday : tm.wday = (4 + tm.days) % 7

end Tm

/-- The fields are those of the second, `offset` seconds later. -/
theorem offtime_spec (t offset : Int) (tp : Tm) : ∃ tm, offtime t offset tp = some tm ∧ tm.Valid ∧
    tm.isdst = tp.isdst ∧ tm.seconds = t + offset := by
  obtain ⟨hb₀, hb⟩ := borrow_spec (t.tdiv secsPerDay) (t.tmod secsPerDay + offset)
  have hsum : t.tdiv secsPerDay * secsPerDay + (t.tmod secsPerDay + offset) = t + offset := by
    have h := Int.mul_tdiv_add_tmod t secsPerDay
    rw [Int.mul_comm] at h
    omega
  rw [hsum] at hb
  unfold offtime
  generalize borrow (t.tdiv secsPerDay) (t.tmod secsPerDay + offset) = x at hb₀ hb ⊢
  obtain ⟨days, rem⟩ := x
  obtain ⟨hr₀, hr₁, hc⟩ := @carry_spec days rem hb₀
  rw [hb] at hc
  dsimp only
  generalize carry days rem = x at hr₀ hr₁ hc ⊢
  obtain ⟨d, r⟩ := x
  dsimp only at hr₀ hr₁ hc ⊢
  obtain ⟨yday, y, hy, hy₀, hy₁, hday⟩ :=
    correctYear_spec (y := 1970) (Nat.lt_succ_self (d.natAbs + 1))
  rw [hy]
  dsimp only
  have hr : 0 ≤ r % secsPerHour := Int.emod_nonneg r (by decide)
  rw [Int.tdiv_eq_ediv_of_nonneg hr₀, Int.tmod_eq_emod_of_nonneg hr₀, weekday_eq,
    Int.tdiv_eq_ediv_of_nonneg hr, Int.tmod_eq_emod_of_nonneg hr]
  have hhour : secsPerHour = 3600 := rfl
  rw [secsPerDay_eq] at hr₁ hc
  rw [hhour]
  have hm₀ : (monYday (isleap y)).getD 0 0 ≤ yday := by
    cases isleap y <;> exact hy₀
  have hm₁ : yday < (monYday (isleap y)).getD (11 + 1) 0 := by
    rw [← isleap_length] at hy₁
    cases hl : isleap y <;> rw [hl] at hy₁ <;> exact hy₁
  obtain ⟨hle, hlo, hhi⟩ := month_spec 11 hm₀ hm₁
  generalize month (monYday (isleap y)) yday 11 = m at hle hlo hhi ⊢
  have hday' : daysBefore (y - 1900 + 1900) - daysBefore 1970 + yday = d := by
    rw [Int.sub_add_cancel]
    omega
  refine ⟨_, rfl, ?_, rfl, ?_⟩
  · have hnext : ((m : Int) + 1).toNat = m + 1 := by omega
    constructor
    case mday =>
      simp only [Tm.monthStart, Int.sub_add_cancel, Int.toNat_natCast, hnext]
      omega
    case yday =>
      simp only [Tm.monthStart, Int.sub_add_cancel, Int.toNat_natCast]
      omega
    case wday => simp only [Tm.days, hday']
    all_goals dsimp only
    all_goals omega
  · simp only [Tm.seconds, Tm.days, hday']
    omega

theorem udiv_ofInt {a b : Int} (ha : 0 ≤ a) (ha' : a < 2 ^ 32) (hb : 0 ≤ b) (hb' : b < 2 ^ 32) :
    BitVec.ofInt 32 a / BitVec.ofInt 32 b = BitVec.ofInt 32 (a / b) := by
  obtain ⟨n, rfl⟩ := Int.eq_ofNat_of_zero_le ha
  obtain ⟨m, rfl⟩ := Int.eq_ofNat_of_zero_le hb
  have hle : n / m ≤ n := Nat.div_le_self n m
  rw [← Int.natCast_ediv, BitVec.ofInt_natCast, BitVec.ofInt_natCast, BitVec.ofInt_natCast]
  apply BitVec.eq_of_toNat_eq
  rw [BitVec.toNat_udiv, BitVec.toNat_ofNat, BitVec.toNat_ofNat, BitVec.toNat_ofNat,
    Nat.mod_eq_of_lt (by omega), Nat.mod_eq_of_lt (by omega), Nat.mod_eq_of_lt (by omega)]

theorem ofInt_sub (a b : Int) :
    BitVec.ofInt 32 (a - b) = BitVec.ofInt 32 a - BitVec.ofInt 32 b := by
  rw [Int.sub_eq_add_neg, BitVec.ofInt_add, BitVec.ofInt_neg, BitVec.sub_eq_add_neg]

/-- The seconds that `_mktime` counts from a month that starts with March. -/
def monthSeconds (y m day hour min sec : Int) : Int :=
  (((y / 4 - y / 100 + y / 400 + 367 * m / 12 + day + y * 365 - 719499) * 24 + hour) * 60 + min)
    * 60 + sec

theorem mktime_ofInt {y m : Int} (hy : 1 ≤ y) (hy' : y < 2 ^ 32) (hm : 1 ≤ m) (hm' : m ≤ 12)
    (day hour min sec : Int) :
    mktime (BitVec.ofInt 32 y) (BitVec.ofInt 32 m) (BitVec.ofInt 32 day) (BitVec.ofInt 32 hour)
      (BitVec.ofInt 32 min) (BitVec.ofInt 32 sec) = BitVec.ofInt 32 (
        if m ≤ 2 then monthSeconds (y - 1) (m + 10) day hour min sec
        else monthSeconds y (m - 2) day hour min sec) := by
  have hcore : ∀ y m : Int, 0 ≤ y → y < 2 ^ 32 → 0 ≤ m → m ≤ 12 →
      (((BitVec.ofInt 32 y / 4 - BitVec.ofInt 32 y / 100 + BitVec.ofInt 32 y / 400 +
        367 * BitVec.ofInt 32 m / 12 + BitVec.ofInt 32 day + BitVec.ofInt 32 y * 365 - 719499) * 24
          + BitVec.ofInt 32 hour) * 60 + BitVec.ofInt 32 min) * 60 + BitVec.ofInt 32 sec =
        BitVec.ofInt 32 (monthSeconds y m day hour min sec) := by
    intro y m hy hy' hm hm'
    have h₄ : BitVec.ofInt 32 (y / 4) = BitVec.ofInt 32 y / 4 :=
      (udiv_ofInt hy hy' (by decide) (by decide)).symm
    have h₁₀₀ : BitVec.ofInt 32 (y / 100) = BitVec.ofInt 32 y / 100 :=
      (udiv_ofInt hy hy' (by decide) (by decide)).symm
    have h₄₀₀ : BitVec.ofInt 32 (y / 400) = BitVec.ofInt 32 y / 400 :=
      (udiv_ofInt hy hy' (by decide) (by decide)).symm
    have h₁₂ : BitVec.ofInt 32 (367 * m / 12) = BitVec.ofInt 32 (367 * m) / 12 :=
      (udiv_ofInt (by omega) (by omega) (by decide) (by decide)).symm
    simp only [monthSeconds, BitVec.ofInt_add, BitVec.ofInt_mul, ofInt_sub, h₄, h₁₀₀, h₄₀₀, h₁₂,
      BitVec.ofInt_ofNat]
    rfl
  have hmon : BitVec.ofInt 32 m - 2 = BitVec.ofInt 32 (m - 2) := (ofInt_sub m 2).symm
  have hint : (BitVec.ofInt 32 (m - 2)).toInt = m - 2 :=
    BitVec.toInt_ofInt_eq_self (by decide) (by omega) (by omega)
  rw [mktime, hmon, hint]
  by_cases h : m ≤ 2
  · have hyear : BitVec.ofInt 32 y - 1 = BitVec.ofInt 32 (y - 1) := (ofInt_sub y 1).symm
    have hmon' : BitVec.ofInt 32 (m - 2) + 12 = BitVec.ofInt 32 (m + 10) := by
      rw [show m + 10 = m - 2 + 12 by omega, BitVec.ofInt_add]
      rfl
    rw [if_pos (by omega), if_pos h, hyear, hmon']
    exact hcore (y - 1) (m + 10) (by omega) (by omega) (by omega) (by omega)
  · rw [if_neg (by omega), if_neg h]
    exact hcore y (m - 2) (by omega) hy' (by omega) (by omega)

/-- From March on, a month starts after so many times 367/12 days. -/
theorem monYday_eq (leap : Bool) : ∀ k < 12, (monYday leap).getD k 0 =
    if k ≤ 1 then 367 * ((k : Int) + 11) / 12 - 336
    else 367 * ((k : Int) - 1) / 12 + 29 + if leap then 1 else 0 := by
  cases leap
  · decide
  · decide

theorem monthSeconds_eq {tm : Tm} (h : tm.Valid) :
    (if tm.mon + 1 ≤ 2 then
      monthSeconds (tm.year + 1900 - 1) (tm.mon + 1 + 10) tm.mday tm.hour tm.min tm.sec
    else monthSeconds (tm.year + 1900) (tm.mon + 1 - 2) tm.mday tm.hour tm.min tm.sec) =
      tm.seconds := by
  obtain ⟨hm₀, hm₁⟩ := h.mon
  have hy := h.yday
  have hleap := leaps_eq (tm.year + 1900)
  have h₁₉₇₀ : daysBefore 1970 = 719527 := rfl
  have hstart := monYday_eq (isleap (tm.year + 1900)) tm.mon.toNat (by omega)
  obtain ⟨k, hk⟩ := Int.eq_ofNat_of_zero_le hm₀
  rw [hk] at hstart ⊢
  rw [Tm.monthStart, hk] at hy
  rw [Int.toNat_natCast] at hstart hy
  rw [hstart] at hy
  unfold Tm.seconds Tm.days
  simp only [isleap_iff] at hy
  unfold monthSeconds daysBefore at *
  rw [hy]
  unfold leaps at *
  split
  · rw [if_pos (by omega)]
    omega
  · rw [if_neg (by omega)]
    split
    · next hl =>
      rw [if_pos hl] at hleap
      omega
    · next hl =>
      rw [if_neg hl] at hleap
      omega

theorem timegm_seconds {tm : Tm} (h : tm.Valid) (hy : 1 ≤ tm.year + 1900)
    (hy' : tm.year + 1900 < 2 ^ 32) : timegm tm = (BitVec.ofInt 32 tm.seconds).toInt := by
  have hm := h.mon
  rw [timegm, mktime_ofInt hy hy' (by omega) (by omega), monthSeconds_eq h]

theorem monYday_mono (leap : Bool) : ∀ j < 13, ∀ i ≤ j,
    (monYday leap).getD i 0 ≤ (monYday leap).getD j 0 := by
  cases leap
  · decide
  · decide

section

variable {tm tm' : Tm}

theorem Tm.Valid.yday_bounds (h : tm.Valid) :
    0 ≤ tm.yday ∧ tm.yday < yearLength (tm.year + 1900) := by
  obtain ⟨hm₀, hm₁⟩ := h.mon
  obtain ⟨hd₀, hd₁⟩ := h.mday
  have hy := h.yday
  have hlow := monYday_mono (isleap (tm.year + 1900)) tm.mon.toNat (by omega) 0 (Nat.zero_le _)
  have hhigh := monYday_mono (isleap (tm.year + 1900)) 12 (by decide) (tm.mon + 1).toNat (by omega)
  have hfirst : (monYday (isleap (tm.year + 1900))).getD 0 0 = 0 := by
    cases isleap (tm.year + 1900) <;> rfl
  have hlast : (monYday (isleap (tm.year + 1900))).getD 12 0 = yearLength (tm.year + 1900) := by
    rw [← isleap_length]
    cases isleap (tm.year + 1900) <;> rfl
  rw [hfirst] at hlow
  rw [hlast] at hhigh
  unfold Tm.monthStart at hy hd₁
  constructor
  · omega
  · omega

/-- Two dates of a year are in the same month if they are the same day of the year. -/
theorem Tm.Valid.month_unique (h : tm.Valid) (h' : tm'.Valid) (hy : tm.year = tm'.year)
    (hd : tm.yday = tm'.yday) : tm.mon = tm'.mon ∧ tm.mday = tm'.mday := by
  have hbefore : ∀ {u v : Tm}, u.Valid → v.Valid → u.year = v.year → u.yday = v.yday →
      ¬ u.mon < v.mon := by
    intro u v hu hv hy hd hlt
    obtain ⟨hm₀, hm₁⟩ := hu.mon
    obtain ⟨hm₀', hm₁'⟩ := hv.mon
    have hmono := monYday_mono (isleap (u.year + 1900)) v.mon.toNat (by omega) (u.mon + 1).toNat
      (by omega)
    have h₁ := hu.mday.2
    have h₂ := hv.mday.1
    have h₃ := hu.yday
    have h₄ := hv.yday
    unfold Tm.monthStart at h₁ h₃ h₄
    rw [← hy] at h₄
    omega
  have hm : tm.mon = tm'.mon := by
    have h₁ := hbefore h h' hy hd
    have h₂ := hbefore h' h hy.symm hd.symm
    omega
  have h₁ := h.yday
  have h₂ := h'.yday
  unfold Tm.monthStart at h₁ h₂
  rw [← hy, ← hm] at h₂
  exact ⟨hm, by omega⟩

/-- A second is in one date only. -/
theorem Tm.Valid.unique (h : tm.Valid) (h' : tm'.Valid) (he : tm.seconds = tm'.seconds) :
    tm' = { tm with isdst := tm'.isdst } := by
  have hs := h.sec
  have hs' := h'.sec
  have hmin := h.min
  have hmin' := h'.min
  have hh := h.hour
  have hh' := h'.hour
  have hdays : tm.days = tm'.days := by
    unfold Tm.seconds at he
    omega
  have hrest : tm'.hour = tm.hour ∧ tm'.min = tm.min ∧ tm'.sec = tm.sec := by
    unfold Tm.seconds at he
    refine ⟨by omega, by omega, by omega⟩
  have hw := h'.wday
  rw [← hdays, ← h.wday] at hw
  obtain ⟨hy, hyd⟩ : tm.year + 1900 = tm'.year + 1900 ∧ tm.yday = tm'.yday := by
    refine year_unique ?_ h.yday_bounds.1 h.yday_bounds.2 h'.yday_bounds.1 h'.yday_bounds.2
    unfold Tm.days at hdays
    omega
  have hyear : tm.year = tm'.year := by omega
  obtain ⟨hm, hmd⟩ := h.month_unique h' hyear hyd
  obtain ⟨hhour, hmin, hsec⟩ := hrest
  cases tm
  cases tm'
  simp only at hhour hmin hsec hyear hyd hm hmd hw
  simp only [hhour, hmin, hsec, hyear, hyd, hm, hmd, hw]

theorem Tm.Valid.year_bounds (h : tm.Valid) (hs : -2 ^ 31 ≤ tm.seconds)
    (hs' : tm.seconds < 2 ^ 31) : 1901 ≤ tm.year + 1900 ∧ tm.year + 1900 ≤ 2038 := by
  obtain ⟨hy₀, hy₁⟩ := h.yday_bounds
  have hsec := h.sec
  have hmin := h.min
  have hhour := h.hour
  have h₁₉₇₀ : daysBefore 1970 = 719527 := rfl
  have hdays : tm.days = daysBefore (tm.year + 1900) - daysBefore 1970 + tm.yday := rfl
  unfold Tm.seconds at hs hs'
  constructor
  · by_contra hlt
    have hl := daysBefore_lt (show tm.year + 1900 < 1901 by omega)
    have h₁₉₀₁ : daysBefore 1901 = 694325 := rfl
    omega
  · by_contra hlt
    have hl := daysBefore_lt (show 2038 < tm.year + 1900 by omega)
    have h₂₀₃₈ : daysBefore 2038 + yearLength 2038 = 744729 := rfl
    omega

theorem timegm_valid (h : tm.Valid) (hs : -2 ^ 31 ≤ tm.seconds) (hs' : tm.seconds < 2 ^ 31) :
    timegm tm = tm.seconds := by
  obtain ⟨hy, hy'⟩ := h.year_bounds hs hs'
  rw [timegm_seconds h (by omega) (by omega)]
  exact BitVec.toInt_ofInt_eq_self (by decide) hs hs'

/-- Every second that `time_t` holds is a date, and `timegm` makes the same second of it. -/
theorem timegm_gmtime (t : Tm) (timep : Word) : ∃ tm, gmtime t timep.toInt = some tm ∧ tm.Valid ∧
    tm.isdst = t.isdst ∧ 1901 ≤ tm.year + 1900 ∧ tm.year + 1900 ≤ 2038 ∧
      timegm tm = timep.toInt := by
  obtain ⟨tm, htm, hv, hdst, hs⟩ := offtime_spec timep.toInt 0 t
  rw [Int.add_zero] at hs
  have hlo : -2 ^ 31 ≤ tm.seconds := hs ▸ BitVec.le_toInt timep
  have hhi : tm.seconds < 2 ^ 31 := hs ▸ BitVec.toInt_lt
  obtain ⟨hy, hy'⟩ := hv.year_bounds hlo hhi
  exact ⟨tm, htm, hv, hdst, hy, hy', (timegm_valid hv hlo hhi).trans hs⟩

/-- A date whose second `time_t` holds comes back. -/
theorem gmtime_timegm (h : tm.Valid) (hs : -2 ^ 31 ≤ tm.seconds) (hs' : tm.seconds < 2 ^ 31)
    (t : Tm) : gmtime t (timegm tm) = some { tm with isdst := t.isdst } := by
  obtain ⟨tm', htm, hv, hdst, hsec⟩ := offtime_spec (timegm tm) 0 t
  rw [Int.add_zero, timegm_valid h hs hs'] at hsec
  rw [gmtime, htm, h.unique hv hsec.symm, ← hdst]

end

/-- The last leap day of the last century, a Tuesday. -/
def leapDay : Tm := ⟨56, 34, 12, 29, 1, 100, 2, 59, 0⟩

theorem gmtime_timegm_leapDay : gmtime leapDay (timegm leapDay) = some leapDay := by
  refine gmtime_timegm ⟨?_, ?_, ?_, ?_, ?_, ?_, ?_⟩ ?_ ?_ leapDay
  all_goals decide

end Time

end Cibyl
