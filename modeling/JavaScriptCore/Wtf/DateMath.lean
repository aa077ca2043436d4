import Mathlib.Algebra.BigOperators.Intervals
import Mathlib.Data.Int.ConditionallyCompleteOrder

/-!
# Dates and days

`wtf/DateMath.cpp:120-313`. The doubles are exact numbers here. They are integers except for the
quotients, and of a quotient only the floor is used.
-/

namespace JavaScriptCore.Wtf.DateMath

open Finset

/-- The value of type `int` of a sum or of a double. -/
def int (x : Int) : Int := x.bmod (2 ^ 32)

def msPerDay : Int := 86400000

def firstDayOfMonth (leapYear : Bool) (month : Nat) : Int :=
  (if leapYear then [0, 31, 60, 91, 121, 152, 182, 213, 244, 274, 305, 335]
    else [0, 31, 59, 90, 120, 151, 181, 212, 243, 273, 304, 334]).getD month 0

def isLeapYear (year : Int) : Bool :=
  if year.tmod 4 ≠ 0 then false
  else if year.tmod 400 = 0 then true
  else if year.tmod 100 = 0 then false
  else true

def daysInYear (year : Int) : Int := 365 + (isLeapYear year).toNat

def daysFrom1970ToYear (year : Int) : Int :=
  let leapDaysBefore1971By4Rule := 1970 / 4
  let excludedLeapDaysBefore1971By100Rule := 1970 / 100
  let leapDaysBefore1971By400Rule := 1970 / 400
  let yearMinusOne := int (year - 1)
  let yearsToAddBy4Rule := yearMinusOne / 4 - leapDaysBefore1971By4Rule
  let yearsToExcludeBy100Rule := yearMinusOne / 100 - excludedLeapDaysBefore1971By100Rule
  let yearsToAddBy400Rule := yearMinusOne / 400 - leapDaysBefore1971By400Rule
  365 * (year - 1970) + yearsToAddBy4Rule - yearsToExcludeBy100Rule + yearsToAddBy400Rule

def msToDays (ms : Int) : Int := ms / msPerDay

/-- A mean year has 365.2425 days. -/
def msToYear (ms : Int) : Int :=
  let approxYear := int (ms * 10000 / (msPerDay * 3652425) + 1970)
  let msFromApproxYearTo1970 := msPerDay * daysFrom1970ToYear approxYear
  if msFromApproxYearTo1970 > ms then int (approxYear - 1)
  else if msFromApproxYearTo1970 + msPerDay * daysInYear approxYear ≤ ms then int (approxYear + 1)
  else approxYear

def dayInYear (ms year : Int) : Int := int (msToDays ms - daysFrom1970ToYear year)

/-- The days of all months but the last one. -/
def daysInMonths (leapYear : Bool) : List Int :=
  [31, if leapYear then 29 else 28, 31, 30, 31, 30, 31, 31, 30, 31, 30]

/-- The tests of `monthFromDayInYear` from a month on, which begins at the day `step`. -/
def monthFrom (d step : Int) (month : Nat) : List Int → Nat
  | [] => month
  | days :: rest => if d < step + days then month else monthFrom d (step + days) (month + 1) rest

def monthFromDayInYear (dayInYear : Int) (leapYear : Bool) : Nat :=
  monthFrom dayInYear 0 0 (daysInMonths leapYear)

/-- The calls of `checkMonth`, with the last day of the month before as `next`. -/
def dayInMonthFrom (d next : Int) : List Int → Int
  | [] => d - next
  | days :: rest => if d ≤ next + days then d - next else dayInMonthFrom d (next + days) rest

def dayInMonthFromDayInYear (dayInYear : Int) (leapYear : Bool) : Int :=
  if dayInYear ≤ 30 then dayInYear + 1
  else dayInMonthFrom dayInYear 30 (daysInMonths leapYear).tail

def dayInYearOfDate (year : Int) (month : Nat) (day : Int) : Int :=
  int (int (firstDayOfMonth (isLeapYear year) month + day) - 1)

def dateToDaysFrom1970 (year month day : Int) : Int :=
  let year := int (year + month.tdiv 12)
  let month := month.tmod 12
  let (year, month) := if month < 0 then (int (year - 1), month + 12) else (year, month)
  daysFrom1970ToYear year + dayInYearOfDate year month.toNat day

/-! ## The Gregorian calendar -/

def IsLeap (year : Int) : Prop := 4 ∣ year ∧ (100 ∣ year → 400 ∣ year)

instance (year : Int) : Decidable (IsLeap year) := inferInstanceAs (Decidable (_ ∧ _))

def yearLength (year : Int) : Int := if IsLeap year then 366 else 365

def monthLength (leap : Bool) (month : Nat) : Int :=
  if month = 1 then if leap then 29 else 28
  else if month ∈ [3, 5, 8, 10] then 30 else 31

/-- The days from the beginning of 1970 to that of a year. -/
def firstOfYear (year : Int) : Int :=
  ∑ i ∈ range (year - 1970).toNat, yearLength (1970 + i) -
    ∑ i ∈ range (1970 - year).toNat, yearLength (1969 - i)

/-- The days from the beginning of 1970 to that of a month. -/
def firstOfMonth (year : Int) (month : Nat) : Int :=
  firstOfYear year + ∑ m ∈ range month, monthLength (IsLeap year) m

/-- The date of a day that is counted from the beginning of 1970. -/
structure IsDate (n year : Int) (month : Nat) (day : Int) : Prop where
  month_lt : month < 12
  one_le : 1 ≤ day
  le : day ≤ monthLength (IsLeap year) month
  eq : n = firstOfMonth year month + (day - 1)

/-! ## Years -/

theorem int_eq {x : Int} (hl : -2 ^ 31 ≤ x) (hu : x < 2 ^ 31) : int x = x := by
  rw [int, Int.bmod]
  omega

variable (year : Int)

theorem isLeapYear_eq : isLeapYear year = decide (IsLeap year) := by
  have h (n : Int) : year.tmod n = 0 ↔ n ∣ year := Int.dvd_iff_tmod_eq_zero.symm
  rw [Bool.eq_iff_iff, decide_eq_true_eq]
  simp only [isLeapYear, ne_eq, h, IsLeap]
  split_ifs <;> simp only [true_iff, false_iff] <;> omega

theorem firstOfYear_succ : firstOfYear (year + 1) = firstOfYear year + yearLength year := by
  rw [firstOfYear, firstOfYear]
  obtain h | h := lt_or_ge year 1970
  · rw [show (year + 1 - 1970).toNat = 0 by omega, show (year - 1970).toNat = 0 by omega,
      show (1970 - year).toNat = (1970 - (year + 1)).toNat + 1 by omega, sum_range_succ,
      show 1969 - ((1970 - (year + 1)).toNat : Int) = year by omega]
    omega
  · rw [show (1970 - (year + 1)).toNat = 0 by omega, show (1970 - year).toNat = 0 by omega,
      show (year + 1 - 1970).toNat = (year - 1970).toNat + 1 by omega, sum_range_succ,
      show 1970 + ((year - 1970).toNat : Int) = year by omega]
    omega

theorem yearLength_eq : yearLength year =
    365 + (year / 4 - (year - 1) / 4) - (year / 100 - (year - 1) / 100) +
      (year / 400 - (year - 1) / 400) := by
  simp only [yearLength, IsLeap]
  split_ifs <;> omega

/-- The leap days before a year count as in `daysFrom1970ToYear`. -/
theorem firstOfYear_eq : firstOfYear year =
    365 * (year - 1970) + ((year - 1) / 4 - 492) - ((year - 1) / 100 - 19) +
      ((year - 1) / 400 - 4) := by
  induction year using Int.inductionOn' (b := 1970) with
  | zero => rfl
  | succ year _ ih =>
    rw [firstOfYear_succ, ih, yearLength_eq, Int.add_sub_cancel]
    omega
  | pred year _ ih =>
    have h := firstOfYear_succ (year - 1)
    rw [Int.sub_add_cancel, ih, yearLength_eq] at h
    omega

theorem daysFrom1970ToYear_eq {year : Int} (hl : -2 ^ 30 ≤ year) (hu : year ≤ 2 ^ 30) :
    daysFrom1970ToYear year = firstOfYear year := by
  rw [daysFrom1970ToYear, firstOfYear_eq, int_eq (by omega) (by omega)]
  rfl

theorem daysInYear_eq : daysInYear year = yearLength year := by
  rw [daysInYear, isLeapYear_eq, yearLength]
  split_ifs with h <;> simp [h]

/-- A year begins within two days of the mean years before it. -/
theorem firstOfYear_near :
    146097 * (year - 1970) - 800 ≤ 400 * firstOfYear year ∧
      400 * firstOfYear year ≤ 146097 * (year - 1970) + 800 := by
  rw [firstOfYear_eq]
  omega

theorem yearLength_pos : 365 ≤ yearLength year ∧ yearLength year ≤ 366 := by
  rw [yearLength]
  split_ifs <;> omega

theorem msToYear_spec {ms : Int} (hl : -8640000000000000 ≤ ms) (hu : ms ≤ 8640000000000000) :
    (-2 ^ 29 ≤ msToYear ms ∧ msToYear ms ≤ 2 ^ 29) ∧ firstOfYear (msToYear ms) ≤ msToDays ms ∧
      msToDays ms < firstOfYear (msToYear ms) + yearLength (msToYear ms) := by
  have happrox : int (ms * 10000 / (msPerDay * 3652425) + 1970) = ms / 31556952000 + 1970 := by
    rw [msPerDay, int_eq (by omega) (by omega)]
    omega
  simp only [msToYear, happrox, daysInYear_eq, msToDays]
  rw [daysFrom1970ToYear_eq (by omega) (by omega), int_eq (by omega) (by omega),
    int_eq (by omega) (by omega), msPerDay]
  generalize hy : ms / 31556952000 + 1970 = y
  have hnear := firstOfYear_near y
  split_ifs with hlt hge
  · have hsucc := firstOfYear_succ (y - 1)
    have hlen := yearLength_pos (y - 1)
    rw [Int.sub_add_cancel] at hsucc
    omega
  · have hsucc := firstOfYear_succ y
    have hlen := yearLength_pos y
    have hlen' := yearLength_pos (y + 1)
    omega
  · omega

/-! ## Months -/

/-- Both searches stop at the month of the day. -/
theorem monthFrom_spec {d step : Int} {month : Nat} {lengths : List Int} (h : step ≤ d) :
    ∃ k ≤ lengths.length, monthFrom d step month lengths = month + k ∧
      dayInMonthFrom d (step - 1) lengths = d - (step + (lengths.take k).sum) + 1 ∧
      step + (lengths.take k).sum ≤ d ∧
      ∀ days, lengths[k]? = some days → d < step + (lengths.take k).sum + days := by
  induction lengths generalizing step month with
  | nil => exact ⟨0, by simp, rfl, by simp [dayInMonthFrom]; omega, by simpa, by simp⟩
  | cons days lengths ih =>
    rw [monthFrom, dayInMonthFrom]
    by_cases hd : d < step + days
    · refine ⟨0, by simp, if_pos hd, ?_, by simpa, by simpa⟩
      rw [if_pos (by omega)]
      simp
      omega
    · obtain ⟨k, hk, hm, hday, hle, hlt⟩ := @ih (step + days) (month + 1) (by omega)
      refine ⟨k + 1, by simpa, ?_, ?_, ?_, ?_⟩
      · rw [if_neg hd, hm]
        omega
      · rw [if_neg (by omega), show step - 1 + days = step + days - 1 by omega, hday]
        simp
        omega
      · simp
        omega
      · intro days' hk'
        have := hlt days' (by simpa using hk')
        simp
        omega

theorem sum_take_daysInMonths : ∀ leap : Bool, ∀ k < 12,
    ((daysInMonths leap).take k).sum = ∑ m ∈ range k, monthLength leap m ∧
      firstDayOfMonth leap k = ∑ m ∈ range k, monthLength leap m := by
  decide

theorem getElem?_daysInMonths : ∀ leap : Bool, ∀ k < 11,
    (daysInMonths leap)[k]? = some (monthLength leap k) := by
  decide

/-- The month and the day of a day of a year. -/
theorem month_and_day {d : Int} {leap : Bool} (hl : 0 ≤ d) (hu : d < 365 + leap.toNat) :
    let month := monthFromDayInYear d leap
    let day := dayInMonthFromDayInYear d leap
    month < 12 ∧ 1 ≤ day ∧ day ≤ monthLength leap month ∧
      d = ∑ m ∈ range month, monthLength leap m + (day - 1) := by
  obtain ⟨k, hk, hm, hday, hle, hlt⟩ := @monthFrom_spec d 0 0 (daysInMonths leap) hl
  replace hk : k < 12 := Nat.lt_succ_of_le hk
  have hday' : dayInMonthFromDayInYear d leap = dayInMonthFrom d (0 - 1) (daysInMonths leap) := by
    rw [dayInMonthFromDayInYear, daysInMonths, dayInMonthFrom, List.tail_cons]
    congr 1
  simp only [monthFromDayInYear, hm, hday', hday, (sum_take_daysInMonths leap k hk).1,
    Nat.zero_add] at hle hlt ⊢
  refine ⟨hk, by omega, ?_, by omega⟩
  obtain hk' | rfl : k < 11 ∨ k = 11 := by omega
  · have := hlt _ (getElem?_daysInMonths leap k hk')
    omega
  · have hsum : ∀ leap : Bool, ∑ m ∈ range 11, monthLength leap m = 334 + leap.toNat ∧
        monthLength leap 11 = 31 := by decide
    have := hsum leap
    omega

theorem dateToDaysFrom1970_eq {year month day : Int} (hyl : -2 ^ 29 ≤ year) (hyu : year ≤ 2 ^ 29)
    (hml : -2 ^ 31 ≤ month) (hmu : month < 2 ^ 31) (hdl : -2 ^ 31 < day)
    (hdu : day < 2 ^ 31 - 335) :
    dateToDaysFrom1970 year month day =
      firstOfMonth (year + month / 12) (month % 12).toNat + (day - 1) := by
  have htable : ∀ leap : Bool, ∀ k < 12, 0 ≤ firstDayOfMonth leap k ∧
      firstDayOfMonth leap k ≤ 335 := by
    decide
  have hlt : (month % 12).toNat < 12 := by omega
  have hrem : month.tmod 12 = month % 12 - if month.tmod 12 < 0 then 12 else 0 := by
    rw [Int.tmod_eq_emod]
    split_ifs <;> omega
  have hquot : month.tdiv 12 = month / 12 + if month.tmod 12 < 0 then 1 else 0 := by
    have h := Int.mul_tdiv_add_tmod month 12
    split_ifs at hrem ⊢ <;> omega
  have hnorm : (if month.tmod 12 < 0 then (int (int (year + month.tdiv 12) - 1), month.tmod 12 + 12)
      else (int (year + month.tdiv 12), month.tmod 12)) = (year + month / 12, month % 12) := by
    split_ifs at hquot hrem ⊢
    · have hyear := @int_eq (year + (month / 12 + 1)) (by omega) (by omega)
      rw [hquot, hrem, hyear, int_eq (by omega) (by omega)]
      simp
      omega
    · rw [hquot, hrem, int_eq (by omega) (by omega)]
      simp
  simp only [dateToDaysFrom1970, hnorm]
  have ht := htable (IsLeap (year + month / 12)) _ hlt
  have hsum := @int_eq (firstDayOfMonth (IsLeap (year + month / 12)) (month % 12).toNat + day)
    (by omega) (by omega)
  rw [firstOfMonth, daysFrom1970ToYear_eq (by omega) (by omega), dayInYearOfDate, isLeapYear_eq,
    ← (sum_take_daysInMonths _ _ hlt).2, hsum, int_eq (by omega) (by omega)]
  omega

/-- The time values are split into the dates of the Gregorian calendar, and the dates are counted as
its days, where the months are counted on from those of the year. -/
theorem dates_eq :
    (∀ ms : Int, -8640000000000000 ≤ ms → ms ≤ 8640000000000000 →
      let year := msToYear ms
      let d := dayInYear ms year
      let month := monthFromDayInYear d (isLeapYear year)
      let day := dayInMonthFromDayInYear d (isLeapYear year)
      IsDate (ms / 86400000) year month day ∧ d = ms / 86400000 - firstOfYear year ∧
        dateToDaysFrom1970 year month day = ms / 86400000) ∧
    ∀ year month day : Int, -2 ^ 29 ≤ year → year ≤ 2 ^ 29 → -2 ^ 31 ≤ month → month < 2 ^ 31 →
      -2 ^ 31 < day → day < 2 ^ 31 - 335 →
      dateToDaysFrom1970 year month day =
        firstOfMonth (year + month / 12) (month % 12).toNat + (day - 1) := by
  refine ⟨fun ms hl hu => ?_, fun year month day hyl hyu hml hmu hdl hdu =>
    dateToDaysFrom1970_eq hyl hyu hml hmu hdl hdu⟩
  obtain ⟨⟨hyl, hyu⟩, hle, hlt⟩ := msToYear_spec hl hu
  have hlen := daysInYear_eq (msToYear ms)
  have hle1 : (isLeapYear (msToYear ms)).toNat ≤ 1 := Bool.toNat_le _
  rw [daysInYear] at hlen
  rw [msToDays, msPerDay] at hle hlt
  have hd : dayInYear ms (msToYear ms) = ms / 86400000 - firstOfYear (msToYear ms) := by
    rw [dayInYear, msToDays, msPerDay, daysFrom1970ToYear_eq (by omega) (by omega),
      int_eq (by omega) (by omega)]
  have hd0 : 0 ≤ dayInYear ms (msToYear ms) ∧
      dayInYear ms (msToYear ms) < 365 + (isLeapYear (msToYear ms)).toNat := by omega
  intro year d month day
  obtain ⟨hm, hone, hday, heq⟩ : month < 12 ∧ 1 ≤ day ∧ day ≤ monthLength (isLeapYear year) month ∧
      d = ∑ m ∈ range month, monthLength (isLeapYear year) m + (day - 1) :=
    month_and_day hd0.1 hd0.2
  have hdate : ms / 86400000 = firstOfMonth year month + (day - 1) := by
    rw [firstOfMonth, ← isLeapYear_eq, Int.add_assoc, ← heq]
    exact Int.sub_eq_iff_eq_add'.mp hd.symm
  refine ⟨⟨hm, hone, isLeapYear_eq year ▸ hday, hdate⟩, hd, ?_⟩
  have hlength : ∀ leap : Bool, ∀ k < 12, monthLength leap k ≤ 31 := by decide
  have hle31 := hlength (isLeapYear year) _ hm
  rw [dateToDaysFrom1970_eq hyl hyu (by omega) (by omega) (by omega) (by omega), hdate,
    Int.ediv_eq_zero_of_lt (by omega) (by omega), Int.emod_eq_of_lt (by omega) (by omega),
    Int.add_zero, Int.toNat_natCast]

theorem dates_eq_before_1970 :
    IsDate (-1 / 86400000) 1969 11 31 ∧
    dateToDaysFrom1970 1970 (-1) 31 = firstOfMonth 1969 11 + 30 :=
  ⟨(dates_eq.1 (-1) (by decide) (by decide)).1,
    dates_eq.2 1970 (-1) 31 (by decide) (by decide) (by decide) (by decide) (by decide) (by decide)⟩

/-- Near the largest value of an `int` the day is not counted. -/
theorem dateToDaysFrom1970_overflow :
    dateToDaysFrom1970 1970 11 (2 ^ 31 - 1) ≠ firstOfMonth 1970 11 + (2 ^ 31 - 1 - 1) := by
  decide

end JavaScriptCore.Wtf.DateMath
