/-
`kernel_mktime` against the calendar.

The calendar is given by the lengths of its months: the number of a day is
the sum of the years, months and days before it. The code has the years as
`365 * year + (year + 1) / 4` and a month table for leap years, from which
it takes a day back after February of another year. Both rest on a leap
year being every fourth one, which is so until 2099.
-/
import Mathlib

namespace LearnLinux.Mktime

-- ======== the code

structure Tm where
  sec : Nat
  min : Nat
  hour : Nat
  mday : Nat
  mon : Nat
  year : Nat

def MINUTE : Int := 60
def HOUR : Int := 60 * MINUTE
def DAY : Int := 24 * HOUR
def YEAR : Int := 365 * DAY

/-- The table assumes leap years. -/
def month : List Int :=
  [0, DAY * 31, DAY * (31 + 29), DAY * (31 + 29 + 31), DAY * (31 + 29 + 31 + 30),
    DAY * (31 + 29 + 31 + 30 + 31), DAY * (31 + 29 + 31 + 30 + 31 + 30),
    DAY * (31 + 29 + 31 + 30 + 31 + 30 + 31), DAY * (31 + 29 + 31 + 30 + 31 + 30 + 31 + 31),
    DAY * (31 + 29 + 31 + 30 + 31 + 30 + 31 + 31 + 30),
    DAY * (31 + 29 + 31 + 30 + 31 + 30 + 31 + 31 + 30 + 31),
    DAY * (31 + 29 + 31 + 30 + 31 + 30 + 31 + 31 + 30 + 31 + 30)]

/-- `none` is a month outside of the table. -/
def kernelMktime (tm : Tm) : Option Int :=
  month[tm.mon]?.map fun m =>
    let year : Int := tm.year - 70
    let res := YEAR * year + DAY * (year + 1).tdiv 4
    let res := res + m
    let res := if tm.mon > 1 ∧ (year + 2).tmod 4 ≠ 0 then res - DAY else res
    let res := res + DAY * (tm.mday - 1)
    let res := res + HOUR * tm.hour
    let res := res + MINUTE * tm.min
    res + tm.sec

-- ======== the calendar

def isLeap (y : Nat) : Bool := y % 4 = 0 ∧ (y % 100 ≠ 0 ∨ y % 400 = 0)

def monthDays (leap : Bool) : List Nat :=
  [31, if leap then 29 else 28, 31, 30, 31, 30, 31, 31, 30, 31, 30, 31]

/-- The days of the months before `mon`. -/
def daysBefore (leap : Bool) (mon : Nat) : Nat := ((monthDays leap).take mon).sum

/-- The days from 1970-01-01 to the day of `tm`. -/
def days (tm : Tm) : Nat :=
  ((List.range (tm.year - 70)).map fun y => (monthDays (isLeap (1970 + y))).sum).sum
    + daysBefore (isLeap (1900 + tm.year)) tm.mon + (tm.mday - 1)

/-- The seconds from the start of 1970 to `tm`. -/
def seconds (tm : Tm) : Nat := 86400 * days tm + 3600 * tm.hour + 60 * tm.min + tm.sec

/-- A time of the years 1970 to 2099. -/
structure Valid (tm : Tm) : Prop where
  year : 70 ≤ tm.year ∧ tm.year ≤ 199
  mon : tm.mon < 12
  mday : 1 ≤ tm.mday ∧ tm.mday ≤ (monthDays (isLeap (1900 + tm.year))).getD tm.mon 0
  hour : tm.hour < 24
  min : tm.min < 60
  sec : tm.sec < 60

/-- The fields, the most significant first. -/
def Tm.fields (tm : Tm) : List Nat := [tm.year, tm.mon, tm.mday, tm.hour, tm.min, tm.sec]

-- ======== years and months

variable {tm tm' : Tm} {k : Nat}

/-- Every fourth year until 2099. -/
theorem toNat_isLeap (hk : k < 130) : (isLeap (1970 + k)).toNat = (k + 2) / 4 - (k + 1) / 4 := by
  unfold isLeap
  by_cases h : (1970 + k) % 4 = 0 ∧ ((1970 + k) % 100 ≠ 0 ∨ (1970 + k) % 400 = 0)
  · rw [decide_eq_true h, Bool.toNat_true]
    omega
  · rw [decide_eq_false h, Bool.toNat_false]
    omega

theorem sum_monthDays (leap : Bool) : (monthDays leap).sum = 365 + leap.toNat := by
  cases leap <;> rfl

theorem yearsDays_eq (hk : k ≤ 130) :
    ((List.range k).map fun y => (monthDays (isLeap (1970 + y))).sum).sum
      = 365 * k + (k + 1) / 4 := by
  induction k with
  | zero => rfl
  | succ k ih =>
    rw [List.range_succ, List.map_append, List.sum_append, ih (by omega), List.map_singleton,
      List.sum_singleton, sum_monthDays, toNat_isLeap (by omega)]
    omega

/-- The table, and the day that is taken back. -/
theorem month_eq : ∀ leap, ∀ mon < 12, ∃ m, month[mon]? = some m ∧
    (if mon > 1 ∧ leap.toNat = 0 then m - DAY else m) = DAY * daysBefore leap mon := by
  decide

/-- A month ends within its year, and before the next one starts. -/
theorem daysBefore_add : ∀ leap : Bool, ∀ mon < 12,
    daysBefore leap mon + (monthDays leap).getD mon 0 ≤ 365 + leap.toNat ∧
    ∀ mon' < 12, mon < mon' → daysBefore leap mon + (monthDays leap).getD mon 0
      ≤ daysBefore leap mon' := by
  decide

theorem Valid.isLeap (h : Valid tm) : (isLeap (1900 + tm.year)).toNat
    = (tm.year - 70 + 2) / 4 - (tm.year - 70 + 1) / 4 := by
  have hy := h.year
  rw [← toNat_isLeap (by omega)]
  congr 2
  omega

theorem Valid.days_eq (h : Valid tm) : days tm = 365 * (tm.year - 70) + (tm.year - 70 + 1) / 4
    + daysBefore (Mktime.isLeap (1900 + tm.year)) tm.mon + (tm.mday - 1) := by
  have hy := h.year
  rw [days, yearsDays_eq (by omega)]

-- ======== kernel_mktime

theorem Valid.kernelMktime (h : Valid tm) : kernelMktime tm = some (seconds tm : Int) := by
  obtain ⟨m, hm, hd⟩ := month_eq (Mktime.isLeap (1900 + tm.year)) tm.mon h.mon
  have hy := h.year
  have hday := h.mday.1
  have hleap : ((tm.year : Int) - 70 + 2) % 4 ≠ 0 ↔ (Mktime.isLeap (1900 + tm.year)).toNat = 0 := by
    rw [h.isLeap]
    omega
  rw [Mktime.kernelMktime, hm, Option.map_some, seconds, h.days_eq, Option.some.injEq]
  dsimp only
  rw [Int.tdiv_eq_ediv_of_nonneg (by omega), Int.tmod_eq_emod_of_nonneg (by omega)]
  simp only [YEAR, DAY, HOUR, MINUTE] at hd ⊢
  split at hd
  · rename_i hif
    rw [if_pos ⟨hif.1, hleap.mpr hif.2⟩]
    omega
  · rename_i hif
    rw [if_neg fun hc => hif ⟨hc.1, hleap.mp hc.2⟩]
    omega

/-- A later time has a greater number. -/
theorem Valid.lt (h : Valid tm) (h' : Valid tm') (hlt : tm.fields < tm'.fields) :
    seconds tm < seconds tm' := by
  have hm := daysBefore_add (Mktime.isLeap (1900 + tm.year)) tm.mon h.mon
  have hy := h.year
  have hd := h.mday
  have hd' := h'.mday
  have hh := h.hour
  have hmin := h.min
  have hs := h.sec
  rw [seconds, seconds, h.days_eq, h'.days_eq]
  simp only [Tm.fields, List.cons_lt_cons_iff] at hlt
  rcases hlt with hlt | ⟨he, hlt⟩
  · -- an earlier year
    rw [h.isLeap] at hm
    omega
  rw [← he] at hd' ⊢
  rcases hlt with hlt | ⟨he, hlt⟩
  · have := hm.2 _ h'.mon hlt
    omega
  rw [← he]
  simp only [List.not_lt_nil, and_false, or_false] at hlt
  omega

/-- `kernel_mktime` counts the seconds of the calendar, and so a later time
has a greater number. -/
theorem kernel_mktime_calendar : (∀ tm, Valid tm → kernelMktime tm = some (seconds tm : Int))
    ∧ ∀ tm tm', Valid tm → Valid tm' → tm.fields < tm'.fields →
      ∃ r r', kernelMktime tm = some r ∧ kernelMktime tm' = some r' ∧ r < r' :=
  ⟨fun _ h => h.kernelMktime, fun _ _ h h' hlt =>
    ⟨_, _, h.kernelMktime, h'.kernelMktime, Int.ofNat_lt.mpr (h.lt h' hlt)⟩⟩

/-- Noon of 2000-02-29. -/
theorem kernel_mktime_calendar_leap_day : seconds ⟨0, 0, 12, 29, 1, 100⟩ = 951825600 ∧
    kernelMktime ⟨0, 0, 12, 29, 1, 100⟩ = some 951825600 :=
  ⟨by decide, kernel_mktime_calendar.1 ⟨0, 0, 12, 29, 1, 100⟩
    ⟨by decide, by decide, by decide, by decide, by decide, by decide⟩⟩

end LearnLinux.Mktime
