import Mathlib.Data.Nat.Digits.Defs
import Mathlib.Data.List.Basic
import Mathlib.Tactic.NormNum

/-!
# Dates as texts

`Date.prototype.toISOString`: the year, the month and the day of an instant, counted as the
standard of the language counts them, and its text. In the years `0` to `9999` the text has
four digits for the year; it is then that of a day that exists and of a time of a day
(`moment_real`).
-/

namespace Marketplace.IsoDate

/-! ## Counting days -/

/-- `DayFromYear`: the days from 1970 to the first day of the year. -/
def dayFromYear (y : ℤ) : ℤ :=
  365 * (y - 1970) + (y - 1969) / 4 - (y - 1901) / 100 + (y - 1601) / 400

/-- A year with 366 days. -/
def IsLeap (y : ℤ) : Prop := y % 4 = 0 ∧ (y % 100 ≠ 0 ∨ y % 400 = 0)

instance (y : ℤ) : Decidable (IsLeap y) :=
  inferInstanceAs (Decidable (y % 4 = 0 ∧ (y % 100 ≠ 0 ∨ y % 400 = 0)))

/-- The lengths of the months. -/
def monthLengths (y : ℤ) : List ℕ :=
  [31, if IsLeap y then 29 else 28, 31, 30, 31, 30, 31, 31, 30, 31, 30, 31]

/-- `YearFromTime`: the last year that has begun. The mean year has 146097 / 400 days, which
is wrong by one year at most. -/
def yearOf (day : ℤ) : ℤ :=
  let y := 1970 + 400 * day / 146097
  if day < dayFromYear y then y - 1
  else if dayFromYear (y + 1) ≤ day then y + 1
  else y

/-- **The year of a day** has begun, and the next one has not. -/
theorem yearOf_spec (day : ℤ) :
    dayFromYear (yearOf day) ≤ day ∧ day < dayFromYear (yearOf day + 1) := by
  simp only [yearOf]
  split_ifs with hlow hhigh
  · refine ⟨?_, by rwa [sub_add_cancel]⟩
    unfold dayFromYear
    omega
  · refine ⟨hhigh, ?_⟩
    unfold dayFromYear
    omega
  · exact ⟨not_lt.mp hlow, not_le.mp hhigh⟩

/-- A year has the days of its months. -/
theorem dayFromYear_succ (y : ℤ) :
    dayFromYear (y + 1) = dayFromYear y + ((monthLengths y).sum : ℕ) := by
  have hsum : (monthLengths y).sum = if IsLeap y then 366 else 365 := by
    unfold monthLengths
    split_ifs <;> rfl
  by_cases hleap : IsLeap y
  · rw [hsum, if_pos hleap]
    unfold dayFromYear
    unfold IsLeap at hleap
    omega
  · rw [hsum, if_neg hleap]
    unfold dayFromYear
    unfold IsLeap at hleap
    omega

/-- `MonthFromTime` and `DateFromTime`, both from `0` on: the month in which so many days are
over, and the days that are over in it. -/
def monthOf : List ℕ → ℕ → ℕ × ℕ
  | [], d => (0, d)
  | n :: ns, d => if d < n then (0, d) else ((monthOf ns (d - n)).1 + 1, (monthOf ns (d - n)).2)

/-- **The month of a day** is there and is not over. -/
theorem monthOf_spec {ns : List ℕ} {d : ℕ} (h : d < ns.sum) :
    ∃ n, ns[(monthOf ns d).1]? = some n ∧ (monthOf ns d).2 < n := by
  induction ns generalizing d with
  | nil => cases h
  | cons n ns ih =>
    rw [monthOf]
    split_ifs with hd
    · exact ⟨n, rfl, hd⟩
    · rw [List.sum_cons] at h
      exact ih (by omega)

/-! ## Texts -/

/-- The last `k` decimal digits. -/
def digits : ℕ → ℕ → List Char
  | 0, _ => []
  | k + 1, n => digits k (n / 10) ++ [(n % 10).digitChar]

/-- A day and a time. -/
structure Moment where
  year : ℕ
  month : ℕ
  day : ℕ
  hour : ℕ
  minute : ℕ
  second : ℕ
  milli : ℕ
  deriving DecidableEq

/-- The text, with four digits for the year. -/
def Moment.text (m : Moment) : List Char :=
  digits 4 m.year ++ '-' :: (digits 2 m.month ++ '-' :: (digits 2 m.day ++ 'T' ::
    (digits 2 m.hour ++ ':' :: (digits 2 m.minute ++ ':' :: (digits 2 m.second ++ '.' ::
      (digits 3 m.milli ++ ['Z']))))))

/-- The day is one of the calendar, and the time is one of a day. -/
structure Moment.Real (m : Moment) : Prop where
  year : m.year ≤ 9999
  month : 1 ≤ m.month
  day : 1 ≤ m.day
  /-- a month that is not there has no days -/
  lasts : m.day ≤ ((monthLengths m.year)[m.month - 1]?).getD 0
  hour : m.hour < 24
  minute : m.minute < 60
  second : m.second < 60
  milli : m.milli < 1000

instance (m : Moment) : Decidable m.Real :=
  decidable_of_iff (m.year ≤ 9999 ∧ 1 ≤ m.month ∧ 1 ≤ m.day ∧
      m.day ≤ ((monthLengths m.year)[m.month - 1]?).getD 0 ∧ m.hour < 24 ∧ m.minute < 60 ∧
        m.second < 60 ∧ m.milli < 1000)
    ⟨fun ⟨hy, hmo, hd, hl, hh, hmi, hs, hms⟩ => ⟨hy, hmo, hd, hl, hh, hmi, hs, hms⟩,
      fun h => ⟨h.year, h.month, h.day, h.lasts, h.hour, h.minute, h.second, h.milli⟩⟩

/-- The milliseconds of a day. -/
def msPerDay : ℤ := 86400000

/-- The year of an instant, in milliseconds from 1970 on. -/
def yearFromTime (t : ℤ) : ℤ := yearOf (t / msPerDay)

/-- The month and the day of an instant, and its time; of the year its magnitude. -/
def moment (t : ℤ) : Moment :=
  let y := yearFromTime t
  let date := monthOf (monthLengths y) (t / msPerDay - dayFromYear y).toNat
  let ms := (t % msPerDay).toNat
  ⟨y.natAbs, date.1 + 1, date.2 + 1, ms / 3600000, ms / 60000 % 60, ms / 1000 % 60, ms % 1000⟩

/-- The years that have four digits. -/
def InYears (t : ℤ) : Prop := 0 ≤ yearFromTime t ∧ yearFromTime t ≤ 9999

instance (t : ℤ) : Decidable (InYears t) :=
  inferInstanceAs (Decidable (0 ≤ yearFromTime t ∧ yearFromTime t ≤ 9999))

/-- `Date.prototype.toISOString`: other years have a sign and six digits. -/
def toISOString (t : ℤ) : String :=
  let text := (moment t).text
  if InYears t then String.ofList text
  else
    String.ofList ((if yearFromTime t < 0 then '-' else '+') ::
      (digits 6 (moment t).year ++ text.drop 4))

/-- **A date has a real day and a real time.** -/
theorem moment_real {t : ℤ} (h : InYears t) : (moment t).Real := by
  -- the day is within its year, so within one of its months
  obtain ⟨hbegun, hnext⟩ := yearOf_spec (t / msPerDay)
  rw [dayFromYear_succ] at hnext
  have hyear : ((yearFromTime t).natAbs : ℤ) = yearFromTime t := Int.natAbs_of_nonneg h.1
  have hms : (t % msPerDay).toNat < 86400000 := by
    have hlt := Int.emod_lt_of_pos t (show (0 : ℤ) < msPerDay by decide)
    have hnonneg := Int.emod_nonneg t (show msPerDay ≠ 0 by decide)
    unfold msPerDay at hlt hnonneg ⊢
    omega
  have hday : (t / msPerDay - dayFromYear (yearFromTime t)).toNat <
      (monthLengths (yearFromTime t)).sum := by
    unfold yearFromTime
    omega
  obtain ⟨n, hn, hlt⟩ := monthOf_spec hday
  refine ⟨?_, Nat.le_add_left .., Nat.le_add_left .., ?_, ?_, ?_, ?_, ?_⟩
  · have hle := h.2
    change (yearFromTime t).natAbs ≤ 9999
    omega
  · change _ ≤ ((monthLengths ((yearFromTime t).natAbs : ℤ))[_]?).getD 0
    rw [hyear]
    exact hlt.trans_eq (congrArg (Option.getD · 0) hn).symm
  · change (t % msPerDay).toNat / 3600000 < 24
    omega
  · exact Nat.mod_lt _ (by norm_num)
  · exact Nat.mod_lt _ (by norm_num)
  · exact Nat.mod_lt _ (by norm_num)

/-! ## Reading -/

/-- The number that digits stand for. -/
def number (cs : List Char) : ℕ := Nat.ofDigitChars 10 cs 0

theorem number_digits {k n : ℕ} (h : n < 10 ^ k) : number (digits k n) = n := by
  induction k generalizing n with
  | zero =>
    obtain rfl : n = 0 := by omega
    rfl
  | succ k ih =>
    have hvalue : ∀ d < 10, d.digitChar.toNat - '0'.toNat = d := by decide
    have hrec : number (digits k (n / 10)) = n / 10 := ih (by
      rw [pow_succ] at h
      omega)
    have hlast := hvalue (n % 10) (Nat.mod_lt _ (by norm_num))
    rw [number] at hrec ⊢
    rw [digits, Nat.ofDigitChars_append, hrec, Nat.ofDigitChars_cons, Nat.ofDigitChars_nil, hlast]
    omega

/-- What the places of a text say. -/
def read (cs : List Char) : Moment where
  year := number (cs.take 4)
  month := number ((cs.drop 5).take 2)
  day := number ((cs.drop 8).take 2)
  hour := number ((cs.drop 11).take 2)
  minute := number ((cs.drop 14).take 2)
  second := number ((cs.drop 17).take 2)
  milli := number ((cs.drop 20).take 3)

/-- No month has more days. -/
theorem getD_monthLengths_le (y : ℤ) (k : ℕ) : ((monthLengths y)[k]?).getD 0 ≤ 31 := by
  rcases h : (monthLengths y)[k]? with _ | n
  · exact Nat.zero_le _
  · have hmem := List.mem_of_getElem? h
    simp only [monthLengths, List.mem_cons, List.not_mem_nil, or_false] at hmem
    change n ≤ 31
    split_ifs at hmem <;> omega

/-- There are twelve months. -/
theorem Moment.Real.month_le {m : Moment} (h : m.Real) : m.month ≤ 12 := by
  by_contra hlt
  have hnone : (monthLengths m.year)[m.month - 1]? = none := by
    rw [List.getElem?_eq_none_iff]
    change 12 ≤ m.month - 1
    omega
  have hlasts := h.lasts
  rw [hnone] at hlasts
  exact absurd (h.day.trans hlasts) (by decide)

/-- **A date is read back.** -/
theorem read_text {m : Moment} (h : m.Real) : read m.text = m := by
  have hday : m.day ≤ 31 := h.lasts.trans (getD_monthLengths_le ..)
  have hmonth := h.month_le
  have hyear := h.year
  have hhour := h.hour
  have hminute := h.minute
  have hsecond := h.second
  -- the fields have fixed widths, so their places are known
  have hread : read m.text = ⟨number (digits 4 m.year), number (digits 2 m.month),
      number (digits 2 m.day), number (digits 2 m.hour), number (digits 2 m.minute),
      number (digits 2 m.second), number (digits 3 m.milli)⟩ := rfl
  rw [hread, number_digits (by omega), number_digits (by omega), number_digits (by omega),
    number_digits (by omega), number_digits (by omega), number_digits (by omega),
    number_digits h.milli]

theorem toISOString_eq {t : ℤ} (h : InYears t) :
    toISOString t = String.ofList (moment t).text := if_pos h

example : toISOString 951782400123 = "2000-02-29T00:00:00.123Z" := by decide

end Marketplace.IsoDate
