import Mathlib.Algebra.BigOperators.Intervals
import Mathlib.Algebra.Order.Group.Unbundled.Int
import Mathlib.Data.Prod.Lex
import Mathlib.Tactic.IntervalCases
import Mathlib.Tactic.Ring

/-!
# The proleptic Gregorian calendar

* `IsLeap`, `daysInYear`, `daysInMonth` — the lengths of years and months;
* `DateTime.Valid` — a date and a time of day that exist;
* `DateTime.seconds` — the distance from 1970-01-01T00:00:00;
* `daysBeforeYear_eq` — the days before a year in closed form;
* `DateTime.seconds_lt_seconds` — a date and time that is lexicographically later is further away.
-/

namespace LbProxy.Lib.Calendar

open Finset

/-! ## Years and months -/

/-- Every fourth year is a leap year, of the centuries every fourth one. -/
def IsLeap (y : ℤ) : Prop := y % 4 = 0 ∧ (y % 100 ≠ 0 ∨ y % 400 = 0)

instance (y : ℤ) : Decidable (IsLeap y) := inferInstanceAs (Decidable (_ ∧ _))

def daysInYear (y : ℤ) : ℤ := if IsLeap y then 366 else 365

def daysInMonth (y m : ℤ) : ℤ :=
  if m = 2 then if IsLeap y then 29 else 28
  else if m = 4 ∨ m = 6 ∨ m = 9 ∨ m = 11 then 30 else 31

/-- The sum over the numbers from `a` on that are below `b`. -/
def sumFrom (f : ℤ → ℤ) (a b : ℤ) : ℤ := ∑ i ∈ range (b - a).toNat, f (a + i)

/-- The days from the start of 1970 to the start of the year. -/
def daysBeforeYear (y : ℤ) : ℤ := sumFrom daysInYear 1970 y - sumFrom daysInYear y 1970

/-- The days from the start of the year to the start of the month. -/
def daysBeforeMonth (y m : ℤ) : ℤ := sumFrom (daysInMonth y) 1 m

theorem sumFrom_of_le (f : ℤ → ℤ) {a b : ℤ} (h : b ≤ a) : sumFrom f a b = 0 := by
  rw [sumFrom, Int.toNat_of_nonpos (by omega), sum_range_zero]

theorem sumFrom_succ (f : ℤ → ℤ) {a b : ℤ} (h : a ≤ b) : sumFrom f a (b + 1) = sumFrom f a b + f b := by
  have hcount : (b + 1 - a).toNat = (b - a).toNat + 1 := by omega
  have hlast : a + ((b - a).toNat : ℤ) = b := by omega
  rw [sumFrom, hcount, sum_range_succ, hlast, sumFrom]

theorem sumFrom_pred (f : ℤ → ℤ) {a b : ℤ} (h : a < b) : sumFrom f a b = f a + sumFrom f (a + 1) b := by
  have hcount : (b - a).toNat = (b - (a + 1)).toNat + 1 := by omega
  rw [sumFrom, hcount, sum_range_succ', sumFrom, add_comm]
  congr 1
  · simp
  · refine sum_congr rfl fun i _ => ?_
    push_cast
    congr 1
    ring

theorem daysBeforeYear_succ (y : ℤ) : daysBeforeYear (y + 1) = daysBeforeYear y + daysInYear y := by
  unfold daysBeforeYear
  rcases le_or_gt 1970 y with h | h
  · rw [sumFrom_succ _ h, sumFrom_of_le _ (by omega : 1970 ≤ y + 1), sumFrom_of_le _ h]
    ring
  · rw [sumFrom_pred _ h, sumFrom_of_le _ (by omega : y + 1 ≤ 1970), sumFrom_of_le _ h.le]
    ring

theorem daysBeforeMonth_succ (y : ℤ) {m : ℤ} (h : 1 ≤ m) :
    daysBeforeMonth y (m + 1) = daysBeforeMonth y m + daysInMonth y m := sumFrom_succ _ h

theorem daysInYear_pos (y : ℤ) : 0 < daysInYear y := by
  unfold daysInYear
  split <;> omega

theorem daysInMonth_pos (y m : ℤ) : 0 < daysInMonth y m := by
  unfold daysInMonth
  repeat' split
  all_goals omega

/-- **The days before a year**: 365 for each year, and one for each leap year between. -/
theorem daysBeforeYear_eq (y : ℤ) :
    daysBeforeYear y = 365 * (y - 1970) + (y - 1) / 4 - (y - 1) / 100 + (y - 1) / 400 - 477 := by
  have hstep : ∀ y : ℤ, 365 * (y + 1 - 1970) + (y + 1 - 1) / 4 - (y + 1 - 1) / 100 + (y + 1 - 1) / 400 - 477 =
      365 * (y - 1970) + (y - 1) / 4 - (y - 1) / 100 + (y - 1) / 400 - 477 + daysInYear y := by
    intro y
    unfold daysInYear
    split
    · rename_i h
      unfold IsLeap at h
      omega
    · rename_i h
      unfold IsLeap at h
      omega
  induction y using Int.inductionOn' (b := 1970) with
  | zero => rfl
  | succ y _ ih => rw [daysBeforeYear_succ, ih, hstep]
  | pred y _ ih =>
    have hsucc := daysBeforeYear_succ (y - 1)
    have heq := hstep (y - 1)
    rw [sub_add_cancel] at hsucc heq
    omega

/-- The days before a month in closed form: from March on the months take turns at 31 and 30 days, five of them
153 days. -/
theorem daysBeforeMonth_eq (y : ℤ) {m : ℤ} (h₁ : 1 ≤ m) (h₂ : m ≤ 13) :
    daysBeforeMonth y m = if m ≤ 2 then 31 * (m - 1)
      else (153 * (m - 3) + 2) / 5 + 59 + if IsLeap y then 1 else 0 := by
  have hone : daysBeforeMonth y 1 = 0 := rfl
  have hnext : ∀ m : ℤ, 1 ≤ m → daysBeforeMonth y (m + 1) = daysBeforeMonth y m + daysInMonth y m :=
    fun m h => daysBeforeMonth_succ y h
  have h2 := hnext 1 (by omega)
  have h3 := hnext 2 (by omega)
  have h4 := hnext 3 (by omega)
  have h5 := hnext 4 (by omega)
  have h6 := hnext 5 (by omega)
  have h7 := hnext 6 (by omega)
  have h8 := hnext 7 (by omega)
  have h9 := hnext 8 (by omega)
  have h10 := hnext 9 (by omega)
  have h11 := hnext 10 (by omega)
  have h12 := hnext 11 (by omega)
  have h13 := hnext 12 (by omega)
  norm_num [daysInMonth] at h2 h3 h4 h5 h6 h7 h8 h9 h10 h11 h12 h13
  interval_cases m <;> norm_num <;> split at h3 <;> simp [*]

theorem daysBeforeMonth_end (y : ℤ) : daysBeforeMonth y 13 = daysInYear y := by
  rw [daysBeforeMonth_eq y (by omega) le_rfl, if_neg (by omega), daysInYear]
  split <;> rfl

theorem daysBeforeYear_le {y y' : ℤ} (h : y ≤ y') : daysBeforeYear y ≤ daysBeforeYear y' := by
  induction y', h using Int.leInduction with
  | base => exact le_rfl
  | succ y' _ ih =>
    have := daysInYear_pos y'
    rw [daysBeforeYear_succ]
    omega

theorem daysBeforeMonth_le (y : ℤ) {m m' : ℤ} (h₁ : 1 ≤ m) (h : m ≤ m') :
    daysBeforeMonth y m ≤ daysBeforeMonth y m' := by
  induction m', h using Int.leInduction with
  | base => exact le_rfl
  | succ m' hle ih =>
    have := daysInMonth_pos y m'
    rw [daysBeforeMonth_succ y (by omega)]
    omega

/-! ## Dates and times -/

/-- A date and a time of day. -/
structure DateTime where
  year : ℤ
  month : ℤ
  day : ℤ
  hour : ℕ
  minute : ℕ
  second : ℕ
  deriving DecidableEq, Repr

namespace DateTime

/-- The date exists, and so does the time of day. -/
structure Valid (t : DateTime) : Prop where
  month : 1 ≤ t.month ∧ t.month ≤ 12
  day : 1 ≤ t.day ∧ t.day ≤ daysInMonth t.year t.month
  hour : t.hour < 24
  minute : t.minute < 60
  second : t.second < 60

/-- The days from 1970-01-01 to the date. -/
def days (t : DateTime) : ℤ := daysBeforeYear t.year + daysBeforeMonth t.year t.month + (t.day - 1)

/-- The seconds from 1970-01-01T00:00:00. -/
def seconds (t : DateTime) : ℤ := 86400 * t.days + 3600 * t.hour + 60 * t.minute + t.second

/-- The fields, the most significant first. -/
def key (t : DateTime) : ℤ ×ₗ ℤ ×ₗ ℤ ×ₗ ℕ ×ₗ ℕ ×ₗ ℕ :=
  toLex (t.year, toLex (t.month, toLex (t.day, toLex (t.hour, toLex (t.minute, t.second)))))

theorem key_lt_key {s t : DateTime} : s.key < t.key ↔ s.year < t.year ∨ s.year = t.year ∧
    (s.month < t.month ∨ s.month = t.month ∧ (s.day < t.day ∨ s.day = t.day ∧
      (s.hour < t.hour ∨ s.hour = t.hour ∧ (s.minute < t.minute ∨ s.minute = t.minute ∧ s.second < t.second)))) := by
  simp only [key, Prod.Lex.toLex_lt_toLex]

theorem key_injective {s t : DateTime} (h : s.key = t.key) : s = t := by
  obtain ⟨y, mo, d, hr, mi, se⟩ := s
  simp only [key, toLex_inj, Prod.mk.injEq] at h
  obtain ⟨rfl, rfl, rfl, rfl, rfl, rfl⟩ := h
  rfl

theorem days_lt {t : DateTime} (h : t.Valid) :
    t.days < daysBeforeYear t.year + daysBeforeMonth t.year (t.month + 1) ∧
      t.days < daysBeforeYear (t.year + 1) := by
  have hday := h.day.2
  have hmonth := daysBeforeMonth_succ t.year h.month.1
  have hmonths := h.month
  have hyear : daysBeforeMonth t.year (t.month + 1) ≤ daysBeforeMonth t.year 13 :=
    daysBeforeMonth_le t.year (by omega) (by omega)
  rw [daysBeforeMonth_end] at hyear
  rw [daysBeforeYear_succ, days]
  omega

/-- **A date and time that is lexicographically later is further away.** -/
theorem seconds_lt_seconds {s t : DateTime} (hs : s.Valid) (ht : t.Valid) (h : s.key < t.key) :
    s.seconds < t.seconds := by
  obtain ⟨hsMonth, hsYear⟩ := days_lt hs
  have htMonth : 0 ≤ daysBeforeMonth t.year t.month := daysBeforeMonth_le t.year le_rfl ht.month.1
  have htDay := ht.day.1
  have hh := hs.hour
  have hm := hs.minute
  have hsec := hs.second
  rw [key_lt_key] at h
  rcases h with hyear | ⟨hyear, hmonth | ⟨hmonth, hday | ⟨hday, htime⟩⟩⟩
  · have hle : daysBeforeYear (s.year + 1) ≤ daysBeforeYear t.year := daysBeforeYear_le (by omega)
    have hdays : s.days < t.days := by
      rw [days.eq_def t]
      omega
    unfold seconds
    omega
  · have hsm := hs.month.1
    have hle : daysBeforeMonth s.year (s.month + 1) ≤ daysBeforeMonth s.year t.month :=
      daysBeforeMonth_le s.year (by omega) (by omega)
    have hdays : s.days < t.days := by
      rw [days.eq_def t, ← hyear]
      omega
    unfold seconds
    omega
  · unfold seconds days
    rw [hyear, hmonth]
    omega
  · unfold seconds days
    rw [hyear, hmonth, hday]
    omega

theorem key_lt_key_of_seconds {s t : DateTime} (hs : s.Valid) (ht : t.Valid) (h : s.seconds < t.seconds) :
    s.key < t.key := by
  rcases lt_trichotomy s.key t.key with hlt | heq | hgt
  · exact hlt
  · rw [key_injective heq] at h
    exact absurd h (lt_irrefl _)
  · exact absurd (seconds_lt_seconds ht hs hgt) h.not_gt

end DateTime

end LbProxy.Lib.Calendar
