import LbProxy.Lib.Bytes
import LbProxy.Lib.Calendar

/-!
# Timestamps of the benchmark report (`hardware.rs`)

* `i64` — the arithmetic is that of `i64`, where `none` is an overflow;
* `civilFromDays`, `dateTime`, `formatIso8601` — the civil-from-days algorithm and the text made of it;
* `yearOfEra_eq`, `monthDay_spec` — where the nested divisions cut an era and a year;
* `dateTime_correct` — the date and time exist, are as far from the epoch as the input says, never overflow, and
  grow with the input.
-/

namespace LbProxy.Bench

open Lib Calendar

/-- The result of an `i64` operation; `none` is an overflow. -/
def i64 (x : ℤ) : Option ℤ := if -2 ^ 63 ≤ x ∧ x < 2 ^ 63 then some x else none

/-- The year of the era: `(doe - doe / 1_460 + doe / 36_524 - doe / 146_096) / 365`. -/
def yearOfEra (doe : ℤ) : Option ℤ := do
  let a ← i64 (doe - (← i64 (doe.tdiv 1460)))
  let b ← i64 (a + (← i64 (doe.tdiv 36524)))
  let c ← i64 (b - (← i64 (doe.tdiv 146096)))
  i64 (c.tdiv 365)

/-- The day of the year that starts in March: `doe - (365 * yoe + yoe / 4 - yoe / 100)`. -/
def dayOfYear (doe yoe : ℤ) : Option ℤ := do
  let a ← i64 ((← i64 (365 * yoe)) + (← i64 (yoe.tdiv 4)))
  let b ← i64 (a - (← i64 (yoe.tdiv 100)))
  i64 (doe - b)

/-- The month and the day of the month. -/
def monthDay (doy : ℤ) : Option (ℤ × ℤ) := do
  let mp ← i64 ((← i64 ((← i64 (5 * doy)) + 2)).tdiv 153)
  let first ← i64 ((← i64 ((← i64 (153 * mp)) + 2)).tdiv 5)
  let d ← i64 ((← i64 (doy - first)) + 1)
  let m ← if mp < 10 then i64 (mp + 3) else i64 (mp - 9)
  return (m, d)

/-- `civil_from_days`: shift the epoch to 0000-03-01 so leap days land last. -/
def civilFromDays (days : ℤ) : Option (ℤ × ℤ × ℤ) := do
  let z ← i64 (days + 719468)
  let era ← i64 (z / 146097)
  let doe ← i64 (z % 146097)
  let yoe ← yearOfEra doe
  let y ← i64 (yoe + (← i64 (era * 400)))
  let doy ← dayOfYear doe yoe
  let (m, d) ← monthDay doy
  let y ← if m ≤ 2 then i64 (y + 1) else some y
  return (y, m, d)

/-- The fields of the timestamp. -/
def dateTime (unixSecs : UInt64) : Option DateTime := do
  let days ← i64 (unixSecs.toNat / 86400 : ℕ)
  let rem := unixSecs.toNat % 86400
  let (y, m, d) ← civilFromDays days
  return ⟨y, m, d, rem / 3600, rem % 3600 / 60, rem % 60⟩

/-- A number, padded with zeros to a width. -/
def padded (width : ℕ) (n : ℤ) : Bytes :=
  let sign : List Char := if n < 0 then ['-'] else []
  let digits := Nat.toDigits 10 n.natAbs
  (sign ++ List.replicate (width - sign.length - digits.length) '0' ++ digits).map fun c => UInt8.ofNat c.toNat

/-- Format a time as an ISO 8601 UTC timestamp. -/
def formatIso8601 (unixSecs : UInt64) : Option Bytes :=
  (dateTime unixSecs).map fun t =>
    padded 4 t.year ++ ascii "-" ++ padded 2 t.month ++ ascii "-" ++ padded 2 t.day ++ ascii "T" ++
      padded 2 t.hour ++ ascii ":" ++ padded 2 t.minute ++ ascii ":" ++ padded 2 t.second ++ ascii "Z"

/-- The current time, or the epoch if the clock is before it. -/
def iso8601Now (sinceEpoch : Option UInt64) : Option Bytes := formatIso8601 (sinceEpoch.getD 0)

/-! ## The year -/

theorem i64_eq {x : ℤ} (h₁ : -2 ^ 63 ≤ x) (h₂ : x < 2 ^ 63) : i64 x = some x := if_pos ⟨h₁, h₂⟩

theorem tdiv_eq {x : ℤ} (h : 0 ≤ x) (n : ℤ) : x.tdiv n = x / n := Int.tdiv_eq_ediv_of_nonneg h

/-- **Where the divisions cut an era.**  A century has 36524 days and four years have 1461; only the last year of
four has a day 365, and it is a leap day. -/
theorem yearOfEra_cut {doe yoe : ℤ} (h₀ : 0 ≤ doe) (h₁ : doe < 146097)
    (hyoe : yoe = (doe - doe / 1460 + doe / 36524 - doe / 146096) / 365) :
    0 ≤ yoe ∧ yoe < 400 ∧ 0 ≤ doe - (365 * yoe + yoe / 4 - yoe / 100) ∧
      doe - (365 * yoe + yoe / 4 - yoe / 100) ≤ 365 ∧
      (doe - (365 * yoe + yoe / 4 - yoe / 100) = 365 → IsLeap (yoe + 1)) := by
  unfold IsLeap
  rcases eq_or_ne doe 146096 with rfl | hlast
  · -- the leap day that ends the era
    have hyoe : yoe = 399 := hyoe.trans (by decide)
    subst hyoe
    decide
  · have hlt : doe < 146096 := by omega
    obtain ⟨c, hc⟩ : ∃ c, c = doe / 36524 := ⟨_, rfl⟩
    obtain ⟨q, hq⟩ : ∃ q, q = doe % 36524 / 1461 := ⟨_, rfl⟩
    obtain ⟨s, hs⟩ : ∃ s, s = doe % 36524 % 1461 := ⟨_, rfl⟩
    have hdoe : doe = 36524 * c + 1461 * q + s := by omega
    have hcr : 0 ≤ c ∧ c ≤ 3 := by omega
    have hqr : 0 ≤ q ∧ q ≤ 24 := by omega
    have hsr : 0 ≤ s ∧ s ≤ 1460 := by omega
    -- a century is one day short of 25 times four years
    have hshort : q = 24 → s ≤ 1459 := by omega
    have hlate : doe / 146096 = 0 := by omega
    obtain ⟨u, hu⟩ : ∃ u, u = doe / 1460 - (25 * c + q) := ⟨_, rfl⟩
    have hu01 : u = 0 ∧ 24 * c + q + s < 1460 ∨ u = 1 ∧ 1460 ≤ 24 * c + q + s := by omega
    obtain ⟨t, ht⟩ : ∃ t, t = (s - u) / 365 := ⟨_, rfl⟩
    have htr : 0 ≤ t ∧ t ≤ 3 := by omega
    have hyear : yoe = 100 * c + 4 * q + t := by
      rw [hyoe, hlate, ← hc]
      omega
    have hfour : yoe / 4 = 25 * c + q := by omega
    have hcentury : yoe / 100 = c := by omega
    have hdoy : doe - (365 * yoe + yoe / 4 - yoe / 100) = s - 365 * t := by
      rw [hfour, hcentury, hyear]
      omega
    rw [hdoy]
    refine ⟨by omega, by omega, by omega, by omega, fun hleap => ?_⟩
    have hend : s = 1460 ∧ t = 3 := by omega
    omega

theorem yearOfEra_eq {doe : ℤ} (h₀ : 0 ≤ doe) (h₁ : doe < 146097) :
    yearOfEra doe = some ((doe - doe / 1460 + doe / 36524 - doe / 146096) / 365) := by
  have hpos : 0 ≤ doe - doe / 1460 + doe / 36524 - doe / 146096 := by omega
  unfold yearOfEra
  rw [tdiv_eq h₀, tdiv_eq h₀, tdiv_eq h₀]
  simp (disch := omega) only [i64_eq, tdiv_eq, Option.bind_eq_bind, Option.bind_some]

theorem dayOfYear_eq {doe yoe : ℤ} (hdoe : 0 ≤ doe ∧ doe < 146097) (hyoe : 0 ≤ yoe ∧ yoe < 400) :
    dayOfYear doe yoe = some (doe - (365 * yoe + yoe / 4 - yoe / 100)) := by
  unfold dayOfYear
  rw [tdiv_eq hyoe.1, tdiv_eq hyoe.1]
  simp (disch := omega) only [i64_eq, Option.bind_eq_bind, Option.bind_some]

/-! ## The month -/

/-- The month of a year that starts in March. -/
def calendarMonth (mp : ℤ) : ℤ := if mp < 10 then mp + 3 else mp - 9

theorem monthDay_eq {doy : ℤ} (h₀ : 0 ≤ doy) (h₁ : doy ≤ 365) :
    monthDay doy = some (calendarMonth ((5 * doy + 2) / 153), doy - (153 * ((5 * doy + 2) / 153) + 2) / 5 + 1) := by
  have hmul : i64 (5 * doy) = some (5 * doy) := i64_eq (by omega) (by omega)
  have hadd : i64 (5 * doy + 2) = some (5 * doy + 2) := i64_eq (by omega) (by omega)
  have hdiv : i64 ((5 * doy + 2).tdiv 153) = some ((5 * doy + 2) / 153) := by
    rw [tdiv_eq (by omega)]
    exact i64_eq (by omega) (by omega)
  have hmp : 0 ≤ (5 * doy + 2) / 153 ∧ (5 * doy + 2) / 153 ≤ 11 := by omega
  simp only [monthDay, hmul, hadd, hdiv, Option.bind_eq_bind, Option.bind_some]
  generalize (5 * doy + 2) / 153 = mp at hmp
  have hmul' : i64 (153 * mp) = some (153 * mp) := i64_eq (by omega) (by omega)
  have hadd' : i64 (153 * mp + 2) = some (153 * mp + 2) := i64_eq (by omega) (by omega)
  have hfirst : i64 ((153 * mp + 2).tdiv 5) = some ((153 * mp + 2) / 5) := by
    rw [tdiv_eq (by omega)]
    exact i64_eq (by omega) (by omega)
  have hsub : i64 (doy - (153 * mp + 2) / 5) = some (doy - (153 * mp + 2) / 5) := i64_eq (by omega) (by omega)
  have hday : i64 (doy - (153 * mp + 2) / 5 + 1) = some (doy - (153 * mp + 2) / 5 + 1) :=
    i64_eq (by omega) (by omega)
  have hspring : i64 (mp + 3) = some (mp + 3) := i64_eq (by omega) (by omega)
  have hwinter : i64 (mp - 9) = some (mp - 9) := i64_eq (by omega) (by omega)
  simp only [hmul', hadd', hfirst, hsub, hday, hspring, hwinter, Option.bind_some, Option.pure_def]
  unfold calendarMonth
  split <;> rfl

theorem daysInMonth_calendarMonth (y : ℤ) {mp : ℤ} (h₀ : 0 ≤ mp) (h₁ : mp ≤ 10) :
    daysInMonth y (calendarMonth mp) = (153 * (mp + 1) + 2) / 5 - (153 * mp + 2) / 5 := by
  interval_cases mp <;> rfl

/-- **Where the divisions cut a year.**  The year starts in March, so February comes last and only its length
depends on the year. -/
theorem monthDay_spec {doy y mp : ℤ} (h₀ : 0 ≤ doy) (h₁ : doy ≤ 365) (hleap : doy = 365 → IsLeap (y + 1))
    (hmp : mp = (5 * doy + 2) / 153) :
    (1 ≤ calendarMonth mp ∧ calendarMonth mp ≤ 12) ∧
      (1 ≤ doy - (153 * mp + 2) / 5 + 1 ∧ doy - (153 * mp + 2) / 5 + 1 ≤
        daysInMonth (if calendarMonth mp ≤ 2 then y + 1 else y) (calendarMonth mp)) ∧
      daysBeforeMonth (if calendarMonth mp ≤ 2 then y + 1 else y) (calendarMonth mp) + (doy - (153 * mp + 2) / 5) =
        if calendarMonth mp ≤ 2 then doy - 306 else doy + 59 + if IsLeap y then 1 else 0 := by
  have hmp12 : 0 ≤ mp ∧ mp ≤ 11 := by omega
  have hmonth : 1 ≤ calendarMonth mp ∧ calendarMonth mp ≤ 12 := by
    unfold calendarMonth
    split <;> omega
  rw [daysBeforeMonth_eq _ hmonth.1 (by omega)]
  refine ⟨hmonth, ?_, ?_⟩
  · refine ⟨by omega, ?_⟩
    by_cases hfeb : mp = 11
    · -- February, in the year that started in January
      subst hfeb
      have hm : calendarMonth 11 = 2 := rfl
      rw [hm, if_pos le_rfl, daysInMonth, if_pos rfl]
      split
      · omega
      · rename_i hcommon
        have hne : doy ≠ 365 := fun hday => hcommon (hleap hday)
        omega
    · rw [daysInMonth_calendarMonth _ hmp12.1 (by omega)]
      omega
  · by_cases hlate : mp < 10
    · have hm : calendarMonth mp = mp + 3 := if_pos hlate
      have hmarch : ¬ mp + 3 ≤ 2 := by omega
      simp only [hm, hmarch, if_false, add_sub_cancel_right]
      ring
    · have hm : calendarMonth mp = mp - 9 := if_neg hlate
      have hjan : mp - 9 ≤ 2 := by omega
      simp only [hm, hjan, if_true]
      omega

/-- **The civil date of a day** exists, and the day is as far from 1970-01-01 as the date. -/
theorem civilFromDays_spec {days : ℤ} (h₀ : 0 ≤ days) (h₁ : days < 2 ^ 60) :
    ∃ y m d, civilFromDays days = some (y, m, d) ∧ (1 ≤ m ∧ m ≤ 12) ∧ (1 ≤ d ∧ d ≤ daysInMonth y m) ∧
      daysBeforeYear y + daysBeforeMonth y m + (d - 1) = days := by
  obtain ⟨era, hera⟩ : ∃ era, era = (days + 719468) / 146097 := ⟨_, rfl⟩
  obtain ⟨doe, hdoe⟩ : ∃ doe, doe = (days + 719468) % 146097 := ⟨_, rfl⟩
  have hdoer : 0 ≤ doe ∧ doe < 146097 := by omega
  obtain ⟨yoe, hyoe⟩ : ∃ yoe, yoe = (doe - doe / 1460 + doe / 36524 - doe / 146096) / 365 := ⟨_, rfl⟩
  obtain ⟨hyoe₀, hyoe₁, hdoy₀, hdoy₁, hleap⟩ := yearOfEra_cut hdoer.1 hdoer.2 hyoe
  obtain ⟨doy, hdoy⟩ : ∃ doy, doy = doe - (365 * yoe + yoe / 4 - yoe / 100) := ⟨_, rfl⟩
  rw [← hdoy] at hdoy₀ hdoy₁ hleap
  obtain ⟨mp, hmp⟩ : ∃ mp, mp = (5 * doy + 2) / 153 := ⟨_, rfl⟩
  have hleap' : doy = 365 → IsLeap (yoe + era * 400 + 1) := by
    intro h
    have := hleap h
    unfold IsLeap at this ⊢
    omega
  obtain ⟨hmonth, hday, hdays⟩ := monthDay_spec hdoy₀ hdoy₁ hleap' hmp
  refine ⟨if calendarMonth mp ≤ 2 then yoe + era * 400 + 1 else yoe + era * 400, calendarMonth mp,
    doy - (153 * mp + 2) / 5 + 1, ?_, hmonth, hday, ?_⟩
  · have hz : i64 (days + 719468) = some (days + 719468) := i64_eq (by omega) (by omega)
    have hera' : i64 ((days + 719468) / 146097) = some era := by rw [← hera]; exact i64_eq (by omega) (by omega)
    have hdoe' : i64 ((days + 719468) % 146097) = some doe := by rw [← hdoe]; exact i64_eq (by omega) (by omega)
    have hmul : i64 (era * 400) = some (era * 400) := i64_eq (by omega) (by omega)
    have hyear : i64 (yoe + era * 400) = some (yoe + era * 400) := i64_eq (by omega) (by omega)
    have hnext : i64 (yoe + era * 400 + 1) = some (yoe + era * 400 + 1) := i64_eq (by omega) (by omega)
    simp only [civilFromDays, hz, hera', hdoe', yearOfEra_eq hdoer.1 hdoer.2, ← hyoe, hmul, hyear,
      dayOfYear_eq hdoer ⟨hyoe₀, hyoe₁⟩, ← hdoy, monthDay_eq hdoy₀ hdoy₁, ← hmp, hnext, Option.bind_eq_bind,
      Option.bind_some, Option.pure_def]
    split <;> rfl
  · -- the year after the one that the era counts from March starts after its leap day
    have hnext := daysBeforeYear_eq (yoe + era * 400 + 1)
    have hyear := daysBeforeYear_succ (yoe + era * 400)
    rw [add_sub_cancel_right] at hnext
    have hfour : (yoe + era * 400) / 4 = yoe / 4 + 100 * era := by omega
    have hcentury : (yoe + era * 400) / 100 = yoe / 100 + 4 * era := by omega
    have hera400 : (yoe + era * 400) / 400 = era := by omega
    rw [hfour, hcentury, hera400] at hnext
    split at hdays
    · rename_i h
      rw [if_pos h]
      omega
    · rename_i h
      rw [if_neg h]
      unfold daysInYear at hyear
      split at hdays
      · rename_i hl
        rw [if_pos hl] at hyear
        omega
      · rename_i hl
        rw [if_neg hl] at hyear
        omega

/-! ## The timestamp -/

theorem dateTime_spec (unixSecs : UInt64) :
    ∃ t, dateTime unixSecs = some t ∧ t.Valid ∧ t.seconds = unixSecs.toNat := by
  have hlt : unixSecs.toNat < 2 ^ 64 := unixSecs.toNat_lt
  unfold dateTime
  generalize unixSecs.toNat = n at hlt
  obtain ⟨days, hdays⟩ : ∃ days : ℤ, days = (n / 86400 : ℕ) := ⟨_, rfl⟩
  have hchecked : i64 days = some days := i64_eq (by omega) (by omega)
  obtain ⟨y, m, d, hcivil, hmonth, hday, hdistance⟩ := civilFromDays_spec (by omega : 0 ≤ days) (by omega)
  refine ⟨⟨y, m, d, n % 86400 / 3600, n % 86400 % 3600 / 60, n % 86400 % 60⟩, ?_, ⟨hmonth, hday, ?_, ?_, ?_⟩, ?_⟩
  · simp only [← hdays, hchecked, hcivil, Option.bind_eq_bind, Option.bind_some, Option.pure_def]
  · simp only
    omega
  · simp only
    omega
  · simp only
    omega
  · simp only [DateTime.seconds, DateTime.days, hdistance]
    omega

/-- **Timestamps are correct Gregorian dates**: for every number of seconds no operation overflows, the date and
the time of day exist, they are exactly as far from 1970-01-01T00:00:00 as the input says, and a larger input gives
lexicographically larger fields. -/
theorem dateTime_correct (unixSecs : UInt64) :
    ∃ t, dateTime unixSecs = some t ∧ t.Valid ∧ t.seconds = unixSecs.toNat ∧
      ∀ later, unixSecs < later → ∃ t', dateTime later = some t' ∧ t.key < t'.key := by
  obtain ⟨t, ht, hvalid, hseconds⟩ := dateTime_spec unixSecs
  refine ⟨t, ht, hvalid, hseconds, fun later hlater => ?_⟩
  obtain ⟨t', ht', hvalid', hseconds'⟩ := dateTime_spec later
  refine ⟨t', ht', DateTime.key_lt_key_of_seconds hvalid hvalid' ?_⟩
  rw [hseconds, hseconds']
  exact_mod_cast UInt64.lt_iff_toNat_lt.mp hlater

example : formatIso8601 1709164800 = some (ascii "2024-02-29T00:00:00Z") := by decide +kernel

end LbProxy.Bench
