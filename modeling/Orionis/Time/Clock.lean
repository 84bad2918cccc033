import Mathlib.Logic.Function.Iterate
import Mathlib.Tactic.IntervalCases
import Orionis.Foundations.IndexRing

/-!
# A clock with carries

A clock that advances by one second at a time, with carries up to the century. The leap
years are a parameter. Within a minute from some moment on, the seconds tell the moments
apart, and the other fields change together where the minute ends.
-/

namespace Orionis.Time

open Orionis.Foundations

/-- The fields of a clock. -/
@[ext] structure Civil where
  second : ℕ
  minute : ℕ
  hour : ℕ
  day : ℕ
  month : ℕ
  year : ℕ
  deriving DecidableEq, Repr

/-- The days of a month. -/
def daysIn (leap : ℕ → Bool) (year month : ℕ) : ℕ :=
  if month = 2 then if leap year then 29 else 28
  else if month = 4 ∨ month = 6 ∨ month = 9 ∨ month = 11 then 30 else 31

namespace Civil

/-- A date and time of day in the years 0 to 9999. -/
structure Valid (leap : ℕ → Bool) (t : Civil) : Prop where
  second_lt : t.second < 60
  minute_lt : t.minute < 60
  hour_lt : t.hour < 24
  day_pos : 1 ≤ t.day
  day_le : t.day ≤ daysIn leap t.year t.month
  month_pos : 1 ≤ t.month
  month_le : t.month ≤ 12
  year_lt : t.year < 10000

/-- The carry into the year, and from there into the century. -/
def nextYear (t : Civil) : Civil := { t with year := (t.year + 1) % 10000 }

/-- The carry into the month. -/
def nextMonth (t : Civil) : Civil :=
  if t.month < 12 then { t with month := t.month + 1 } else nextYear { t with month := 1 }

/-- The carry into the day. -/
def nextDay (leap : ℕ → Bool) (t : Civil) : Civil :=
  if t.day < daysIn leap t.year t.month then { t with day := t.day + 1 }
  else nextMonth { t with day := 1 }

/-- The carry into the hour. -/
def nextHour (leap : ℕ → Bool) (t : Civil) : Civil :=
  if t.hour < 23 then { t with hour := t.hour + 1 } else nextDay leap { t with hour := 0 }

/-- The carry into the minute. -/
def nextMinute (leap : ℕ → Bool) (t : Civil) : Civil :=
  if t.minute < 59 then { t with minute := t.minute + 1 } else nextHour leap { t with minute := 0 }

/-- One second passes. -/
def tick (leap : ℕ → Bool) (t : Civil) : Civil :=
  if t.second < 59 then { t with second := t.second + 1 } else nextMinute leap { t with second := 0 }

/-- The fields above the seconds, from the minute to the century. -/
def upper (t : Civil) : ℕ → ℕ
  | 0 => t.minute
  | 1 => t.hour
  | 2 => t.day
  | 3 => t.month
  | 4 => t.year % 100
  | _ => t.year / 100

/-- How many of the upper fields change at the end of the minute: those up to the first one
that does not wrap around. -/
def carries (leap : ℕ → Bool) (t : Civil) : ℕ :=
  if t.minute < 59 then 1
  else if t.hour < 23 then 2
  else if t.day < daysIn leap t.year t.month then 3
  else if t.month < 12 then 4
  else if t.year % 100 < 99 then 5
  else 6

variable {leap : ℕ → Bool} {t u : Civil} {n : ℕ}

/-- A month has more than one day. -/
theorem daysIn_pos (leap : ℕ → Bool) (year month : ℕ) : 2 ≤ daysIn leap year month := by
  unfold daysIn
  split_ifs <;> omega

/-- A month has at most 31 days. -/
theorem daysIn_le (leap : ℕ → Bool) (year month : ℕ) : daysIn leap year month ≤ 31 := by
  unfold daysIn
  split_ifs <;> omega

/-! ## Carries keep the clock valid -/

/-- The carry into the month leads from the first to the first. -/
theorem Valid.nextMonth (h : t.Valid leap) (hday : t.day = 1) : (nextMonth t).Valid leap := by
  obtain ⟨hsecond, hminute, hhour, -, -, hmonth, -, hyear⟩ := h
  have hdays := fun year month => daysIn_pos leap year month
  unfold Civil.nextMonth
  split
  · next hlt =>
    refine ⟨hsecond, hminute, hhour, hday.ge, ?_, Nat.le_add_left 1 _, hlt, hyear⟩
    exact hday.le.trans (Nat.le_of_succ_le (hdays _ _))
  · refine ⟨hsecond, hminute, hhour, hday.ge, ?_, le_rfl,
      (by decide : 1 ≤ 12), Nat.mod_lt _ (by decide)⟩
    exact hday.le.trans (Nat.le_of_succ_le (hdays _ _))

/-- The carry into the day leads to a valid date. -/
theorem Valid.nextDay (h : t.Valid leap) : (nextDay leap t).Valid leap := by
  unfold Civil.nextDay
  split
  · next hlt => exact { h with day_pos := Nat.le_add_left 1 _, day_le := hlt }
  · apply Valid.nextMonth _ rfl
    exact { h with day_pos := le_rfl, day_le := Nat.le_of_succ_le (daysIn_pos _ _ _) }

/-- The carry into the hour leads to a valid time. -/
theorem Valid.nextHour (h : t.Valid leap) : (nextHour leap t).Valid leap := by
  unfold Civil.nextHour
  split
  · next hlt => exact { h with hour_lt := Nat.succ_lt_succ hlt }
  · exact Valid.nextDay { h with hour_lt := Nat.zero_lt_succ _ }

/-- The carry into the minute leads to a valid time. -/
theorem Valid.nextMinute (h : t.Valid leap) : (nextMinute leap t).Valid leap := by
  unfold Civil.nextMinute
  split
  · next hlt => exact { h with minute_lt := Nat.succ_lt_succ hlt }
  · exact Valid.nextHour { h with minute_lt := Nat.zero_lt_succ _ }

/-- A second later the time is valid. -/
theorem Valid.tick (h : t.Valid leap) : (tick leap t).Valid leap := by
  unfold Civil.tick
  split
  · next hlt => exact { h with second_lt := Nat.succ_lt_succ hlt }
  · exact Valid.nextMinute { h with second_lt := Nat.zero_lt_succ _ }

/-! ## What changes -/

/-- The seconds are not part of a carry. -/
theorem nextMinute_second (leap : ℕ → Bool) (t : Civil) : (nextMinute leap t).second = t.second := by
  unfold nextMinute nextHour nextDay nextMonth nextYear
  split_ifs <;> rfl

/-- The seconds count modulo 60. -/
theorem tick_second (h : t.second < 60) : (tick leap t).second = (t.second + 1) % 60 := by
  unfold tick
  split
  · next hlt => exact (Nat.mod_eq_of_lt (Nat.succ_lt_succ hlt)).symm
  · rw [nextMinute_second]
    show 0 = _
    omega

/-- At the end of a minute the fields up to `carries` change, and no others. -/
theorem upper_nextMinute (h : t.Valid leap) {i : ℕ} (hi : i < 6) :
    (nextMinute leap t).upper i = t.upper i ↔ t.carries leap ≤ i := by
  have hdays := daysIn_pos leap t.year t.month
  obtain ⟨-, hminute, hhour, -, hday, -, hmonth, hyear⟩ := h
  unfold nextMinute nextHour nextDay nextMonth nextYear carries
  interval_cases i <;> simp only [upper] <;> split_ifs <;> simp <;> omega

/-! ## Several seconds -/

/-- The clock after `n` seconds. -/
def advance (leap : ℕ → Bool) (n : ℕ) (t : Civil) : Civil := (tick leap)^[n] t

/-- The last second of an interval. -/
theorem advance_succ (leap : ℕ → Bool) (n : ℕ) (t : Civil) :
    advance leap (n + 1) t = tick leap (advance leap n t) := Function.iterate_succ_apply' _ _ _

/-- Intervals one after the other. -/
theorem advance_add (leap : ℕ → Bool) (m n : ℕ) (t : Civil) :
    advance leap (m + n) t = advance leap m (advance leap n t) := Function.iterate_add_apply _ _ _ _

/-- The clock shows a valid time at every moment. -/
theorem Valid.advance (h : t.Valid leap) (n : ℕ) : (advance leap n t).Valid leap := by
  induction n with
  | zero => exact h
  | succ n ih =>
    rw [advance_succ]
    exact ih.tick

/-- The seconds after any interval. -/
theorem second_advance (h : t.Valid leap) (n : ℕ) :
    (advance leap n t).second = (t.second + n) % 60 := by
  induction n with
  | zero => exact (Nat.mod_eq_of_lt h.second_lt).symm
  | succ n ih => rw [advance_succ, tick_second (h.advance n).second_lt, ih, Nat.mod_add_mod, Nat.add_assoc]

/-- The seconds tell the moments of a minute apart. -/
theorem eq_of_second_eq (h : t.Valid leap) {m n : ℕ} (hm : m < 60) (hn : n < 60)
    (heq : (advance leap m t).second = (advance leap n t).second) : m = n := by
  rw [second_advance h, second_advance h] at heq
  omega

/-- Up to the end of the minute only the seconds change. -/
theorem advance_of_lt (h : t.second + n < 60) :
    advance leap n t = { t with second := t.second + n } := by
  induction n with
  | zero => rfl
  | succ n ih =>
    have hlt : t.second + n < 59 := by omega
    rw [advance_succ, ih (by omega), tick, if_pos hlt]
    rfl

/-- At the end of the minute there is one carry, and then none for another minute. -/
theorem upper_advance (h : t.Valid leap) (hn : n < 60) {i : ℕ} (hi : i < 6) :
    (advance leap n t).upper i = t.upper i ↔ t.second + n < 60 ∨ t.carries leap ≤ i := by
  have hsecond := h.second_lt
  by_cases hlt : t.second + n < 60
  · rw [advance_of_lt hlt]
    exact ⟨fun _ => Or.inl hlt, fun _ => rfl⟩
  · rw [or_iff_right hlt]
    have hsplit : n = t.second + n - 60 + (59 - t.second + 1) := by omega
    have hend : advance leap (59 - t.second + 1) t = nextMinute leap { t with second := 0 } := by
      rw [advance_succ, advance_of_lt (by omega), tick, if_neg (by simp; omega)]
    rw [hsplit, advance_add, hend, advance_of_lt (by rw [nextMinute_second]; simp; omega)]
    have hzero : ({ t with second := 0 } : Civil).Valid leap :=
      { h with second_lt := Nat.zero_lt_succ _ }
    exact upper_nextMinute hzero hi

end Civil

end Orionis.Time
