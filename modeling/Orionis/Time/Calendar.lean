import Mathlib.Algebra.BigOperators.Intervals
import Mathlib.Algebra.Order.BigOperators.Group.Finset
import Orionis.Time.Clock

/-!
# Moments of a calendar

The seconds from the beginning of year 0 to a date and time of day, for any rule of leap years
and with no last year. A moment has one date.
-/

namespace Orionis.Time.Civil

variable {leap : ℕ → Bool} {t u : Civil}

/-- A date and time of day. -/
structure OnCalendar (leap : ℕ → Bool) (t : Civil) : Prop where
  second_lt : t.second < 60
  minute_lt : t.minute < 60
  hour_lt : t.hour < 24
  day_pos : 1 ≤ t.day
  day_le : t.day ≤ daysIn leap t.year t.month
  month_pos : 1 ≤ t.month
  month_le : t.month ≤ 12

/-- The days of a year. -/
def daysOf (leap : ℕ → Bool) (year : ℕ) : ℕ := ∑ month ∈ Finset.Ico 1 13, daysIn leap year month

/-- The days of the year before a date. -/
def dayOfYear (leap : ℕ → Bool) (t : Civil) : ℕ :=
  ∑ month ∈ Finset.Ico 1 t.month, daysIn leap t.year month + (t.day - 1)

/-- The days before a date. -/
def dayNumber (leap : ℕ → Bool) (t : Civil) : ℕ :=
  ∑ year ∈ Finset.Ico 0 t.year, daysOf leap year + t.dayOfYear leap

/-- The seconds before a date and time of day. -/
def moment (leap : ℕ → Bool) (t : Civil) : ℕ :=
  ((t.dayNumber leap * 24 + t.hour) * 60 + t.minute) * 60 + t.second

/-- The next day, in a calendar that does not run out of years. -/
def tomorrow (leap : ℕ → Bool) (t : Civil) : Civil :=
  if t.day < daysIn leap t.year t.month then { t with day := t.day + 1 }
  else if t.month < 12 then { t with month := t.month + 1, day := 1 }
  else { t with year := t.year + 1, month := 1, day := 1 }

/-- A valid time is on the calendar. -/
theorem Valid.onCalendar (h : t.Valid leap) : t.OnCalendar leap := { h with }

/-! ## A moment has one date -/

/-- What is left of a sum by its next term stays below the longer sums. -/
theorem sum_Ico_add_lt {f : ℕ → ℕ} {k a b x : ℕ} (hk : k ≤ a) (hab : a < b) (hx : x < f a) :
    ∑ i ∈ Finset.Ico k a, f i + x < ∑ i ∈ Finset.Ico k b, f i :=
  calc ∑ i ∈ Finset.Ico k a, f i + x
      < ∑ i ∈ Finset.Ico k (a + 1), f i := by
        rw [Finset.sum_Ico_succ_top hk]
        exact Nat.add_lt_add_left hx _
    _ ≤ ∑ i ∈ Finset.Ico k b, f i :=
        Finset.sum_le_sum_of_subset (Finset.Ico_subset_Ico_right hab)

/-- A number has one place only in a sequence of spans. -/
theorem eq_of_sum_Ico_add_eq {f : ℕ → ℕ} {k a b x y : ℕ} (ha : k ≤ a) (hb : k ≤ b) (hx : x < f a)
    (hy : y < f b) (h : ∑ i ∈ Finset.Ico k a, f i + x = ∑ i ∈ Finset.Ico k b, f i + y) :
    a = b ∧ x = y := by
  rcases lt_trichotomy a b with hlt | rfl | hlt
  · have hbelow := sum_Ico_add_lt ha hlt hx
    omega
  · exact ⟨rfl, Nat.add_left_cancel h⟩
  · have hbelow := sum_Ico_add_lt hb hlt hy
    omega

/-- The days before a date in its month are fewer than the days of the month. -/
theorem OnCalendar.day_sub_lt (h : t.OnCalendar leap) : t.day - 1 < daysIn leap t.year t.month :=
  (Nat.sub_one_lt_of_le h.day_pos le_rfl).trans_le h.day_le

/-- The days before a date in its year are fewer than the days of the year. -/
theorem OnCalendar.dayOfYear_lt (h : t.OnCalendar leap) : t.dayOfYear leap < daysOf leap t.year :=
  sum_Ico_add_lt h.month_pos (Nat.lt_succ_of_le h.month_le) h.day_sub_lt

/-- Every moment has one civil time. -/
theorem OnCalendar.eq_of_moment_eq (ht : t.OnCalendar leap) (hu : u.OnCalendar leap)
    (h : t.moment leap = u.moment leap) : t = u := by
  have hday : t.dayNumber leap = u.dayNumber leap ∧ t.hour = u.hour ∧ t.minute = u.minute ∧
      t.second = u.second := by
    have hsecond := And.intro ht.second_lt hu.second_lt
    have hminute := And.intro ht.minute_lt hu.minute_lt
    have hhour := And.intro ht.hour_lt hu.hour_lt
    unfold moment at h
    omega
  obtain ⟨hnumber, hhour, hminute, hsecond⟩ := hday
  obtain ⟨hyear, hofYear⟩ :=
    eq_of_sum_Ico_add_eq (Nat.zero_le _) (Nat.zero_le _) ht.dayOfYear_lt hu.dayOfYear_lt hnumber
  unfold dayOfYear at hofYear
  rw [← hyear] at hofYear
  obtain ⟨hmonth, hdayIn⟩ := eq_of_sum_Ico_add_eq ht.month_pos hu.month_pos ht.day_sub_lt
    (hyear ▸ hu.day_sub_lt) hofYear
  have hdayPos := And.intro ht.day_pos hu.day_pos
  exact Civil.ext hsecond hminute hhour (by omega) hmonth hyear

/-! ## The next day -/

/-- The next day is on the calendar. -/
theorem OnCalendar.tomorrow (h : t.OnCalendar leap) : (t.tomorrow leap).OnCalendar leap := by
  have hdays := fun year month => Nat.le_of_succ_le (daysIn_pos leap year month)
  unfold Civil.tomorrow
  split_ifs with hday hmonth
  · exact { h with day_pos := Nat.le_add_left 1 _, day_le := hday }
  · exact { h with
      day_pos := le_rfl, day_le := hdays _ _, month_pos := Nat.le_add_left 1 _, month_le := hmonth }
  · exact { h with
      day_pos := le_rfl, day_le := hdays _ _, month_pos := le_rfl, month_le := (by decide : 1 ≤ 12) }

/-- It is one day later. -/
theorem dayNumber_tomorrow (h : t.OnCalendar leap) :
    (t.tomorrow leap).dayNumber leap = t.dayNumber leap + 1 := by
  have hday := h.day_le
  have hpos := h.day_pos
  unfold Civil.tomorrow
  split_ifs with hlt hmonth
  · simp only [dayNumber, dayOfYear]
    omega
  · simp only [dayNumber, dayOfYear]
    rw [Finset.sum_Ico_succ_top h.month_pos]
    omega
  · have hlast : t.month = 12 := le_antisymm h.month_le (Nat.le_of_not_lt hmonth)
    simp only [dayNumber, dayOfYear, Finset.Ico_self, Finset.sum_empty]
    rw [Finset.sum_Ico_succ_top (Nat.zero_le _), daysOf, Finset.sum_Ico_succ_top (by decide), hlast]
    rw [hlast] at hlt hday
    omega

end Orionis.Time.Civil
