import Orionis.Console.Numerals
import Orionis.Foundations.CString
import Orionis.Time.Calendar
import Orionis.Time.RtcModes

/-!
# The `time` command

`cmd_time` takes the clock to be in UTC, adds eight hours and carries into the day, the month and
the year. Its leap years are those divisible by four, so it shows a 29 February that the calendar
does not have on the last evening of February in three of four century years.
-/

namespace Orionis.Time

open Orionis.Foundations Orionis.Console

/-- The color of all the texts, white. -/
def timeColor : ℕ := 0xFFFFFF

/-- What `cmd_time` does to the time before it prints it. -/
def toBeijing (time : RtcTime) : RtcTime :=
  let time := { time with hour := time.hour + 8 }
  if time.hour ≥ 24 then
    let time := { time with hour := time.hour - 24, day := time.day + 1 }
    let daysInMonth : UInt8 :=
      if time.month = 4 ∨ time.month = 6 ∨ time.month = 9 ∨ time.month = 11 then 30
      else if time.month = 2 then if time.year % 4 = 0 then 29 else 28
      else 31
    if time.day > daysInMonth then
      let time := { time with day := 1, month := time.month + 1 }
      if time.month > 12 then { time with month := 1, year := (time.year + 1) % 2 ^ 32 } else time
    else time
  else time

/-- `if (value < 10) tty_print("0"); print_dec(value)`. -/
def printTwoDigits (value : UInt8) : List Call :=
  (if value < 10 then [.print (ascii "0") timeColor] else []) ++ [.printDec value.toUInt64 timeColor]

/-- `cmd_time`. -/
def cmdTime (readCmos : ℕ → UInt8 → UInt8) : List Call :=
  let time := toBeijing (rtcGetTime readCmos)
  [.print (ascii "\n") timeColor, .printDec (UInt64.ofNat time.year) timeColor,
    .print (ascii "-") timeColor] ++ printTwoDigits time.month ++
  [.print (ascii "-") timeColor] ++ printTwoDigits time.day ++
  [.print (ascii " ") timeColor] ++ printTwoDigits time.hour ++
  [.print (ascii ":") timeColor] ++ printTwoDigits time.minute ++
  [.print (ascii ":") timeColor] ++ printTwoDigits time.second ++
  [.print (ascii "\n") timeColor]

/-! ## What is shown -/

/-- A number in decimal. -/
def decimal (n : ℕ) : List UInt8 := (numeral 10 n).map decChar

/-- Two decimal digits. -/
def twoDigits (n : ℕ) : List UInt8 := [decChar (n / 10), decChar (n % 10)]

/-- A line `YYYY-MM-DD HH:MM:SS`. -/
def timeLine (t : Civil) : List UInt8 :=
  ascii "\n" ++ decimal t.year ++ ascii "-" ++ twoDigits t.month ++ ascii "-" ++ twoDigits t.day ++
    ascii " " ++ twoDigits t.hour ++ ascii ":" ++ twoDigits t.minute ++ ascii ":" ++
    twoDigits t.second ++ ascii "\n"

/-- The characters a call shows. -/
def callText : Call → List UInt8
  | .clear => []
  | .putc c _ => [c]
  | .print text _ => text
  | .printHex value _ => (numeral 16 value.toNat).map hexChar
  | .printDec value _ => decimal value.toNat
  | .kernelPrint text _ _ => text

/-- The calls show a text, on any display. -/
structure ShowsText (calls : List Call) (text : List UInt8) : Prop where
  chars : calls.flatMap callText = text
  screen : ∀ d t, calls.foldl (Tty.call d) t = t.print d text timeColor

/-- A valid date and time of day, eight hours later. -/
structure EightHoursLater (leap : ℕ → Bool) (utc later : Civil) : Prop where
  onCalendar : later.OnCalendar leap
  moment_eq : later.moment leap = utc.moment leap + 8 * 3600

variable {leap : ℕ → Bool} {utc : Civil} {time : RtcTime}

/-- A number below ten is one digit. -/
theorem decimal_of_lt {n : ℕ} (h : n < 10) : decimal n = [decChar n] := by
  rw [decimal, numeral_eq (by decide), Nat.div_eq_of_lt h, if_pos rfl, Nat.mod_eq_of_lt h]
  rfl

/-- Two digits are the number with a zero before it where it has only one. -/
theorem twoDigits_eq {n : ℕ} (h : n < 100) :
    twoDigits n = (if n < 10 then ascii "0" else []) ++ decimal n := by
  have htens : n / 10 < 10 := by omega
  by_cases hlt : n < 10
  · rw [if_pos hlt, decimal_of_lt hlt, twoDigits, Nat.div_eq_of_lt hlt, Nat.mod_eq_of_lt hlt]
    rfl
  · have hpos : n / 10 ≠ 0 := by omega
    rw [if_neg hlt, decimal, numeral_eq (by decide), if_neg hpos, List.map_append, ← decimal,
      decimal_of_lt htens]
    rfl

section ShowsText

variable {calls rest : List Call} {text tail : List UInt8}

/-- Calls one after the other show their texts one behind the other. -/
theorem ShowsText.append (h : ShowsText calls text) (hrest : ShowsText rest tail) :
    ShowsText (calls ++ rest) (text ++ tail) := by
  refine ⟨?_, fun d t => ?_⟩
  · rw [List.flatMap_append, h.chars, hrest.chars]
  · rw [List.foldl_append, h.screen, hrest.screen, Tty.print, Tty.print, Tty.print,
      List.foldl_append]

/-- `print` shows its string. -/
theorem shows_print (text : List UInt8) : ShowsText [.print text timeColor] text :=
  ⟨List.append_nil text, fun _ _ => rfl⟩

/-- `print_dec` shows the number in decimal. -/
theorem shows_printDec (value : UInt64) :
    ShowsText [.printDec value timeColor] (decimal value.toNat) :=
  ⟨List.append_nil _, fun d t => Tty.printDec_eq d t value timeColor⟩

/-- A zero is printed before a field below ten. -/
theorem shows_printTwoDigits {value : UInt8} (h : value.toNat < 100) :
    ShowsText (printTwoDigits value) (twoDigits value.toNat) := by
  rw [twoDigits_eq h]
  have hlast := shows_printDec value.toUInt64
  rw [UInt8.toNat_toUInt64] at hlast
  have hiff : value < 10 ↔ value.toNat < 10 := UInt8.lt_iff_toNat_lt
  by_cases hlt : value < 10
  · rw [printTwoDigits, if_pos hlt, if_pos (hiff.1 hlt)]
    exact (shows_print _).append hlast
  · rw [printTwoDigits, if_neg hlt, if_neg (mt hiff.2 hlt)]
    exact hlast

end ShowsText

/-- What `cmd_time` shows of a time with two digits a field. -/
theorem shows_cmdTime {readCmos : ℕ → UInt8 → UInt8}
    (h : (toBeijing (rtcGetTime readCmos)).civil.OnCalendar leap)
    (hyear : (toBeijing (rtcGetTime readCmos)).year < 2 ^ 64) :
    ShowsText (cmdTime readCmos) (timeLine (toBeijing (rtcGetTime readCmos)).civil) := by
  obtain ⟨hsecond, hminute, hhour, -, hday, -, hmonth⟩ := h
  have hdays := hday.trans (Civil.daysIn_le _ _ _)
  have hyears := shows_printDec (UInt64.ofNat (toBeijing (rtcGetTime readCmos)).year)
  rw [UInt64.toNat_ofNat_of_lt' hyear] at hyears
  have hhead := ((shows_print (ascii "\n")).append hyears).append (shows_print (ascii "-"))
  have hdate := ((hhead.append (shows_printTwoDigits (hmonth.trans_lt (by decide)))).append
    (shows_print (ascii "-"))).append (shows_printTwoDigits (hdays.trans_lt (by decide)))
  have hclock := ((((hdate.append (shows_print (ascii " "))).append
    (shows_printTwoDigits (hhour.trans (by decide)))).append (shows_print (ascii ":"))).append
    (shows_printTwoDigits (hminute.trans (by decide)))).append (shows_print (ascii ":"))
  exact (hclock.append (shows_printTwoDigits (hsecond.trans (by decide)))).append
    (shows_print (ascii "\n"))

/-! ## The carries -/

/-- The leap years of `cmd_time`. -/
def everyFourth (year : ℕ) : Bool := year % 4 = 0

/-- Eight hours later in a calendar. -/
def Civil.eightHoursLater (leap : ℕ → Bool) (t : Civil) : Civil :=
  if t.hour < 16 then { t with hour := t.hour + 8 }
  else Civil.tomorrow leap { t with hour := t.hour - 16 }

/-- Eight hours lead to the next year at most. -/
theorem Civil.eightHoursLater_year_le (leap : ℕ → Bool) (t : Civil) :
    (t.eightHoursLater leap).year ≤ t.year + 1 := by
  unfold Civil.eightHoursLater Civil.tomorrow
  split_ifs <;> simp

/-- The carries come to the civil time eight hours later. -/
theorem Civil.OnCalendar.eightHoursLater (h : utc.OnCalendar leap) :
    EightHoursLater leap utc (utc.eightHoursLater leap) := by
  have hhour := h.hour_lt
  unfold Civil.eightHoursLater
  split_ifs with hlt
  · refine ⟨{ h with hour_lt := Nat.add_lt_add_right hlt 8 }, ?_⟩
    have hday : Civil.dayNumber leap { utc with hour := utc.hour + 8 } = utc.dayNumber leap := rfl
    simp only [Civil.moment, hday]
    omega
  · have hday : Civil.OnCalendar leap { utc with hour := utc.hour - 16 } :=
      { h with hour_lt := by dsimp only; omega }
    refine ⟨hday.tomorrow, ?_⟩
    have hclock : ∀ t : Civil, (t.tomorrow leap).second = t.second ∧
        (t.tomorrow leap).minute = t.minute ∧ (t.tomorrow leap).hour = t.hour := by
      intro t
      unfold Civil.tomorrow
      split_ifs <;> exact ⟨rfl, rfl, rfl⟩
    obtain ⟨hsecond, hminute, hhours⟩ := hclock { utc with hour := utc.hour - 16 }
    have hnumber := Civil.dayNumber_tomorrow hday
    rw [Civil.moment, hnumber, hsecond, hminute, hhours]
    have hsame : Civil.dayNumber leap { utc with hour := utc.hour - 16 } = utc.dayNumber leap := rfl
    rw [hsame, Civil.moment]
    dsimp only
    omega

/-- The `days_in_month` of the code. -/
theorem daysInMonth_toNat (month : UInt8) (year : ℕ) :
    (if month = 4 ∨ month = 6 ∨ month = 9 ∨ month = 11 then (30 : UInt8)
      else if month = 2 then if year % 4 = 0 then 29 else 28 else 31).toNat =
      daysIn everyFourth year month.toNat := by
  unfold daysIn everyFourth
  simp only [← UInt8.toNat_inj, decide_eq_true_eq]
  norm_num only [UInt8.toNat_ofNat]
  split_ifs <;> first | rfl | omega

/-- A sum of bytes that fits does not wrap. -/
theorem toNat_add_of_lt {a b : UInt8} (h : a.toNat + b.toNat < 2 ^ 8) :
    (a + b).toNat = a.toNat + b.toNat := by
  rw [UInt8.toNat_add, Nat.mod_eq_of_lt h]

/-- The code carries by its own leap years. -/
theorem civil_toBeijing (h : time.civil.Valid everyFourth) :
    (toBeijing time).civil = time.civil.eightHoursLater everyFourth := by
  obtain ⟨second, minute, hour, day, month, year⟩ := time
  obtain ⟨-, -, hhour, -, hday, -, hmonth, hyear⟩ := h
  simp only [RtcTime.civil] at hhour hday hmonth hyear
  have hdays := hday.trans (Civil.daysIn_le _ _ _)
  have hlater : (hour + 8).toNat = hour.toNat + 8 :=
    toNat_add_of_lt (Nat.add_lt_add_right (hhour.trans (by decide : 24 < 248)) 8)
  have hnext : (day + 1).toNat = day.toNat + 1 :=
    toNat_add_of_lt (Nat.add_lt_add_right (hdays.trans_lt (by decide : 31 < 255)) 1)
  have hmonthNext : (month + 1).toNat = month.toNat + 1 :=
    toNat_add_of_lt (Nat.add_lt_add_right (hmonth.trans_lt (by decide : 12 < 255)) 1)
  have hyearNext : (year + 1) % 2 ^ 32 = year + 1 := Nat.mod_eq_of_lt (by omega)
  have hover : hour + 8 ≥ 24 ↔ ¬ hour.toNat < 16 := by
    rw [ge_iff_le, UInt8.le_iff_toNat_le, hlater, not_lt]
    change 24 ≤ hour.toNat + 8 ↔ 16 ≤ hour.toNat
    omega
  have hback : ¬ hour.toNat < 16 → (hour + 8 - 24).toNat = hour.toNat - 16 := by
    intro hge
    rw [UInt8.toNat_sub_of_le _ _ (hover.2 hge), hlater]
    change hour.toNat + 8 - 24 = hour.toNat - 16
    omega
  have hlast : month + 1 > 12 ↔ ¬ month.toNat < 12 := by
    rw [gt_iff_lt, UInt8.lt_iff_toNat_lt, hmonthNext, not_lt]
    exact Nat.lt_succ_iff
  have hcarry : day + 1 > (if month = 4 ∨ month = 6 ∨ month = 9 ∨ month = 11 then (30 : UInt8)
      else if month = 2 then if year % 4 = 0 then 29 else 28 else 31) ↔
      ¬ day.toNat < daysIn everyFourth year month.toNat := by
    rw [gt_iff_lt, UInt8.lt_iff_toNat_lt, hnext, daysInMonth_toNat, not_lt]
    exact Nat.lt_succ_iff
  have hcivil : RtcTime.civil ⟨second, minute, hour, day, month, year⟩ =
      ⟨second.toNat, minute.toNat, hour.toNat, day.toNat, month.toNat, year⟩ := rfl
  rw [hcivil]
  simp only [toBeijing, Civil.eightHoursLater, Civil.tomorrow, hover, hcarry, hlast, hyearNext]
  split_ifs with hlt hday hmonthLt
  · rw [RtcTime.civil, hlater]
  · rw [RtcTime.civil, hback hlt, hnext]
  · rw [RtcTime.civil, hback hlt, hmonthNext]
    rfl
  · rw [RtcTime.civil, hback hlt]
    rfl

/-! ## Main result -/

/-- A year that would be a leap year but for its century. -/
def SkippedLeap (year : ℕ) : Prop := year % 100 = 0 ∧ year % 400 ≠ 0

instance (year : ℕ) : Decidable (SkippedLeap year) := inferInstanceAs (Decidable (_ ∧ _))

/-- The last eight hours before a skipped 29 February. -/
def BeforeSkippedDay (t : Civil) : Prop :=
  16 ≤ t.hour ∧ t.day = 28 ∧ t.month = 2 ∧ SkippedLeap t.year

instance (t : Civil) : Decidable (BeforeSkippedDay t) := inferInstanceAs (Decidable (_ ∧ _))

/-- The two calendars differ in one month of the skipped years. -/
theorem daysIn_everyFourth (year month : ℕ) :
    month = 2 ∧ SkippedLeap year ∧ daysIn everyFourth year month = 29 ∧
        daysIn gregorian year month = 28 ∨
      ¬ (month = 2 ∧ SkippedLeap year) ∧
        daysIn everyFourth year month = daysIn gregorian year month := by
  unfold daysIn gregorian everyFourth SkippedLeap
  simp only [decide_eq_true_eq]
  split_ifs <;> omega

/-- A date of the Gregorian calendar is one of the simplified calendar. -/
theorem valid_everyFourth (h : utc.Valid gregorian) : utc.Valid everyFourth := by
  refine { h with day_le := h.day_le.trans ?_ }
  rcases daysIn_everyFourth utc.year utc.month with ⟨-, -, hfourth, hgregorian⟩ | ⟨-, hsame⟩
  · rw [hfourth, hgregorian]
    decide
  · exact hsame.ge

/-- They agree on when a month ends, but for the hours before a skipped day. -/
theorem eightHoursLater_everyFourth (h : utc.Valid gregorian) :
    utc.eightHoursLater everyFourth =
      if BeforeSkippedDay utc then { utc with hour := utc.hour - 16, day := 29 }
      else utc.eightHoursLater gregorian := by
  have hday := h.day_le
  unfold Civil.eightHoursLater
  by_cases hlt : utc.hour < 16
  · have hnot : ¬ BeforeSkippedDay utc := fun hbefore => absurd hbefore.1 (Nat.not_le_of_lt hlt)
    rw [if_pos hlt, if_neg hnot, if_pos hlt]
  · rw [if_neg hlt, if_neg hlt]
    unfold Civil.tomorrow
    rcases daysIn_everyFourth utc.year utc.month with ⟨hmonth, hskipped, hfourth, hgregorian⟩ | ⟨hnot, hsame⟩
    · -- 28 February is not the last day for the code
      rw [hgregorian] at hday
      simp only [hfourth, hgregorian]
      rw [if_pos (by omega : utc.day < 29)]
      by_cases hbefore : utc.day = 28
      · rw [if_pos ⟨Nat.le_of_not_lt hlt, hbefore, hmonth, hskipped⟩, hbefore]
      · rw [if_neg fun hevening => hbefore hevening.2.1, if_pos (by omega : utc.day < 28)]
    · simp only [hsame]
      rw [if_neg fun hevening : BeforeSkippedDay utc => hnot ⟨hevening.2.2.1, hevening.2.2.2⟩]

/-- The time command is eight hours ahead, but in the hours before a skipped day: these it shows
as that day's. -/
theorem cmdTime_eightHours {readCmos : ℕ → UInt8 → UInt8}
    (h : (rtcGetTime readCmos).civil.Valid gregorian) :
    let utc := (rtcGetTime readCmos).civil
    ∃ shown, ShowsText (cmdTime readCmos) (timeLine shown) ∧
      if BeforeSkippedDay utc then shown = { utc with hour := utc.hour - 16, day := 29 }
      else EightHoursLater gregorian utc shown := by
  intro utc
  have hfourth := valid_everyFourth h
  have hcivil := civil_toBeijing hfourth
  have honCalendar := hfourth.onCalendar.eightHoursLater.onCalendar
  have hyear : (toBeijing (rtcGetTime readCmos)).civil.year < 10001 := by
    rw [hcivil]
    exact (Civil.eightHoursLater_year_le _ _).trans_lt (Nat.succ_lt_succ h.year_lt)
  refine ⟨(toBeijing (rtcGetTime readCmos)).civil, shows_cmdTime (hcivil ▸ honCalendar) ?_, ?_⟩
  · exact hyear.trans (by decide)
  · rw [hcivil, eightHoursLater_everyFourth h]
    split_ifs with hbefore
    · rfl
    · exact h.onCalendar.eightHoursLater

/-- The evening before a leap day. -/
theorem cmdTime_eightHours_leapDay :
    let t : Civil := { second := 30, minute := 15, hour := 20, day := 28, month := 2, year := 2024 }
    let readCmos := fun _ : ℕ => chipRegister 0x02 t
    (rtcGetTime readCmos).civil.Valid gregorian ∧
      let utc := (rtcGetTime readCmos).civil
      ∃ shown, ShowsText (cmdTime readCmos) (timeLine shown) ∧
        if BeforeSkippedDay utc then shown = { utc with hour := utc.hour - 16, day := 29 }
        else EightHoursLater gregorian utc shown := by
  intro t readCmos
  have hvalid : (rtcGetTime readCmos).civil.Valid gregorian := by constructor <;> decide
  exact ⟨hvalid, cmdTime_eightHours hvalid⟩

/-- On 28 February 1900, at four in the afternoon, the next day is not 1 March. -/
theorem not_cmdTime_eightHours :
    ¬ ∀ readCmos : ℕ → UInt8 → UInt8, (rtcGetTime readCmos).civil.Valid gregorian →
      ∃ shown, ShowsText (cmdTime readCmos) (timeLine shown) ∧
        EightHoursLater gregorian (rtcGetTime readCmos).civil shown := by
  intro hall
  let t : Civil := { second := 0, minute := 0, hour := 16, day := 28, month := 2, year := 1900 }
  have hread : (rtcGetTime fun _ => chipRegister 0x02 t).civil = t := by decide
  have hvalid : t.Valid gregorian := by constructor <;> decide
  obtain ⟨shown, hshows, hlater⟩ := hall (fun _ => chipRegister 0x02 t) (by rwa [hread])
  rw [hread] at hlater
  have htrue := hvalid.onCalendar.eightHoursLater
  have hshown : shown = t.eightHoursLater gregorian :=
    hlater.onCalendar.eq_of_moment_eq htrue.onCalendar (hlater.moment_eq.trans htrue.moment_eq.symm)
  have hchars := hshows.chars
  rw [hshown] at hchars
  exact absurd hchars (by decide)

end Orionis.Time
