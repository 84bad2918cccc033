import Orionis.Time.Rtc

/-!
# The number formats of the clock chip

Two bits of status register B decide how the chip stores a time: in binary or in decimal
digits, and with hours from 0 to 23 or from 1 to 12 with a flag for the afternoon. On a clock
that stands still the driver undoes this in 24-hour mode, but in binary mode it takes every
year for one of the years from 2000 on. In 12-hour mode noon and midnight are read wrongly,
and with decimal digits the whole afternoon, for the flag is taken for a part of the digits.
-/

namespace Orionis.Time

/-! ## The chip -/

/-- A field in its register. -/
def fieldByte (statusB : UInt8) (n : ℕ) : UInt8 :=
  if statusB &&& 0x04 = 0 then toBcd n else UInt8.ofNat n

/-- The hour on a clock face. -/
def hourOfTwelve (hour : ℕ) : ℕ := if hour % 12 = 0 then 12 else hour % 12

/-- The register of the hours. In 12-hour mode bit 7 is the flag for the afternoon. -/
def hourByte (statusB : UInt8) (hour : ℕ) : UInt8 :=
  if statusB &&& 0x02 ≠ 0 then fieldByte statusB hour
  else fieldByte statusB (hourOfTwelve hour) ||| if 12 ≤ hour then 0x80 else 0

/-- The registers of a chip that stands still. -/
def chipRegister (statusB : UInt8) (t : Civil) (reg : UInt8) : UInt8 :=
  if reg = 0x00 then fieldByte statusB t.second
  else if reg = 0x02 then fieldByte statusB t.minute
  else if reg = 0x04 then hourByte statusB t.hour
  else if reg = 0x07 then fieldByte statusB t.day
  else if reg = 0x08 then fieldByte statusB t.month
  else if reg = 0x09 then fieldByte statusB (t.year % 100)
  else if reg = 0x32 then fieldByte statusB (t.year / 100)
  else if reg = 0x0B then statusB
  else 0

/-- The hour is one the driver reads correctly. -/
def HourReadable (statusB : UInt8) (hour : ℕ) : Prop :=
  statusB &&& 0x02 ≠ 0 ∨ (1 ≤ hour ∧ hour ≤ 11) ∨ (statusB &&& 0x04 ≠ 0 ∧ 13 ≤ hour)

/-- The year is one the driver reads correctly. -/
def YearReadable (statusB : UInt8) (year : ℕ) : Prop :=
  statusB &&& 0x04 = 0 ∨ year / 100 = 20

/-! ## What the driver reads -/

/-- What `rtc_get_time` makes of the register of a field. -/
def readField (statusB byte : UInt8) : UInt8 := if statusB &&& 0x04 = 0 then bcdToBin byte else byte

/-- What it makes of the register of the hours: the digits are undone before the flag is
looked at. -/
def readHour (statusB byte : UInt8) : UInt8 :=
  let hour := readField statusB byte
  if statusB &&& 0x02 = 0 ∧ hour &&& 0x80 ≠ 0 then ((hour &&& 0x7F) + 12) % 24 else hour

/-- A field is read as the number the clock encodes. -/
theorem readField_fieldByte (statusB : UInt8) {n : ℕ} (h : n < 100) :
    (readField statusB (fieldByte statusB n)).toNat = n := by
  rw [readField, fieldByte]
  split
  · exact Cmos.bcdToBin_toBcd h
  · exact Cmos.toNat_ofNat h

/-- Each field is read from its register. -/
theorem rtcGetTime_chipRegister (statusB : UInt8) (t : Civil) :
    (rtcGetTime fun _ => chipRegister statusB t).civil =
      { second := (readField statusB (fieldByte statusB t.second)).toNat
        minute := (readField statusB (fieldByte statusB t.minute)).toNat
        hour := (readHour statusB (hourByte statusB t.hour)).toNat
        day := (readField statusB (fieldByte statusB t.day)).toNat
        month := (readField statusB (fieldByte statusB t.month)).toNat
        year :=
          if statusB &&& 0x04 = 0 then
            ((bcdToBin (fieldByte statusB (t.year % 100))).toNat +
              (bcdToBin (fieldByte statusB (t.year / 100))).toNat * 100) % 2 ^ 16
          else (fieldByte statusB (t.year % 100)).toNat + 2000 } := by
  have hstatus : chipRegister statusB t 0x0B = statusB := rfl
  have hhour : chipRegister statusB t 0x04 = hourByte statusB t.hour := rfl
  rw [rtcGetTime]
  simp only [hstatus, hhour, readHour, readField]
  by_cases hmode : statusB &&& 0x04 = 0
  · simp only [if_pos hmode]
    by_cases hflag : statusB &&& 0x02 = 0 ∧ bcdToBin (hourByte statusB t.hour) &&& 0x80 ≠ 0
    · simp only [if_pos hflag]
      rfl
    · simp only [if_neg hflag]
      rfl
  · simp only [if_neg hmode]
    by_cases hflag : statusB &&& 0x02 = 0 ∧ hourByte statusB t.hour &&& 0x80 ≠ 0
    · simp only [if_pos hflag]
      rfl
    · simp only [if_neg hflag]
      rfl

/-- The hour comes back just if it is readable. -/
theorem readHour_hourByte_iff (statusB : UInt8) {hour : ℕ} (h : hour < 24) :
    (readHour statusB (hourByte statusB hour)).toNat = hour ↔ HourReadable statusB hour := by
  unfold readHour hourByte readField fieldByte HourReadable
  by_cases hmode : statusB &&& 0x04 = 0 <;> by_cases htwelve : statusB &&& 0x02 = 0
  · simp only [ne_eq, hmode, htwelve]
    revert hour
    decide
  · simp only [ne_eq, hmode, htwelve]
    revert hour
    decide
  · simp only [ne_eq, hmode, htwelve]
    revert hour
    decide
  · simp only [ne_eq, hmode, htwelve]
    revert hour
    decide

/-- The year comes back just if it is readable. -/
theorem year_chipRegister_iff (statusB : UInt8) {year : ℕ} (h : year < 10000) :
    (if statusB &&& 0x04 = 0 then
        ((bcdToBin (fieldByte statusB (year % 100))).toNat +
          (bcdToBin (fieldByte statusB (year / 100))).toNat * 100) % 2 ^ 16
      else (fieldByte statusB (year % 100)).toNat + 2000) = year ↔ YearReadable statusB year := by
  have hlow : year % 100 < 100 := Nat.mod_lt _ (by decide)
  have hhigh : year / 100 < 100 := by omega
  unfold YearReadable fieldByte
  by_cases hmode : statusB &&& 0x04 = 0
  · simp only [hmode, if_true, Cmos.bcdToBin_toBcd hlow, Cmos.bcdToBin_toBcd hhigh, true_or, iff_true]
    omega
  · simp only [hmode, if_false, Cmos.toNat_ofNat hlow, false_or]
    omega

/-! ## Main result -/

/-- On a clock that stands still the driver returns the time exactly when its hour and its
year are readable. -/
theorem rtcGetTime_eq_iff (statusB : UInt8) {leap : ℕ → Bool} {t : Civil} (h : t.Valid leap) :
    (rtcGetTime fun _ => chipRegister statusB t).civil = t ↔
      HourReadable statusB t.hour ∧ YearReadable statusB t.year := by
  have hday : t.day < 100 := by
    have hle := h.day_le
    have hdays := Civil.daysIn_le leap t.year t.month
    omega
  rw [rtcGetTime_chipRegister, Civil.ext_iff]
  dsimp only
  rw [readField_fieldByte _ (h.second_lt.trans (by decide)),
    readField_fieldByte _ (h.minute_lt.trans (by decide)), readField_fieldByte _ hday,
    readField_fieldByte _ (h.month_le.trans_lt (by decide)), readHour_hourByte_iff _ h.hour_lt,
    year_chipRegister_iff _ h.year_lt]
  tauto

/-- A spring morning, in every mode. -/
theorem rtcGetTime_eq_iff_morning :
    let t : Civil := { second := 30, minute := 15, hour := 9, day := 6, month := 5, year := 2024 }
    ∀ statusB, (rtcGetTime fun _ => chipRegister statusB t).civil = t ↔
      HourReadable statusB t.hour ∧ YearReadable statusB t.year := by
  intro t statusB
  have hvalid : t.Valid gregorian := by constructor <;> decide
  exact rtcGetTime_eq_iff statusB hvalid

/-- In the default mode of the chip, decimal digits and twelve hours, one in the afternoon is
read as hour 81. -/
theorem not_rtcGetTime_eq_afternoon :
    ¬ ∀ (statusB : UInt8) (t : Civil), t.Valid gregorian →
      (rtcGetTime fun _ => chipRegister statusB t).civil = t := by
  intro hall
  let t : Civil := { second := 0, minute := 0, hour := 13, day := 6, month := 5, year := 2024 }
  have hread : (rtcGetTime fun _ => chipRegister 0 t).civil.hour = 81 := by decide
  rw [hall 0 t (by constructor <;> decide)] at hread
  exact absurd hread (by decide)

end Orionis.Time
