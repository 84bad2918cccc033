import Orionis.Time.Clock

/-!
# `rtc_get_time` against a running clock

The driver reads the fields of the CMOS clock one after the other, the year and the century
twice, while the clock goes on. It neither waits for an update to end nor reads again to
compare. What it returns is a time the clock held just if no field has changed between the
read of the seconds and its own, and in binary mode just in the years 2000 to 2099.
-/

namespace Orionis.Time

open Orionis.Foundations

/-! ## The driver -/

/-- `rtc_time_t`. -/
structure RtcTime where
  second : UInt8
  minute : UInt8
  hour : UInt8
  day : UInt8
  month : UInt8
  year : ℕ
  deriving DecidableEq, Repr

/-- `bcd_to_bin`. -/
def bcdToBin (bcd : UInt8) : UInt8 := (bcd &&& (0x0F : UInt8)) + (bcd >>> (4 : UInt8)) * 10

/-- `rtc_get_time`. The bytes that `read_cmos` returns are numbered in the order of the
calls; those of calls 5 and 6, year and century, are not used. -/
def rtcGetTime (readCmos : ℕ → UInt8 → UInt8) : RtcTime :=
  let second := readCmos 0 0x00
  let minute := readCmos 1 0x02
  let hour := readCmos 2 0x04
  let day := readCmos 3 0x07
  let month := readCmos 4 0x08
  let registerB := readCmos 7 0x0B
  let time : RtcTime :=
    if registerB &&& 0x04 = 0 then
      { second := bcdToBin second
        minute := bcdToBin minute
        hour := bcdToBin hour
        day := bcdToBin day
        month := bcdToBin month
        year := ((bcdToBin (readCmos 8 0x09)).toNat + (bcdToBin (readCmos 9 0x32)).toNat * 100) % 2 ^ 16 }
    else ⟨second, minute, hour, day, month, (readCmos 8 0x09).toNat + 2000⟩
  if registerB &&& 0x02 = 0 ∧ time.hour &&& 0x80 ≠ 0 then
    { time with hour := ((time.hour &&& 0x7F) + 12) % 24 }
  else time

/-! ## The clock -/

/-- A number below 100 in two decimal digits. -/
def toBcd (n : ℕ) : UInt8 := UInt8.ofNat (n / 10 * 16 + n % 10)

/-- The chip in 24-hour mode: the time when the call begins, the status register that chooses
between binary and decimal digits, and how many seconds pass before each read. -/
structure Cmos (leap : ℕ → Bool) where
  start : Civil
  valid : start.Valid leap
  statusB : UInt8
  hour24 : statusB &&& 0x02 ≠ 0
  ticks : ℕ → ℕ

namespace Cmos

variable {leap : ℕ → Bool} (c : Cmos leap)

/-- The chip counts in decimal digits. -/
def Decimal : Prop := c.statusB &&& 0x04 = 0

instance : Decidable c.Decimal := inferInstanceAs (Decidable (_ = _))

/-- How a field stands in its register. -/
def encode (n : ℕ) : UInt8 := if c.Decimal then toBcd n else UInt8.ofNat n

/-- The seconds that have passed when a register is read. -/
def moment : ℕ → ℕ
  | 0 => c.ticks 0
  | i + 1 => moment i + c.ticks (i + 1)

/-- The time `n` seconds into the call. -/
def timeAt (n : ℕ) : Civil := c.start.advance leap n

/-- The registers at a time. -/
def register (t : Civil) (reg : UInt8) : UInt8 :=
  if reg = 0x00 then c.encode t.second
  else if reg = 0x02 then c.encode t.minute
  else if reg = 0x04 then c.encode t.hour
  else if reg = 0x07 then c.encode t.day
  else if reg = 0x08 then c.encode t.month
  else if reg = 0x09 then c.encode (t.year % 100)
  else if reg = 0x32 then c.encode (t.year / 100)
  else if reg = 0x0B then c.statusB
  else 0

/-- What `read_cmos` returns, call by call. -/
def readCmos (i : ℕ) (reg : UInt8) : UInt8 := c.register (c.timeAt (c.moment i)) reg

/-- How many reads a call makes. -/
def reads : ℕ := if c.Decimal then 10 else 9

/-- The seconds a call takes, with those after the last read. -/
def duration : ℕ := c.moment c.reads

end Cmos

/-- The fields returned, as numbers. -/
def RtcTime.civil (time : RtcTime) : Civil where
  second := time.second.toNat
  minute := time.minute.toNat
  hour := time.hour.toNat
  day := time.day.toNat
  month := time.month.toNat
  year := time.year

namespace Cmos

variable {leap : ℕ → Bool} (c : Cmos leap)

/-- The call returns a time that the clock held meanwhile. -/
def Consistent : Prop := ∃ n ≤ c.duration, (rtcGetTime c.readCmos).civil = c.timeAt n

/-- The read that a field above the seconds is taken from. -/
def readOf (i : ℕ) : ℕ := if i < 4 then i + 1 else i + 4

/-- No field has changed between the read of the seconds and its own. The century is not
read in binary mode; it has to be the one of the years from 2000 on. -/
def Undisturbed : Prop :=
  (∀ i < 5, (c.timeAt (c.moment (readOf i))).upper i = (c.timeAt (c.moment 0)).upper i) ∧
    if c.Decimal then
      (c.timeAt (c.moment (readOf 5))).upper 5 = (c.timeAt (c.moment 0)).upper 5
    else (c.timeAt (c.moment 0)).upper 5 = 20

/-- The end of the minute does not come between the read of the seconds and that of a field,
or its carry does not reach the field. -/
def Misses (i : ℕ) : Prop :=
  (c.timeAt (c.moment 0)).second + (c.moment (readOf i) - c.moment 0) < 60 ∨
    (c.timeAt (c.moment 0)).carries leap ≤ i

/-- No carry comes between the reads of two fields it belongs to. -/
def CarryMisses : Prop :=
  (∀ i < 5, c.Misses i) ∧
    if c.Decimal then c.Misses 5 else (c.timeAt (c.moment 0)).upper 5 = 20

/-! ## What the driver returns -/

/-- The conversion from BCD is right for all numbers below 100. -/
theorem bcdToBin_toBcd {n : ℕ} (h : n < 100) : (bcdToBin (toBcd n)).toNat = n := by
  revert n
  decide

/-- Numbers below 100 are read as they stand. -/
theorem toNat_ofNat {n : ℕ} (h : n < 100) : (UInt8.ofNat n).toNat = n := by
  rw [UInt8.toNat_ofNat', Nat.mod_eq_of_lt (by omega)]

/-- In 24-hour mode `rtc_get_time` is one read of every field and of the status. -/
theorem rtcGetTime_of_hour24 {readCmos : ℕ → UInt8 → UInt8} (h : readCmos 7 0x0B &&& 0x02 ≠ 0) :
    rtcGetTime readCmos =
      if readCmos 7 0x0B &&& 0x04 = 0 then
        { second := bcdToBin (readCmos 0 0x00)
          minute := bcdToBin (readCmos 1 0x02)
          hour := bcdToBin (readCmos 2 0x04)
          day := bcdToBin (readCmos 3 0x07)
          month := bcdToBin (readCmos 4 0x08)
          year := ((bcdToBin (readCmos 8 0x09)).toNat +
            (bcdToBin (readCmos 9 0x32)).toNat * 100) % 2 ^ 16 }
      else ⟨readCmos 0 0x00, readCmos 1 0x02, readCmos 2 0x04, readCmos 3 0x07, readCmos 4 0x08,
        (readCmos 8 0x09).toNat + 2000⟩ :=
  if_neg fun hmode => h hmode.1

/-- Each field is that of the time at which it was read. -/
theorem civil_eq : (rtcGetTime c.readCmos).civil =
    { second := (c.timeAt (c.moment 0)).second
      minute := (c.timeAt (c.moment 1)).minute
      hour := (c.timeAt (c.moment 2)).hour
      day := (c.timeAt (c.moment 3)).day
      month := (c.timeAt (c.moment 4)).month
      year := (c.timeAt (c.moment 8)).year % 100 +
        if c.Decimal then (c.timeAt (c.moment 9)).year / 100 * 100 else 2000 } := by
  have hvalid (n : ℕ) : (c.timeAt n).Valid leap := c.valid.advance n
  have hsecond : (c.timeAt (c.moment 0)).second < 100 := (hvalid _).second_lt.trans (by decide)
  have hminute : (c.timeAt (c.moment 1)).minute < 100 := (hvalid _).minute_lt.trans (by decide)
  have hhour : (c.timeAt (c.moment 2)).hour < 100 := (hvalid _).hour_lt.trans (by decide)
  have hday : (c.timeAt (c.moment 3)).day < 100 := by
    have hle := (hvalid (c.moment 3)).day_le
    have hdays := Civil.daysIn_le leap (c.timeAt (c.moment 3)).year (c.timeAt (c.moment 3)).month
    omega
  have hmonth : (c.timeAt (c.moment 4)).month < 100 :=
    (hvalid _).month_le.trans_lt (by decide)
  have hyear : (c.timeAt (c.moment 8)).year % 100 < 100 := Nat.mod_lt _ (by decide)
  have hcentury : (c.timeAt (c.moment 9)).year / 100 < 100 := by
    have hlt := (hvalid (c.moment 9)).year_lt
    omega
  by_cases hmode : c.Decimal
  · have hread {n : ℕ} (h : n < 100) : (bcdToBin (c.encode n)).toNat = n := by
      rw [encode, if_pos hmode]
      exact bcdToBin_toBcd h
    have hregister : c.readCmos 7 0x0B &&& 0x04 = 0 := hmode
    rw [rtcGetTime_of_hour24 c.hour24, if_pos hregister]
    simp only [RtcTime.civil, Civil.mk.injEq, if_pos hmode]
    refine ⟨hread hsecond, hread hminute, hread hhour, hread hday, hread hmonth, ?_⟩
    change ((bcdToBin (c.encode _)).toNat + (bcdToBin (c.encode _)).toNat * 100) % 2 ^ 16 = _
    rw [hread hyear, hread hcentury, Nat.mod_eq_of_lt (by omega)]
  · have hread {n : ℕ} (h : n < 100) : (c.encode n).toNat = n := by
      rw [encode, if_neg hmode]
      exact toNat_ofNat h
    have hregister : ¬ c.readCmos 7 0x0B &&& 0x04 = 0 := hmode
    rw [rtcGetTime_of_hour24 c.hour24, if_neg hregister]
    simp only [RtcTime.civil, Civil.mk.injEq, if_neg hmode]
    exact ⟨hread hsecond, hread hminute, hread hhour, hread hday, hread hmonth,
      congrArg (· + 2000) (hread hyear)⟩

/-- The reads come one after the other. -/
theorem moment_mono {i j : ℕ} (h : i ≤ j) : c.moment i ≤ c.moment j := by
  induction j, h using Nat.le_induction with
  | base => exact le_rfl
  | succ j _ ih => exact ih.trans (Nat.le_add_right _ _)

/-- A clock that advances by at most a second between two reads. -/
theorem duration_lt (h : ∀ i, c.ticks i ≤ 1) : c.duration < 60 := by
  have hmoment (i : ℕ) : c.moment i ≤ i + 1 := by
    induction i with
    | zero => exact h 0
    | succ i ih => exact Nat.add_le_add ih (h (i + 1))
  have hreads : c.reads ≤ 10 := by
    unfold reads
    split_ifs <;> decide
  exact (hmoment c.reads).trans_lt (by omega)

/-- The time returned is the one of moment `n` just if each field is. -/
theorem civil_eq_timeAt_iff (n : ℕ) : (rtcGetTime c.readCmos).civil = c.timeAt n ↔
    (c.timeAt (c.moment 0)).second = (c.timeAt n).second ∧
      (∀ i < 5, (c.timeAt (c.moment (readOf i))).upper i = (c.timeAt n).upper i) ∧
        if c.Decimal then (c.timeAt (c.moment (readOf 5))).upper 5 = (c.timeAt n).upper 5
        else (c.timeAt n).upper 5 = 20 := by
  have hlast : (c.timeAt (c.moment 8)).year % 100 < 100 := Nat.mod_lt _ (by decide)
  have hfields : (∀ i < 5, (c.timeAt (c.moment (readOf i))).upper i = (c.timeAt n).upper i) ↔
      (c.timeAt (c.moment 1)).minute = (c.timeAt n).minute ∧
        (c.timeAt (c.moment 2)).hour = (c.timeAt n).hour ∧
        (c.timeAt (c.moment 3)).day = (c.timeAt n).day ∧
        (c.timeAt (c.moment 4)).month = (c.timeAt n).month ∧
        (c.timeAt (c.moment 8)).year % 100 = (c.timeAt n).year % 100 := by
    constructor
    · intro h
      exact ⟨h 0 (by decide), h 1 (by decide), h 2 (by decide), h 3 (by decide), h 4 (by decide)⟩
    · intro h i hi
      obtain ⟨hminute, hhour, hday, hmonth, hyear⟩ := h
      interval_cases i
      · exact hminute
      · exact hhour
      · exact hday
      · exact hmonth
      · exact hyear
  have hyear : ((c.timeAt (c.moment 8)).year % 100 +
        if c.Decimal then (c.timeAt (c.moment 9)).year / 100 * 100 else 2000) = (c.timeAt n).year ↔
      (c.timeAt (c.moment 8)).year % 100 = (c.timeAt n).year % 100 ∧
        if c.Decimal then (c.timeAt (c.moment (readOf 5))).upper 5 = (c.timeAt n).upper 5
        else (c.timeAt n).upper 5 = 20 := by
    change _ ↔ _ ∧ if c.Decimal then (c.timeAt (c.moment 9)).year / 100 = (c.timeAt n).year / 100
      else (c.timeAt n).year / 100 = 20
    by_cases hmode : c.Decimal
    · simp only [if_pos hmode]
      omega
    · simp only [if_neg hmode]
      omega
  rw [civil_eq, Civil.ext_iff, hfields]
  simp only [hyear]
  tauto

/-- In less than a minute a field stays as it was unless the minute ends and the carry
reaches it. -/
theorem upper_eq_iff_misses (hshort : c.duration < 60) {i : ℕ} (hi : i < 6)
    (hread : readOf i ≤ c.reads) :
    (c.timeAt (c.moment (readOf i))).upper i = (c.timeAt (c.moment 0)).upper i ↔ c.Misses i := by
  have hmono := c.moment_mono (Nat.zero_le (readOf i))
  have hlast : c.moment (readOf i) ≤ c.duration := c.moment_mono hread
  have hlater : c.timeAt (c.moment (readOf i)) =
      (c.timeAt (c.moment 0)).advance leap (c.moment (readOf i) - c.moment 0) := by
    rw [timeAt, timeAt, ← Civil.advance_add, Nat.sub_add_cancel hmono]
  rw [hlater]
  exact Civil.upper_advance (c.valid.advance _) (by omega) hi

/-- In a call of less than a minute no field changes before it is read exactly when the carry misses
the reads. -/
theorem undisturbed_iff_carryMisses (hshort : c.duration < 60) :
    c.Undisturbed ↔ c.CarryMisses := by
  unfold Undisturbed CarryMisses
  have hreads : readOf 4 ≤ c.reads ∧ (c.Decimal → readOf 5 ≤ c.reads) := by
    unfold reads readOf
    split_ifs <;> simp_all
  apply and_congr
  · apply forall₂_congr
    intro i hi
    apply c.upper_eq_iff_misses hshort (by omega)
    refine le_trans ?_ hreads.1
    unfold readOf
    split_ifs <;> omega
  · by_cases hmode : c.Decimal
    · rw [if_pos hmode, if_pos hmode]
      exact c.upper_eq_iff_misses hshort (by decide) (hreads.2 hmode)
    · rw [if_neg hmode, if_neg hmode]

/-! ## Main result -/

/-- What is returned is a time the clock held if no field changed between the read of the
seconds and its own. In a call that takes less than a minute, as every one does whose clock
advances by at most a second between two reads, it is one just if no carry comes between. -/
theorem consistent_iff : (c.Undisturbed → c.Consistent) ∧
    (c.duration < 60 → (c.Consistent ↔ c.CarryMisses)) := by
  have hreads : c.moment 0 ≤ c.duration := c.moment_mono (Nat.zero_le _)
  have henough : c.Undisturbed → c.Consistent := by
    intro h
    refine ⟨c.moment 0, hreads, ?_⟩
    rw [civil_eq_timeAt_iff]
    exact ⟨rfl, h⟩
  refine ⟨henough, ?_⟩
  intro hshort
  rw [← c.undisturbed_iff_carryMisses hshort]
  refine ⟨?_, henough⟩
  intro hall
  obtain ⟨n, hn, heq⟩ := hall
  obtain ⟨hsecond, hrest⟩ := (c.civil_eq_timeAt_iff n).1 heq
  -- within a minute the seconds belong to one moment only
  have hsame := Civil.eq_of_second_eq c.valid (by omega) (by omega) hsecond
  rw [← hsame] at hrest
  exact hrest

end Cmos

/-- The leap years of the calendar. -/
def gregorian (year : ℕ) : Bool := year % 4 = 0 ∧ (year % 100 ≠ 0 ∨ year % 400 = 0)

/-- The last second of a minute, which ends before the minute is read. -/
def minuteEnd : Cmos gregorian where
  start := { second := 59, minute := 0, hour := 12, day := 6, month := 5, year := 2024 }
  valid := by constructor <;> decide
  statusB := 0x02
  hour24 := by decide
  ticks := fun i => if i = 1 then 1 else 0

/-- The driver returns 12:01:59 between 12:00:59 and 12:01:00. -/
theorem Cmos.not_consistent_minuteEnd : minuteEnd.duration = 1 ∧
    (rtcGetTime minuteEnd.readCmos).civil =
      { second := 59, minute := 1, hour := 12, day := 6, month := 5, year := 2024 } ∧
    ¬ minuteEnd.Consistent := by
  have hreturned : (rtcGetTime minuteEnd.readCmos).civil =
      { second := 59, minute := 1, hour := 12, day := 6, month := 5, year := 2024 } := by decide
  refine ⟨by decide, hreturned, ?_⟩
  intro hall
  obtain ⟨n, hn, heq⟩ := hall
  have hle : n ≤ 1 := hn
  rw [hreturned] at heq
  interval_cases n
  · exact absurd heq (by decide)
  · exact absurd heq (by decide)

end Orionis.Time
