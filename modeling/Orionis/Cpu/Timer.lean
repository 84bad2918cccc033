import Mathlib.Algebra.Group.Nat.Defs
import Orionis.Foundations.Run

/-!
# Sleeping on the timer

`timer_sleep_ms` waits for `ticks` of `timer.cpp` to reach a target. The dispatcher counts timer
interrupts in a variable of its own, `tick` of `isr.cpp`, and nothing calls
`timer_handle_interrupt`, so `ticks` stays at zero: a call returns at once or never. It is right as
long as it has nothing to wait for, or not waited long enough.
-/

namespace Orionis.Cpu

open Orionis.Foundations

/-! ## Timer and dispatcher -/

/-- `tick` and `cursor_visible` of the dispatcher, `ticks` and `timer_freq` of the timer. -/
structure TimerState where
  tick : UInt64
  cursorVisible : Bool
  ticks : UInt64
  timerFreq : UInt32
  deriving DecidableEq, Repr

/-- Before the first interrupt. -/
def TimerState.boot : TimerState where
  tick := 0
  cursorVisible := true
  ticks := 0
  timerFreq := 1000

/-- `timer_init`, with its writes to the ports. -/
def timerInit (s : TimerState) (frequency : UInt32) : TimerState × List (UInt16 × UInt8) :=
  let divisor := 1193180 / frequency
  ({ s with timerFreq := frequency },
    [(0x43, 0x36), (0x40, (divisor &&& 0xFF).toUInt8), (0x40, ((divisor >>> 8) &&& 0xFF).toUInt8)])

/-- `isr_handler`, none where it halts. The handlers of the other devices do not know the
variables here. -/
def isrHandler (s : TimerState) (intNo : UInt64) : Option TimerState :=
  if intNo < 32 then none
  else if intNo < 48 then
    if intNo = 32 then
      let s := { s with tick := s.tick + 1 }
      some (if s.tick % 500 = 0 then { s with cursorVisible := !s.cursorVisible } else s)
    else some s
  else none

/-- `target_ticks` of `timer_sleep_ms`, a 32-bit product added to a 64-bit count. -/
def targetTicks (s : TimerState) (ms : UInt32) : UInt64 := s.ticks + (ms * s.timerFreq / 1000).toUInt64

/-- The loop condition of `timer_sleep_ms`. -/
def waits (s : TimerState) (target : UInt64) : Bool := s.ticks < target

/-! ## Runs -/

/-- A frequency is set, or an interrupt is handled. -/
inductive TimerEvent
  | init (frequency : UInt32)
  | interrupt (intNo : UInt64)
  deriving DecidableEq, Repr

/-- One event. A frequency is at least one hertz. -/
def TimerStep (s : TimerState) : TimerEvent → TimerState → Prop
  | .init frequency, t => frequency ≠ 0 ∧ t = (timerInit s frequency).1
  | .interrupt intNo, t => isrHandler s intNo = some t

/-- The timer interrupts a sleep is meant to last for. -/
def sleepLength (s : TimerState) (ms : UInt32) : ℕ := ms.toNat * s.timerFreq.toNat / 1000

/-- At every moment of a sleep that begins in `s`, the loop condition is false exactly when enough
timer interrupts have been handled. -/
def SleepsExactly (s : TimerState) (ms : UInt32) (vectors : List UInt64) : Prop :=
  ∀ before t, before <+: vectors → Run TimerStep s (before.map TimerEvent.interrupt) t →
    (waits t (targetTicks s ms) = false ↔ sleepLength s ms ≤ before.count 32)

variable {s t : TimerState} {history : List TimerEvent} {vectors : List UInt64} {ms : UInt32}

/-! ## The counter nobody advances -/

/-- The dispatcher leaves the variables of the timer alone. -/
theorem isrHandler_timer {intNo : UInt64} (h : isrHandler s intNo = some t) :
    t.ticks = s.ticks ∧ t.timerFreq = s.timerFreq := by
  rw [isrHandler] at h
  split_ifs at h
  · obtain rfl := Option.some.inj h
    dsimp only
    split_ifs <;> exact ⟨rfl, rfl⟩
  · obtain rfl := Option.some.inj h
    exact ⟨rfl, rfl⟩

/-- No event advances `ticks`. -/
theorem TimerStep.ticks {e : TimerEvent} (h : TimerStep s e t) : t.ticks = s.ticks := by
  cases e with
  | init frequency => exact h.2 ▸ rfl
  | interrupt intNo => exact (isrHandler_timer h).1

/-- Nor does any run. -/
theorem ticks_of_run (h : Run TimerStep s history t) : t.ticks = s.ticks :=
  h.invariant (I := fun u => u.ticks = s.ticks) rfl fun _ _ _ hkept hstep => hstep.ticks.trans hkept

/-! ## The target -/

/-- The target of a call that begins at zero. -/
theorem targetTicks_toNat (h : s.ticks = 0) :
    (targetTicks s ms).toNat = ms.toNat * s.timerFreq.toNat % 2 ^ 32 / 1000 := by
  rw [targetTicks, h, UInt64.zero_add, UInt32.toNat_toUInt64, UInt32.toNat_div, UInt32.toNat_mul]
  rfl

/-- At zero the loop waits for every target but zero. -/
theorem waits_eq_false_iff (h : t.ticks = 0) {target : UInt64} :
    waits t target = false ↔ target.toNat = 0 := by
  rw [waits, h, decide_eq_false_iff_not, UInt64.lt_iff_toNat_lt, UInt64.toNat_zero]
  omega

/-! ## Main result -/

/-- What a sleep does when `ticks` stands at zero. -/
theorem sleepsExactly_of_ticks (hs : s.ticks = 0)
    (hrun : Run TimerStep s (vectors.map TimerEvent.interrupt) t) :
    SleepsExactly s ms vectors ↔ ms.toNat * s.timerFreq.toNat < 1000 ∨
      1000 ≤ ms.toNat * s.timerFreq.toNat % 2 ^ 32 ∧ vectors.count 32 < sleepLength s ms := by
  have hcond : ∀ (before : List UInt64) u, Run TimerStep s (before.map TimerEvent.interrupt) u →
      (waits u (targetTicks s ms) = false ↔ ms.toNat * s.timerFreq.toNat % 2 ^ 32 < 1000) := by
    intro before u hu
    rw [waits_eq_false_iff ((ticks_of_run hu).trans hs), targetTicks_toNat hs]
    omega
  unfold SleepsExactly sleepLength
  generalize ms.toNat * s.timerFreq.toNat = product at hcond ⊢
  have hlow : product % 2 ^ 32 ≤ product := Nat.mod_le _ _
  constructor
  · intro hall
    have hfirst := (hcond [] s (.nil s)).symm.trans (hall [] s List.nil_prefix (.nil s))
    have hlast := (hcond vectors t hrun).symm.trans (hall vectors t List.prefix_rfl hrun)
    rw [List.count_nil] at hfirst
    omega
  · intro hcases before u hbefore hu
    have hcount : before.count 32 ≤ vectors.count 32 := hbefore.sublist.count_le 32
    rw [hcond before u hu]
    omega

/-- A sleep is right exactly where it has nothing to wait for, or has not yet had its timer
interrupts and the product in its target has not wrapped to less than a tick. -/
theorem sleepsExactly_iff (hs : Run TimerStep .boot history s)
    (hrun : Run TimerStep s (vectors.map TimerEvent.interrupt) t) (ms : UInt32) :
    SleepsExactly s ms vectors ↔ ms.toNat * s.timerFreq.toNat < 1000 ∨
      1000 ≤ ms.toNat * s.timerFreq.toNat % 2 ^ 32 ∧ vectors.count 32 < sleepLength s ms :=
  sleepsExactly_of_ticks (ticks_of_run hs) hrun

/-- Two milliseconds at 1000 hertz, up to the first of their two interrupts. -/
theorem sleepsExactly_iff_firstTick : SleepsExactly (timerInit .boot 1000).1 2 [32] := by
  have hinit : Run TimerStep .boot [.init 1000] (timerInit .boot 1000).1 := .single ⟨by decide, rfl⟩
  have htick : Run TimerStep (timerInit .boot 1000).1 ([32].map TimerEvent.interrupt)
      { (timerInit .boot 1000).1 with tick := 1 } := .single rfl
  exact (sleepsExactly_iff hinit htick 2).2 (.inr ⟨by decide, by decide⟩)

/-- A millisecond at 1000 hertz goes on behind its interrupt. -/
theorem not_sleepsExactly_tick :
    ¬ ∀ (history : List TimerEvent) (s t : TimerState) (vectors : List UInt64) (ms : UInt32),
      Run TimerStep .boot history s → Run TimerStep s (vectors.map TimerEvent.interrupt) t →
      SleepsExactly s ms vectors := by
  intro hall
  let s := (timerInit .boot 1000).1
  have hinit : Run TimerStep .boot [.init 1000] s := .single ⟨by decide, rfl⟩
  have htick : Run TimerStep s ([32].map TimerEvent.interrupt) { s with tick := 1 } := .single rfl
  have hsleep := hall _ _ _ _ 1 hinit htick
  rw [sleepsExactly_of_ticks rfl htick] at hsleep
  exact absurd hsleep (by decide)

end Orionis.Cpu
