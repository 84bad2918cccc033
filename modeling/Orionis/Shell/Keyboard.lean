import Mathlib.Data.List.GetD
import Orionis.Foundations.CString
import Orionis.Foundations.Run

/-!
# The keyboard driver

`keyboard_handle_scancode` reads one byte at a time. It keeps one flag for the two Shift keys, does
not know the prefix of the extended keys, and lets Caps Lock turn every key into its shifted
variant. Its flag and its characters follow the keyboard exactly as long as none of this matters.
-/

namespace Orionis.Shell

open Orionis.Foundations

/-! ## The driver -/

/-- `shift_pressed` and `caps_lock`. -/
structure KeyboardDriver where
  shiftPressed : Bool
  capsLock : Bool
  deriving DecidableEq, Repr

/-- `scancode_to_char_lower`. -/
def scancodeToCharLower : List UInt8 :=
  [0, 0] ++ ascii "1234567890-=" ++ [0, 0] ++
  ascii "qwertyuiop[]\n" ++ [0] ++
  ascii "asdfghjkl;'\x60" ++ [0] ++ ascii "\\" ++
  ascii "zxcvbnm,./" ++ [0] ++ ascii "*" ++ [0] ++ ascii " " ++
  List.replicate 48 0

/-- `scancode_to_char_upper`. -/
def scancodeToCharUpper : List UInt8 :=
  [0, 0] ++ ascii "!@#$%^&*()_+" ++ [0, 0] ++
  ascii "QWERTYUIOP\x7b\x7d\n" ++ [0] ++
  ascii "ASDFGHJKL:\x22~" ++ [0] ++ ascii "|" ++
  ascii "ZXCVBNM<>?" ++ [0] ++ ascii "*" ++ [0] ++ ascii " " ++
  List.replicate 48 0

/-- `init_keyboard`. -/
def initKeyboard : KeyboardDriver := { shiftPressed := false, capsLock := false }

/-- `if (c != 0) shell_handle_char(c)`. -/
def passChar (c : UInt8) : List UInt8 := if c ≠ 0 then [c] else []

/-- `keyboard_handle_scancode`, with the characters it passes to `shell_handle_char`. -/
def keyboardHandleScancode (d : KeyboardDriver) (scancode : UInt8) :
    KeyboardDriver × List UInt8 :=
  if scancode = 0x2A ∨ scancode = 0x36 then ({ d with shiftPressed := true }, [])
  else if scancode = 0xAA ∨ scancode = 0xB6 then ({ d with shiftPressed := false }, [])
  else if scancode = 0x3A then ({ d with capsLock := !d.capsLock }, [])
  else if scancode = 0x0E then (d, [8])
  else if scancode = 0x1C then (d, [10])
  else if scancode = 0x39 then (d, [32])
  else if scancode ≥ 0x80 then (d, [])
  else
    let shouldUpper := d.shiftPressed != d.capsLock
    let c :=
      if shouldUpper ∧ scancode.toNat < scancodeToCharUpper.length then
        scancodeToCharUpper.getD scancode.toNat 0
      else if scancode.toNat < scancodeToCharLower.length then
        scancodeToCharLower.getD scancode.toNat 0
      else 0
    (d, passChar c)

/-- The state and the characters after each byte of a stream. -/
def scan (d : KeyboardDriver) : List UInt8 → List (KeyboardDriver × List UInt8)
  | [] => []
  | scancode :: stream =>
    keyboardHandleScancode d scancode :: scan (keyboardHandleScancode d scancode).1 stream

/-- The state after a stream. -/
def handleScancodes (d : KeyboardDriver) (stream : List UInt8) : KeyboardDriver :=
  stream.foldl (fun d scancode => (keyboardHandleScancode d scancode).1) d

/-! ## The keyboard -/

inductive Side
  | left | right
  deriving DecidableEq, Repr

/-- The code of a key that is no Shift key and not Caps Lock. -/
structure KeyCode where
  code : UInt8
  make : code < 0x80
  notShift : code ≠ 0x2A ∧ code ≠ 0x36
  notCaps : code ≠ 0x3A

/-- A key, with or without the prefix `E0`. -/
inductive Key
  | ordinary (c : KeyCode)
  | extended (c : KeyCode)

/-- What happens at the keyboard. The fake Shift codes are sent by the keyboard itself, around the
codes of an extended key. -/
inductive KeyEvent
  | pressShift (side : Side)
  | releaseShift (side : Side)
  | pressCaps
  | releaseCaps
  | press (key : Key)
  | release (key : Key)
  | fakeShift (side : Side) (down : Bool)

def Side.code : Side → UInt8
  | .left => 0x2A
  | .right => 0x36

def Key.code : Key → UInt8
  | .ordinary c => c.code
  | .extended c => c.code

def Key.withPrefix : Key → UInt8 → List UInt8
  | .ordinary _, scancode => [scancode]
  | .extended _, scancode => [0xE0, scancode]

/-- The bytes of an event, in set 1. -/
def KeyEvent.bytes : KeyEvent → List UInt8
  | .pressShift side => [side.code]
  | .releaseShift side => [side.code + 0x80]
  | .pressCaps => [0x3A]
  | .releaseCaps => [0xBA]
  | .press key => key.withPrefix key.code
  | .release key => key.withPrefix (key.code + 0x80)
  | .fakeShift side down => [0xE0, if down then side.code else side.code + 0x80]

/-- The Shift keys that are down, and whether Caps Lock is on. -/
structure Keys where
  shift : Side → Bool
  capsLock : Bool

/-- No Shift key is down and Caps Lock is off. -/
def Keys.atRest : Keys := { shift := fun _ => false, capsLock := false }

/-- One of the Shift keys is down. -/
def Keys.shiftDown (keys : Keys) : Bool := keys.shift .left || keys.shift .right

/-- What an event changes. -/
def Keys.apply (keys : Keys) : KeyEvent → Keys
  | .pressShift side => { keys with shift := Function.update keys.shift side true }
  | .releaseShift side => { keys with shift := Function.update keys.shift side false }
  | .pressCaps => { keys with capsLock := !keys.capsLock }
  | _ => keys

/-- The character of a key, plain or shifted. Backspace, Enter and Space have one only. -/
def variant (shifted : Bool) (code : UInt8) : UInt8 :=
  if code = 0x0E then 8
  else if code = 0x1C then 10
  else if code = 0x39 then 32
  else (if shifted then scancodeToCharUpper else scancodeToCharLower).getD code.toNat 0

/-- The keys from A to Z. -/
def Key.IsLetter : Key → Prop
  | .ordinary c => 97 ≤ variant false c.code ∧ variant false c.code ≤ 122
  | .extended _ => False

instance (key : Key) : Decidable key.IsLetter :=
  match key with
  | .ordinary _ => inferInstanceAs (Decidable (_ ∧ _))
  | .extended _ => inferInstanceAs (Decidable False)

/-- Caps Lock is for letters. -/
def Keys.wantsShifted (keys : Keys) (key : Key) : Bool :=
  if key.IsLetter then keys.shiftDown != keys.capsLock else keys.shiftDown

/-- The characters an event should give. -/
def Keys.typed (keys : Keys) : KeyEvent → List UInt8
  | .press key => passChar (variant (keys.wantsShifted key) key.code)
  | _ => []

/-- The driver follows the keyboard through an event, byte by byte. -/
structure Tracked (keys : Keys) (d : KeyboardDriver) (e : KeyEvent) : Prop where
  shift : ∀ r ∈ scan d e.bytes, r.1.shiftPressed = (keys.apply e).shiftDown
  chars : (scan d e.bytes).flatMap Prod.snd = keys.typed e

/-- The keyboard after some events. -/
def keysAfter (events : List KeyEvent) : Keys := events.foldl Keys.apply Keys.atRest

/-- The driver after the bytes of some events. -/
def driverAfter (events : List KeyEvent) : KeyboardDriver :=
  handleScancodes initKeyboard (events.flatMap KeyEvent.bytes)

/-- The driver follows the keyboard through all the events. -/
def Tracks (events : List KeyEvent) : Prop :=
  ∀ before e, before ++ [e] <+: events → Tracked (keysAfter before) (driverAfter before) e

/-! ## When it does -/

def Side.other : Side → Side
  | .left => .right
  | .right => .left

/-- The event shows none of what the driver leaves out. -/
def Keys.Harmless (keys : Keys) : KeyEvent → Prop
  | .releaseShift side => keys.shift side.other = false
  | .fakeShift _ down => keys.shiftDown = down
  | .press key =>
    keys.capsLock = false ∨ key.IsLetter ∨ variant true key.code = variant false key.code
  | _ => True

/-- The variables agree with the keyboard. -/
structure Synced (keys : Keys) (d : KeyboardDriver) : Prop where
  shift : d.shiftPressed = keys.shiftDown
  caps : d.capsLock = keys.capsLock

variable {keys : Keys} {d : KeyboardDriver} {c : UInt8}

/-! ### Single bytes -/

/-- Either shift key is followed down and up. -/
theorem handleScancode_shift (d : KeyboardDriver) (side : Side) :
    keyboardHandleScancode d side.code = ({ d with shiftPressed := true }, []) ∧
      keyboardHandleScancode d (side.code + 0x80) = ({ d with shiftPressed := false }, []) := by
  cases side <;> exact ⟨rfl, rfl⟩

/-- The tables are of one length, and behind it no key has a character. -/
theorem tableChar_eq (shifted : Bool) (n : ℕ) :
    (if shifted ∧ n < scancodeToCharUpper.length then scancodeToCharUpper.getD n 0
      else if n < scancodeToCharLower.length then scancodeToCharLower.getD n 0 else 0) =
      (if shifted then scancodeToCharUpper else scancodeToCharLower).getD n 0 := by
  have hupper : scancodeToCharUpper.length = 106 := by decide
  have hlower : scancodeToCharLower.length = 106 := by decide
  rw [hupper, hlower]
  by_cases hlt : n < 106
  · cases shifted <;> simp [hlt]
  · have hend := Nat.le_of_not_lt hlt
    have hnone : ∀ table : List UInt8, table.length = 106 → table.getD n 0 = 0 := fun table hlen =>
      List.getD_eq_default _ _ (hlen ▸ hend)
    cases shifted <;> simp only [hlt, and_false, if_false]
    · exact (hnone _ hlower).symm
    · exact (hnone _ hupper).symm

/-- A key that goes down passes the character of its variant. -/
theorem handleScancode_make (d : KeyboardDriver) (c : KeyCode) :
    keyboardHandleScancode d c.code =
      (d, passChar (variant (d.shiftPressed != d.capsLock) c.code)) := by
  obtain ⟨code, hmake, ⟨hleft, hright⟩, hcaps⟩ := c
  have hreleased : ¬ (code = 0xAA ∨ code = 0xB6) := by
    rintro (rfl | rfl) <;> exact absurd hmake (by decide)
  have hpressed : ¬ (code = 0x2A ∨ code = 0x36) := not_or.2 ⟨hleft, hright⟩
  have hlow : ¬ code ≥ 0x80 := UInt8.not_le.2 hmake
  simp only [keyboardHandleScancode, if_neg hpressed, if_neg hreleased, if_neg hcaps, if_neg hlow,
    variant, tableChar_eq]
  split_ifs <;> rfl

/-- A key that goes up passes nothing. -/
theorem handleScancode_break (d : KeyboardDriver) (c : KeyCode) :
    keyboardHandleScancode d (c.code + 0x80) = (d, []) := by
  obtain ⟨code, hmake, ⟨hleft, hright⟩, hcaps⟩ := c
  have hne : ∀ x : UInt8, x < 0x80 → code + 0x80 ≠ x := by
    intro x hx heq
    rw [UInt8.lt_iff_toNat_lt] at hmake hx
    rw [← UInt8.toNat_inj, UInt8.toNat_add] at heq
    simp at hmake hx heq
    omega
  have hshift : ¬ (code + 0x80 = 0xAA ∨ code + 0x80 = 0xB6) := by
    rintro (heq | heq)
    · exact hleft ((UInt8.add_left_inj 0x80).1 heq)
    · exact hright ((UInt8.add_left_inj 0x80).1 heq)
  have hhigh : code + 0x80 ≥ 0x80 := UInt8.not_lt.1 fun hlt => hne _ hlt rfl
  have hpressed : ¬ (code + 0x80 = 0x2A ∨ code + 0x80 = 0x36) :=
    not_or.2 ⟨hne _ (by decide), hne _ (by decide)⟩
  simp only [keyboardHandleScancode, if_neg hpressed, if_neg hshift, if_neg (hne 0x3A (by decide)),
    if_neg (hne 0x0E (by decide)), if_neg (hne 0x1C (by decide)), if_neg (hne 0x39 (by decide)),
    if_pos hhigh]

/-! ### Events -/

/-- What an event does to the driver. -/
def KeyEvent.effect (d : KeyboardDriver) : KeyEvent → KeyboardDriver
  | .pressShift _ => { d with shiftPressed := true }
  | .releaseShift _ => { d with shiftPressed := false }
  | .pressCaps => { d with capsLock := !d.capsLock }
  | .fakeShift _ down => { d with shiftPressed := down }
  | _ => d

/-- The characters the driver gives for an event. -/
def KeyEvent.passed (d : KeyboardDriver) : KeyEvent → List UInt8
  | .press key => passChar (variant (d.shiftPressed != d.capsLock) key.code)
  | _ => []

/-- Both for any key of the tables. -/
theorem handleScancode_key (d : KeyboardDriver) (key : Key) :
    keyboardHandleScancode d key.code =
        (d, passChar (variant (d.shiftPressed != d.capsLock) key.code)) ∧
      keyboardHandleScancode d (key.code + 0x80) = (d, []) := by
  cases key with
  | ordinary c => exact ⟨handleScancode_make d c, handleScancode_break d c⟩
  | extended c => exact ⟨handleScancode_make d c, handleScancode_break d c⟩

/-- The prefix of a key is ignored. -/
theorem scan_withPrefix (key : Key) {scancode : UInt8} {chars : List UInt8}
    (h : keyboardHandleScancode d scancode = (d, chars)) :
    scan d (key.withPrefix scancode) = [(d, chars)] ∨
      scan d (key.withPrefix scancode) = [(d, []), (d, chars)] := by
  cases key with
  | ordinary c =>
    left
    rw [Key.withPrefix, scan, h, scan]
  | extended c =>
    have hprefix : keyboardHandleScancode d 0xE0 = (d, []) := rfl
    right
    rw [Key.withPrefix, scan, hprefix, scan, h, scan]

/-- The driver goes through an event in one byte, or in two of which it ignores the first. -/
theorem scan_bytes (d : KeyboardDriver) (e : KeyEvent) :
    scan d e.bytes = [(e.effect d, e.passed d)] ∨
      (∀ keys : Keys, keys.apply e = keys) ∧
        scan d e.bytes = [(d, []), (e.effect d, e.passed d)] := by
  cases e with
  | pressShift side =>
    left
    rw [KeyEvent.bytes, scan, (handleScancode_shift d side).1]
    rfl
  | releaseShift side =>
    left
    rw [KeyEvent.bytes, scan, (handleScancode_shift d side).2]
    rfl
  | pressCaps => exact Or.inl rfl
  | releaseCaps => exact Or.inl rfl
  | press key =>
    exact (scan_withPrefix key (handleScancode_key d key).1).imp_right fun h => ⟨fun _ => rfl, h⟩
  | release key =>
    exact (scan_withPrefix key (handleScancode_key d key).2).imp_right fun h => ⟨fun _ => rfl, h⟩
  | fakeShift side down =>
    have hprefix : keyboardHandleScancode d 0xE0 = (d, []) := rfl
    refine Or.inr ⟨fun _ => rfl, ?_⟩
    cases down
    · rw [KeyEvent.bytes, scan, hprefix, scan, if_neg Bool.false_ne_true,
        (handleScancode_shift d side).2]
      rfl
    · rw [KeyEvent.bytes, scan, hprefix, scan, if_pos rfl, (handleScancode_shift d side).1]
      rfl

/-- The driver after a stream is the last one of the scan. -/
theorem handleScancodes_of_scan {stream : List UInt8} {before : List (KeyboardDriver × List UInt8)}
    {last : KeyboardDriver × List UInt8} (h : scan d stream = before ++ [last]) :
    handleScancodes d stream = last.1 := by
  induction stream generalizing d before with
  | nil => simp [scan] at h
  | cons scancode stream ih =>
    cases before with
    | nil =>
      obtain ⟨hfirst, hrest⟩ := List.cons_eq_cons.1 h
      cases stream with
      | nil => exact congrArg Prod.fst hfirst
      | cons _ _ => exact absurd hrest (List.cons_ne_nil _ _)
    | cons _ before => exact ih (List.cons_eq_cons.1 h).2

/-- The bytes of an event have its effect. -/
theorem handleScancodes_bytes (d : KeyboardDriver) (e : KeyEvent) :
    handleScancodes d e.bytes = e.effect d := by
  rcases scan_bytes d e with hscan | ⟨-, hscan⟩
  · exact @handleScancodes_of_scan d _ [] _ hscan
  · exact @handleScancodes_of_scan d _ [(d, [])] _ hscan

/-- From a state that agrees with the keyboard, only the last byte of an event counts. -/
theorem tracked_iff (h : Synced keys d) (e : KeyEvent) :
    Tracked keys d e ↔
      (e.effect d).shiftPressed = (keys.apply e).shiftDown ∧ e.passed d = keys.typed e := by
  have hmk : Tracked keys d e ↔ (∀ r ∈ scan d e.bytes, r.1.shiftPressed = (keys.apply e).shiftDown) ∧
      (scan d e.bytes).flatMap Prod.snd = keys.typed e :=
    ⟨fun ht => ⟨ht.shift, ht.chars⟩, fun ht => ⟨ht.1, ht.2⟩⟩
  rw [hmk]
  rcases scan_bytes d e with hscan | ⟨hkeep, hscan⟩
  · rw [hscan]
    simp
  · rw [hscan, hkeep]
    simp [h.shift]

/-- A shift key is down if the key that moved is, or the other one. -/
theorem shiftDown_update (keys : Keys) (side : Side) (down : Bool) :
    Keys.shiftDown { keys with shift := Function.update keys.shift side down } =
      (down || keys.shift side.other) := by
  cases side
  · rfl
  · exact Bool.or_comm _ _

/-- Different characters are passed on differently. -/
theorem passChar_inj {c' : UInt8} : passChar c = passChar c' ↔ c = c' := by
  unfold passChar
  split_ifs with hc hc' hc'
  · exact List.singleton_inj
  · simp only [ne_eq, not_not] at hc'
    simp [hc', hc]
  · simp only [ne_eq, not_not] at hc
    simp [hc, Ne.symm hc']
  · simp only [ne_eq, not_not] at hc hc'
    simp [hc, hc']

/-- A key gives the character it should just if Caps Lock makes no difference to it, or the right
one. -/
theorem variant_eq_iff (keys : Keys) (key : Key) :
    variant (keys.shiftDown != keys.capsLock) key.code = variant (keys.wantsShifted key) key.code ↔
      keys.capsLock = false ∨ key.IsLetter ∨ variant true key.code = variant false key.code := by
  unfold Keys.wantsShifted
  by_cases hletter : key.IsLetter
  · simp [hletter]
  · cases keys.capsLock <;> cases keys.shiftDown <;> simp [hletter, eq_comm]

/-- Exactly the harmless events are tracked. -/
theorem tracked_iff_harmless (h : Synced keys d) (e : KeyEvent) :
    Tracked keys d e ↔ keys.Harmless e := by
  rw [tracked_iff h]
  cases e with
  | pressShift side =>
    rw [Keys.apply, shiftDown_update]
    exact iff_of_true ⟨rfl, rfl⟩ trivial
  | releaseShift side =>
    rw [Keys.apply, shiftDown_update]
    exact ⟨fun htracked => htracked.1.symm, fun hother => ⟨hother.symm, rfl⟩⟩
  | pressCaps => exact iff_of_true ⟨h.shift, rfl⟩ trivial
  | releaseCaps => exact iff_of_true ⟨h.shift, rfl⟩ trivial
  | press key =>
    have hkey := variant_eq_iff keys key
    rw [← passChar_inj, ← h.shift, ← h.caps] at hkey
    rw [Keys.Harmless, ← h.caps, ← hkey]
    exact and_iff_right h.shift
  | release key => exact iff_of_true ⟨h.shift, rfl⟩ trivial
  | fakeShift side down => exact ⟨fun htracked => htracked.1.symm, fun hdown => ⟨hdown.symm, rfl⟩⟩

/-- An event that is tracked keeps the driver in step with the keys. -/
theorem Tracked.synced {e : KeyEvent} (htracked : Tracked keys d e) (h : Synced keys d) :
    Synced (keys.apply e) (e.effect d) := by
  refine ⟨((tracked_iff h e).1 htracked).1, ?_⟩
  cases e with
  | pressCaps => exact congrArg (!·) h.caps
  | _ => exact h.caps

/-! ## Main result -/

/-- The last event moves the keys behind the others. -/
theorem keysAfter_concat (events : List KeyEvent) (e : KeyEvent) :
    keysAfter (events ++ [e]) = (keysAfter events).apply e := by
  rw [keysAfter, List.foldl_append]
  rfl

/-- The last event reaches the driver behind the others. -/
theorem driverAfter_concat (events : List KeyEvent) (e : KeyEvent) :
    driverAfter (events ++ [e]) = e.effect (driverAfter events) := by
  have hbytes : (events ++ [e]).flatMap KeyEvent.bytes =
      events.flatMap KeyEvent.bytes ++ e.bytes := by simp
  rw [driverAfter, hbytes, handleScancodes, List.foldl_append]
  exact handleScancodes_bytes _ e

/-- As long as the driver follows the keyboard, its variables agree with it. -/
theorem Tracks.synced {events : List KeyEvent} (h : Tracks events) :
    Synced (keysAfter events) (driverAfter events) := by
  induction events using List.reverseRecOn with
  | nil => exact ⟨rfl, rfl⟩
  | append_singleton events e ih =>
    obtain ⟨hall, hlast⟩ := (forall_prefix_concat events e).1 h
    rw [keysAfter_concat, driverAfter_concat]
    exact hlast.synced (ih hall)

/-- The driver follows the keyboard through exactly the streams in which no Shift key is released
under the other, no fake code differs from the keys, and Caps Lock is on for no key that is not a
letter and has two characters. -/
theorem tracks_iff (events : List KeyEvent) :
    Tracks events ↔
      ∀ before e, before ++ [e] <+: events → (keysAfter before).Harmless e := by
  induction events using List.reverseRecOn with
  | nil => exact iff_of_true (by simp [Tracks]) (by simp)
  | append_singleton events e ih =>
    rw [Tracks, forall_prefix_concat, forall_prefix_concat, ← ih]
    exact and_congr_right fun hall => tracked_iff_harmless (Tracks.synced hall) e

/-- Both Shift keys go down, and the right one up again. -/
theorem not_tracks_twoShifts :
    ¬ Tracks [.pressShift .left, .pressShift .right, .releaseShift .right] := by
  intro h
  have hlast := h [.pressShift .left, .pressShift .right] (.releaseShift .right) List.prefix_rfl
  exact absurd (hlast.shift _ (List.mem_singleton.2 rfl)) (by decide)

end Orionis.Shell
