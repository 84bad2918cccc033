import Orionis.Console.ShownLine
import Orionis.Foundations.Run
import Orionis.Shell.LineEditor

/-!
# The line on the screen

Every key updates two machines: the buffer of the shell and the cursor of the terminal.
Typing moves the cursor over the end of a row, a backspace moves it within its row only. So
the screen agrees with the buffer until a character is erased while the cursor stands at
the left margin: there the index goes back and the screen stays as it is.
-/

namespace Orionis.Console

open Orionis.Foundations Orionis.Shell

/-! ## Shell and terminal together -/

/-- The shell and the terminal it writes to. -/
structure Session where
  shell : ShellState
  tty : Tty

/-- What an output does to the terminal. The output of the other handlers is not modelled. -/
def Tty.output (d : Display) (t : Tty) : Output → Option Tty
  | .putc c color => some (t.putc d c color)
  | .builtin _ => none
  | .debugDump _ => none

/-- What an event of the shell does to the terminal. -/
def Tty.event (d : Display) (t : Tty) : Event → Option Tty
  | .out o => t.output d o
  | .call _ output => output.foldlM (Tty.output d) t

/-- `init_shell`. -/
def Session.init (d : Display) (c : Session) : Option Session := do
  let (shell, events) := initShell c.shell
  let tty ← events.foldlM (Tty.event d) c.tty
  return ⟨shell, tty⟩

/-- `shell_handle_char`. -/
def Session.handle (d : Display) (c : Session) (key : UInt8) : Option Session := do
  let (shell, events) ← shellHandleChar c.shell key
  let tty ← events.foldlM (Tty.event d) c.tty
  return ⟨shell, tty⟩

/-- Handling the key scrolls the screen. -/
def Session.Scrolls (d : Display) (c : Session) (key : UInt8) : Prop :=
  key ≠ 8 ∧ c.shell.cmdBufferIndex < cmdBufferSize - 1 ∧ c.tty.Scrolls d

instance (d : Display) (c : Session) (key : UInt8) : Decidable (c.Scrolls d key) :=
  inferInstanceAs (Decidable (_ ∧ _))

/-- A character or a backspace that does not scroll. -/
def Session.InScope (d : Display) (c : Session) (key : UInt8) : Prop :=
  key ≠ 0 ∧ key ≠ 10 ∧ ¬c.Scrolls d key

instance (d : Display) (c : Session) (key : UInt8) : Decidable (c.InScope d key) :=
  inferInstanceAs (Decidable (_ ∧ _))

/-- Handling a character or a backspace. -/
def Session.KeyStep (d : Display) : Session → UInt8 → Session → Prop :=
  guarded (Session.InScope d) fun c key c' => c.handle d key = some c'

/-- A character is erased while the cursor stands at the margin. -/
def Session.ErasesAtMargin (c : Session) (key : UInt8) : Prop :=
  key = 8 ∧ c.shell.cmdBufferIndex > 0 ∧ c.tty.cursorX ≤ 10

instance (c : Session) (key : UInt8) : Decidable (c.ErasesAtMargin key) :=
  inferInstanceAs (Decidable (_ ∧ _))

/-- `cmd_buffer[0 .. cmd_buffer_index)`. -/
def currentLine (s : ShellState) : List UInt8 :=
  (List.range s.cmdBufferIndex.toNat).map s.cmdBuffer

/-- The screen shows the current line as if it had just been printed behind the prompt, and
the next character goes where it would go then. In the cells behind the line there may also
be the background, left by a character that was erased. -/
structure Session.Matches (d : Display) (prompt : Tty) (c : Session) : Prop where
  pixels : ∀ a b, a < d.width → b < d.height →
    c.tty.pixel d a b = (prompt.printLine d (currentLine c.shell)).pixel d a b ∨
      c.tty.pixel d a b = u32 prompt.bgColor ∧ ∃ i ≥ (currentLine c.shell).length,
        d.layout.InCell (d.layout.cell prompt.cursor i) a b
  next : c.tty.nextCell d = (prompt.printLine d (currentLine c.shell)).nextCell d

variable {d : Display} {prompt : Tty} {c c' c₀ c₁ : Session} {line : List UInt8} {key : UInt8}

/-! ## Starting at a prompt -/

/-- Printing a text is printing its characters. -/
theorem foldlM_printEvents (d : Display) (t : Tty) (text : List UInt8) (color : ℕ) :
    (printEvents text color).foldlM (Tty.event d) t = some (t.print d text color) := by
  induction text generalizing t with
  | nil => rfl
  | cons c text ih => exact ih (t.putc d c color)

/-- A character leaves the cursor within the width of the screen. -/
theorem Tty.putc_cursorX_le (hwide : 28 ≤ d.width) (t : Tty) {k : UInt8} (hk : k ≠ 10)
    (hk' : k ≠ 8) (color : ℕ) : (t.putc d k color).cursorX ≤ d.width := by
  have hwrap : u32 ((t.wrapLine d).cursorX + 9) ≤ d.width := by
    unfold Tty.wrapLine
    by_cases hgt : u32 (t.cursorX + 9) > d.width
    · rw [if_pos hgt]
      exact Nat.le_trans (by decide : 19 ≤ 28) hwide
    · rw [if_neg hgt]
      exact Nat.le_of_not_lt hgt
  unfold Tty.putc
  rw [if_neg hk, if_neg hk']
  unfold Tty.scrollIfFull
  by_cases hfull : (t.wrapLine d).Full d
  · rw [if_pos hfull]
    exact Nat.le_trans (by decide : 19 ≤ 28) hwide
  · rw [if_neg hfull]
    exact hwrap

/-- Printing the prompt leaves the cursor within the width of the screen. -/
theorem Tty.print_prompt_cursorX_le (hwide : 28 ≤ d.width) (t : Tty) (color : ℕ) :
    (t.print d (ascii "> ") color).cursorX ≤ d.width := by
  have hprint : t.print d (ascii "> ") color = (t.putc d 62 color).putc d 32 color := rfl
  rw [hprint]
  exact Tty.putc_cursorX_le hwide _ (by decide) (by decide) color

/-- `init_shell` prints a prompt before an empty line. -/
theorem Session.init_spec (hwide : 28 ≤ d.width) (h : c₀.init d = some c₁)
    (hrow : c₁.tty.cursorY < d.height) : c₁.shell.Holds [] ∧ OnScreen d c₁.tty := by
  unfold Session.init initShell at h
  simp only [foldlM_printEvents, Option.bind_eq_bind, Option.bind_some] at h
  obtain rfl := Option.some.inj h
  exact ⟨initShell_holds _, hwide, Tty.print_prompt_cursorX_le hwide _ _, hrow⟩

/-! ## Keys -/

/-- What a key other than Enter does to the buffer and to the screen. -/
theorem Session.handle_cases (hkey : key ≠ 0) (henter : key ≠ 10)
    (h : c.handle d key = some c') :
    (key = 8 ∧ c.shell.cmdBufferIndex > 0 ∧
      c' = ⟨{ c.shell with cmdBufferIndex := c.shell.cmdBufferIndex - 1 },
        c.tty.putc d 8 0xFFFFFF⟩) ∨
    (key ≠ 8 ∧ c.shell.cmdBufferIndex < cmdBufferSize - 1 ∧
      ∃ buf, storeBuffer c.shell.cmdBuffer c.shell.cmdBufferIndex key = some buf ∧
        c' = ⟨{ c.shell with cmdBuffer := buf, cmdBufferIndex := c.shell.cmdBufferIndex + 1 },
          c.tty.putc d key 0xFFFFFF⟩) ∨
    ((key = 8 → ¬c.shell.cmdBufferIndex > 0) ∧
      (key ≠ 8 → ¬c.shell.cmdBufferIndex < cmdBufferSize - 1) ∧ c' = c) := by
  unfold Session.handle shellHandleChar at h
  rw [if_neg henter] at h
  by_cases hback : key = 8
  · rw [if_pos hback] at h
    by_cases hpos : c.shell.cmdBufferIndex > 0
    · rw [if_pos hpos] at h
      exact Or.inl ⟨hback, hpos, (Option.some.inj h).symm⟩
    · rw [if_neg hpos] at h
      exact Or.inr (Or.inr ⟨fun _ => hpos, fun hne => absurd hback hne, (Option.some.inj h).symm⟩)
  · rw [if_neg hback] at h
    by_cases hroom : c.shell.cmdBufferIndex < (cmdBufferSize : ℤ) - 1
    · rw [if_pos hroom] at h
      cases hstore : storeBuffer c.shell.cmdBuffer c.shell.cmdBufferIndex key with
      | none => simp [hstore] at h
      | some buf =>
        simp only [hstore, hkey, if_false, Option.bind_eq_bind, Option.bind_some,
          Option.pure_def, foldlM_printEvents] at h
        exact Or.inr (Or.inl ⟨hback, hroom, buf, rfl, (Option.some.inj h).symm⟩)
    · rw [if_neg hroom] at h
      exact Or.inr (Or.inr ⟨fun heq => absurd heq hback, fun _ => hroom, (Option.some.inj h).symm⟩)

/-! ## Agreement -/

/-- Beside a line there is what was there at the prompt, or a character was erased. -/
def OldOrErased (d : Display) (prompt : Tty) (a b v : ℕ) : Prop :=
  v = prompt.pixel d a b ∨
    v = u32 prompt.bgColor ∧ ∃ i, d.layout.InCell (d.layout.cell prompt.cursor i) a b

/-- The shell holds a line, and the terminal shows it behind the prompt. -/
structure Session.Synced (d : Display) (prompt : Tty) (c : Session) (line : List UInt8) :
    Prop where
  holds : c.shell.Holds line
  plain : ∀ k ∈ line, k ≠ 10 ∧ k ≠ 8
  shows_line : Shows d prompt (OldOrErased d prompt) line c.tty

/-- A represented line is the current line. -/
theorem currentLine_eq {s : ShellState} (h : s.Holds line) : currentLine s = line := by
  have hindex : s.cmdBufferIndex.toNat = line.length := by
    rw [h.index, Int.toNat_natCast]
  unfold currentLine
  apply List.ext_getElem
  · simp [hindex]
  · intro i hi hi'
    simpa using h.bytes i hi'

/-- One key that does not erase at the margin. -/
theorem Session.Synced.step (h : c.Synced d prompt line) (hon : OnScreen d prompt)
    (hok : ¬c.ErasesAtMargin key) (hstep : c.KeyStep d key c') :
    ∃ line', c'.Synced d prompt line' := by
  obtain ⟨⟨hkey, henter, hscroll⟩, hrun⟩ := hstep
  rcases Session.handle_cases hkey henter hrun with
    ⟨hback, hpos, rfl⟩ | ⟨hback, hroom, buf, hbuf, rfl⟩ | ⟨-, -, rfl⟩
  · have hne : line ≠ [] := by
      intro heq
      subst heq
      have hindex := h.holds.index
      simp at hindex
      omega
    have hcol : c.tty.cursorX > 10 := by
      by_contra hle
      exact hok ⟨hback, hpos, Nat.le_of_not_lt hle⟩
    have hsplit := List.dropLast_append_getLast hne
    refine ⟨line.dropLast, h.holds.erase hpos, ?_, ?_⟩
    · intro k hk
      exact h.plain k (List.dropLast_subset _ hk)
    · apply Shows.erase (hsplit.symm ▸ h.shows_line) hon hcol
      intro i a b hin
      exact Or.inr ⟨rfl, i, hin⟩
  · have hlen : line.length < maxLine := by
      have hindex := h.holds.index
      simp only [cmdBufferSize] at hroom
      simp only [maxLine]
      omega
    have hscroll' : ¬c.tty.Scrolls d := fun hs => hscroll ⟨hback, hroom, hs⟩
    rw [h.holds.store] at hbuf
    obtain rfl := Option.some.inj hbuf
    refine ⟨line ++ [key], h.holds.type hkey hlen, ?_, h.shows_line.type hon henter hback hscroll'⟩
    intro k hk
    cases List.mem_append.1 hk with
    | inl hold => exact h.plain k hold
    | inr hnew =>
      obtain rfl := List.mem_singleton.1 hnew
      exact ⟨henter, hback⟩
  · exact ⟨line, h⟩

/-- Where buffer and screen agree, the screen matches the printed line. -/
theorem Session.Synced.matches (h : c.Synced d prompt line) (hon : OnScreen d prompt) :
    c.Matches d prompt := by
  have hline := currentLine_eq h.holds
  have hfresh := shows_printLine hon h.plain h.shows_line.fits
  constructor
  · intro a b ha hb
    rw [hline]
    by_cases hin : ∃ i, ∃ hi : i < line.length, d.layout.InCell (d.layout.cell prompt.cursor i) a b
    · obtain ⟨i, hi, hcell⟩ := hin
      exact Or.inl ((h.shows_line.glyph i hi a b ha hb hcell).trans
        (hfresh.glyph i hi a b ha hb hcell).symm)
    · have hnone : ∀ i < line.length, ¬d.layout.InCell (d.layout.cell prompt.cursor i) a b :=
        fun i hi hcell => hin ⟨i, hi, hcell⟩
      cases h.shows_line.outside a b ha hb hnone with
      | inl hold => exact Or.inl (hold.trans (hfresh.outside a b ha hb hnone).symm)
      | inr hblank =>
        obtain ⟨hvalue, i, hi⟩ := hblank
        exact Or.inr ⟨hvalue, i, Nat.le_of_not_lt fun hlt => hnone i hlt hi, hi⟩
  · rw [hline, h.shows_line.nextCell hon, hfresh.nextCell hon]

/-- Erasing at the margin shortens the line and leaves the next cell where it was. -/
theorem Session.Synced.not_matches (h : c.Synced d prompt line) (hon : OnScreen d prompt)
    (hbad : c.ErasesAtMargin key) (hstep : c.KeyStep d key c') : ¬c'.Matches d prompt := by
  obtain ⟨hback, hpos, hcol⟩ := hbad
  obtain ⟨⟨hkey, henter, -⟩, hrun⟩ := hstep
  have hc' : c' = ⟨{ c.shell with cmdBufferIndex := c.shell.cmdBufferIndex - 1 }, c.tty⟩ := by
    rcases Session.handle_cases hkey henter hrun with
      ⟨-, -, heq⟩ | ⟨hne, -, -⟩ | ⟨hstuck, -, -⟩
    · have hstay : c.tty.putc d 8 0xFFFFFF = c.tty := if_neg (Nat.not_lt_of_le hcol)
      rw [heq, hstay]
    · exact absurd hback hne
    · exact absurd hpos (hstuck hback)
  subst hc'
  have hline := currentLine_eq (h.holds.erase hpos)
  have hlen : line.dropLast.length = line.length - 1 := List.length_dropLast
  have hne : 0 < line.length := by
    have hindex := h.holds.index
    omega
  have hplain : ∀ k ∈ line.dropLast, k ≠ 10 ∧ k ≠ 8 :=
    fun k hk => h.plain k (List.dropLast_subset _ hk)
  have hfresh := shows_printLine hon hplain fun i hi => h.shows_line.fits i (by omega)
  intro hmatches
  have hnext := hmatches.next
  rw [hline, h.shows_line.nextCell hon, hfresh.nextCell hon, hlen] at hnext
  exact d.layout.cell_ne (Nat.succ_pos 8) (Nat.succ_pos 17) (Nat.sub_one_lt_of_lt hne) hnext.symm

/-- After any keys that do not scroll, of which none erases a character at the margin, the
screen shows the line that Enter will execute; and the next key keeps it so exactly when it
does not erase a character at the margin either. -/
theorem Session.matches_of_run (d : Display) (hwide : 28 ≤ d.width) {c₀ c₁ c : Session}
    {keys : List UInt8} (hinit : c₀.init d = some c₁) (hrow : c₁.tty.cursorY < d.height)
    (hrun : Run (guarded (fun c key => ¬c.ErasesAtMargin key) (Session.KeyStep d)) c₁ keys c) :
    c.Matches d c₁.tty ∧ ∀ key c', c.KeyStep d key c' →
      (c'.Matches d c₁.tty ↔ ¬c.ErasesAtMargin key) := by
  obtain ⟨hholds, hon⟩ := Session.init_spec hwide hinit hrow
  have hsynced : ∃ line, c.Synced d c₁.tty line := by
    apply hrun.invariant (I := fun c => ∃ line, c.Synced d c₁.tty line)
    · exact ⟨[], hholds, fun k hk => absurd hk List.not_mem_nil, shows_nil fun _ _ => Or.inl rfl⟩
    · intro c key c' hsynced hstep
      obtain ⟨line, hline⟩ := hsynced
      exact hline.step hon hstep.1 hstep.2
  obtain ⟨line, hline⟩ := hsynced
  refine ⟨hline.matches hon, ?_⟩
  intro key c' hstep
  constructor
  · intro hmatches hbad
    exact hline.not_matches hon hbad hstep hmatches
  · intro hok
    obtain ⟨line', hline'⟩ := hline.step hon hok hstep
    exact hline'.matches hon

/-! ## Two screens -/

/-- A screen as narrow as the prompt and one character. -/
def narrow : Display where
  width := 28
  height := 100
  pitch := 112
  font := fun _ => 0
  width_lt := by decide
  height_lt := by decide
  pitch_lt := by decide
  rows_fit := by decide

/-- A screen of common size. -/
def vga : Display where
  width := 640
  height := 480
  pitch := 2560
  font := fun _ => 0
  width_lt := by decide
  height_lt := by decide
  pitch_lt := by decide
  rows_fit := by decide

/-- After `tty_init`, before `init_shell`. -/
def booted : Session where
  shell := ⟨fun _ => 0, 0, false⟩
  tty := ⟨10, 0, 0x1E1E1E, fun _ => 0⟩

/-- Typing and erasing on a common screen. -/
theorem Session.matches_of_run_vga :
    ∃ c₁ c, booted.init vga = some c₁ ∧
      Run (guarded (fun c key => ¬c.ErasesAtMargin key) (Session.KeyStep vga)) c₁
        (ascii "hi\x08elp") c ∧ c.Matches vga c₁.tty := by
  have hcompute : ((booted.init vga).bind fun c₁ =>
      (execute (fun c key => ¬c.ErasesAtMargin key ∧ c.InScope vga key) (Session.handle vga) c₁
        (ascii "hi\x08elp")).map fun _ => c₁.tty.cursorY) = some 0 := by
    decide +kernel
  obtain ⟨c₁, hinit, h⟩ := Option.bind_eq_some_iff.1 hcompute
  obtain ⟨c, hexec, hrow⟩ := Option.map_eq_some_iff.1 h
  have hboth : Run (guarded (fun c key => ¬c.ErasesAtMargin key ∧ c.InScope vga key)
      fun c key c' => c.handle vga key = some c') c₁ (ascii "hi\x08elp") c :=
    run_of_execute (fun _ _ _ h => h) hexec
  have hrun : Run (guarded (fun c key => ¬c.ErasesAtMargin key) (Session.KeyStep vga)) c₁
      (ascii "hi\x08elp") c := hboth.mono fun _ _ _ h => ⟨h.1.1, h.1.2, h.2⟩
  have hmatches := Session.matches_of_run vga (by decide) hinit (by rw [hrow]; decide) hrun
  exact ⟨c₁, c, hinit, hrun, hmatches.1⟩

/-- Three characters wrap twice; of two backspaces the second stops at the margin. -/
theorem Session.not_matches_narrow :
    28 ≤ narrow.width ∧ ∃ c₁ c, booted.init narrow = some c₁ ∧ c₁.tty.cursorY < narrow.height ∧
      Run (Session.KeyStep narrow) c₁ (ascii "abc\x08\x08") c ∧ ¬c.Matches narrow c₁.tty := by
  have hcompute : ((booted.init narrow).bind fun c₁ =>
      (execute (Session.InScope narrow) (Session.handle narrow) c₁
        (ascii "abc\x08\x08")).map fun c => (c₁.tty.cursorY, c.tty.nextCell narrow,
          (c₁.tty.printLine narrow (currentLine c.shell)).nextCell narrow)) =
      some (0, (10, 36), (19, 18)) := by
    decide +kernel
  obtain ⟨c₁, hinit, h⟩ := Option.bind_eq_some_iff.1 hcompute
  obtain ⟨c, hexec, hvalues⟩ := Option.map_eq_some_iff.1 h
  rw [Prod.mk.injEq, Prod.mk.injEq] at hvalues
  obtain ⟨hrow, hnext, hfresh⟩ := hvalues
  refine ⟨by decide, c₁, c, hinit, by rw [hrow]; decide, run_of_execute (fun _ _ _ h => h) hexec, ?_⟩
  intro hmatches
  have hsame := hmatches.next
  rw [hnext, hfresh] at hsame
  exact absurd hsame (by decide)

end Orionis.Console
