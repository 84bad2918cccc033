import Orionis.Console.Kernel
import Orionis.Lib.Memmove

/-!
# Cursor, cells and framebuffer

Both consoles keep the cursor in the columns of the text and write inside the framebuffer
only. The row of the cursor is another matter: newlines and the `print` of the kernel let
it grow without bound. Where a character of the terminal would go behind the right edge, the
cursor is still on the screen, and this is what lets `tty_putc` find a place for every
character.
-/

namespace Orionis.Console

open Orionis.Foundations

variable {d : Display} {t u : Tty} {c : UInt8}

/-! ## The columns -/

/-- The cursor stands in a column of text, and near the right edge only on the screen, or
where the test for scrolling overflows. -/
structure Tty.OnGrid (d : Display) (t : Tty) : Prop where
  column : ∃ k, t.cursorX = 10 + 9 * k
  right : t.cursorX ≤ d.width
  low : t.cursorX + 9 ≤ d.width ∨ t.cursorY + 17 ≤ d.height ∨ 2 ^ 32 - 16 ≤ t.cursorY
  row : t.cursorY < 2 ^ 32

/-- At the margin there is room for a character. -/
theorem Tty.onGrid_margin (hwide : 19 ≤ d.width) (hx : t.cursorX = 10)
    (hrow : t.cursorY < 2 ^ 32) : t.OnGrid d where
  column := ⟨0, hx⟩
  right := by omega
  low := by omega
  row := hrow

/-- A coordinate has 32 bits. -/
theorem u32_lt (n : ℕ) : u32 n < 2 ^ 32 := Nat.mod_lt _ (by decide)

/-- Without overflow the subtraction is that of the numbers. -/
theorem sub32_eq {a b : ℕ} (hle : b ≤ a) (hlt : a < 2 ^ 32) : sub32 a b = a - b := by
  rw [sub32, u32]
  omega

/-- The automatic line break of the terminal makes room for a character. -/
theorem Tty.OnGrid.wrapLine (h : t.OnGrid d) (hwide : 19 ≤ d.width) :
    (t.wrapLine d).OnGrid d ∧ (t.wrapLine d).cursorX + 9 ≤ d.width := by
  have hright := h.right
  have hwidth := d.width_lt
  rw [Tty.wrapLine, u32_of_lt (by omega)]
  split
  · exact ⟨Tty.onGrid_margin hwide rfl (u32_lt _), hwide⟩
  · exact ⟨h, by omega⟩

/-- Scrolling brings the cursor back to the last row of text. -/
theorem Tty.OnGrid.scrollIfFull (h : t.OnGrid d) (hroom : t.cursorX + 9 ≤ d.width)
    (hwide : 19 ≤ d.width) (htall : 18 ≤ d.height) :
    (t.scrollIfFull d).OnGrid d ∧ (t.scrollIfFull d).cursorX + 9 ≤ d.width ∧
      ((t.scrollIfFull d).cursorY + 17 ≤ d.height ∨
        2 ^ 32 - 16 ≤ t.cursorY ∧ (t.scrollIfFull d).cursorY = t.cursorY) := by
  have hheight := d.height_lt
  have hlast : sub32 d.height 18 = d.height - 18 := sub32_eq htall (by omega)
  rw [Tty.scrollIfFull]
  split
  · exact ⟨Tty.onGrid_margin hwide rfl (u32_lt _), hwide, .inl (by
      change sub32 d.height 18 + 17 ≤ d.height
      omega)⟩
  · next hfull =>
    have hrow := h.row
    rw [Tty.Full, sub32_eq (by omega) (by omega), u32] at hfull
    exact ⟨h, hroom, by omega⟩

/-- A character drawn where there is room leaves the cursor on the grid. -/
theorem Tty.OnGrid.draw (h : t.OnGrid d) (hroom : t.cursorX + 9 ≤ d.width)
    (hlow : t.cursorY + 17 ≤ d.height ∨ 2 ^ 32 - 16 ≤ t.cursorY) (color : ℕ) :
    (t.draw d c color).OnGrid d := by
  obtain ⟨k, hk⟩ := h.column
  have hwidth := d.width_lt
  have hx : (t.draw d c color).cursorX = t.cursorX + 9 := u32_of_lt (by omega)
  exact ⟨⟨k + 1, by omega⟩, by omega, .inr hlow, h.row⟩

/-- The steps that move the cursor within its row, one column to the left. -/
theorem Tty.OnGrid.left (h : t.OnGrid d) (hcol : t.cursorX > 10) (fb : Memory) :
    Tty.OnGrid d { t with cursorX := t.cursorX - 9, fb := fb } := by
  obtain ⟨k, hk⟩ := h.column
  have hright := h.right
  exact ⟨⟨k - 1, by dsimp only; omega⟩, by dsimp only; omega, .inl (by dsimp only; omega), h.row⟩

/-- Every character keeps the cursor in the columns. -/
theorem Tty.OnGrid.putc (h : t.OnGrid d) (hwide : 19 ≤ d.width) (htall : 18 ≤ d.height)
    (c : UInt8) (color : ℕ) : (t.putc d c color).OnGrid d := by
  rw [Tty.putc]
  split
  · exact Tty.onGrid_margin hwide rfl (u32_lt _)
  split
  · rw [Tty.backspace]
    split
    · next hcol => exact h.left hcol _
    · exact h
  · obtain ⟨hwrap, hroom⟩ := h.wrapLine hwide
    obtain ⟨hscroll, hroom', hlow⟩ := hwrap.scrollIfFull hroom hwide htall
    refine hscroll.draw hroom' ?_ color
    omega

/-- The `print` of the kernel breaks the line early enough. -/
theorem Tty.OnGrid.kernelChar (h : t.OnGrid d) (hwide : 19 ≤ d.width) (c : UInt8) (color : ℕ) :
    (t.kernelChar d c color).OnGrid d := by
  have hwidth := d.width_lt
  have hright := h.right
  have hrow := h.row
  obtain ⟨k, hk⟩ := h.column
  have hputc : (∃ k, (t.kernelPutc d c color).cursorX = 10 + 9 * k) ∧
      (t.kernelPutc d c color).cursorX ≤ d.width + 9 ∧
      (t.kernelPutc d c color).cursorY < 2 ^ 32 := by
    rw [Tty.kernelPutc]
    split
    · exact ⟨⟨0, rfl⟩, by dsimp only; omega, u32_lt _⟩
    split
    · split
      · exact ⟨⟨k - 1, by dsimp only; omega⟩, by dsimp only; omega, hrow⟩
      · exact ⟨⟨k, hk⟩, by omega, hrow⟩
    · dsimp only
      rw [u32_of_lt (by omega)]
      exact ⟨⟨k + 1, by omega⟩, by omega, hrow⟩
  obtain ⟨hcolumn, hright', hrow'⟩ := hputc
  rw [Tty.kernelChar, Tty.kernelWrap, u32_of_lt (by omega), sub32_eq (by omega) (by omega)]
  split
  · exact Tty.onGrid_margin hwide rfl (u32_lt _)
  · exact ⟨hcolumn, by omega, .inl (by omega), hrow'⟩

/-- Every call leaves the cursor on the grid. -/
theorem Tty.OnGrid.step (h : t.OnGrid d) (hwide : 19 ≤ d.width) (htall : 18 ≤ d.height)
    (hstep : Tty.Step d t u) : u.OnGrid d := by
  cases hstep with
  | clear => exact Tty.onGrid_margin hwide rfl (Nat.two_pow_pos 32)
  | putc c color => exact h.putc hwide htall c color
  | kernelChar c color => exact h.kernelChar hwide c color
  | rect => exact ⟨h.column, h.right, h.low, h.row⟩

/-- After any calls the cursor is in the columns. -/
theorem Tty.onGrid_calls (hwide : 19 ≤ d.width) (htall : 18 ≤ d.height) (fb : Memory)
    (calls : List Call) : (Tty.calls d fb calls).OnGrid d := by
  have hcall : ∀ (t : Tty) (call : Call), t.OnGrid d → (t.call d call).OnGrid d :=
    Tty.call_of_step (R := fun t u => t.OnGrid d → u.OnGrid d) (fun _ h => h)
      (fun _ _ _ htu huv h => huv (htu h)) fun _ _ hstep h => h.step hwide htall hstep
  induction calls using List.reverseRecOn with
  | nil => exact Tty.onGrid_margin hwide rfl (Nat.two_pow_pos 32)
  | append_singleton calls call ih =>
    rw [Tty.calls, List.foldl_append]
    exact hcall _ call ih

/-! ## The bytes -/

/-- Nothing is written behind the last row. -/
def KeepsBehind (d : Display) (m m' : Memory) : Prop :=
  ∀ a, d.height * d.pitch ≤ a → m' a = m a

/-- A loop whose rounds keep to the framebuffer keeps to it. -/
theorem keepsBehind_foldl {ι : Type*} {step : Memory → ι → Memory} {rounds : List ι}
    (h : ∀ m, ∀ i ∈ rounds, KeepsBehind d m (step m i)) (m : Memory) :
    KeepsBehind d m (rounds.foldl step m) := by
  induction rounds generalizing m with
  | nil => exact fun _ _ => rfl
  | cons i rounds ih =>
    intro a ha
    rw [List.foldl_cons, ih (fun m j hj => h m j (List.mem_cons_of_mem i hj)) _ a ha]
    exact h m i List.mem_cons_self a ha

/-- A pixel is drawn inside the screen. -/
theorem keepsBehind_putPixel (m : Memory) (x y color : ℕ) :
    KeepsBehind d m (putPixel d m x y color) := by
  intro a ha
  rw [putPixel]
  split
  · rfl
  · next hin =>
    obtain ⟨hx, hy⟩ := not_or.1 hin
    have hfit := d.rows_fit
    have hrows := Nat.mul_le_mul_right d.pitch (Nat.succ_le_of_lt (not_le.1 hy))
    have hpixels : 4 * (y * (d.pitch / 4)) ≤ y * d.pitch := by
      rw [Nat.mul_left_comm]
      exact Nat.mul_le_mul_left y (Nat.mul_div_le d.pitch 4)
    rw [Nat.succ_mul] at hrows
    refine storeLE_of_outside _ _ _ _ _ (.inr ?_)
    rw [pixelOffset_eq (not_le.1 hx) (not_le.1 hy)]
    omega

/-- A rectangle is drawn inside the screen. -/
theorem keepsBehind_drawRect (m : Memory) (x y width height color : ℕ) :
    KeepsBehind d m (drawRect d m x y width height color) :=
  keepsBehind_foldl (fun m _ _ =>
    keepsBehind_foldl (fun m _ _ => keepsBehind_putPixel m _ _ color) m) m

/-- A character is drawn inside the screen. -/
theorem keepsBehind_drawCell (shape : ℕ → ℕ → Bool) (m : Memory) (x y color : ℕ) :
    KeepsBehind d m (drawCell d shape m x y color) := by
  refine keepsBehind_foldl (fun m row _ => keepsBehind_foldl (fun m col _ => ?_) m) m
  split
  · exact keepsBehind_putPixel m _ _ color
  · exact fun _ _ => rfl

/-- Drawings one after the other. -/
theorem KeepsBehind.trans {m m' m'' : Memory} (h : KeepsBehind d m m')
    (h' : KeepsBehind d m' m'') : KeepsBehind d m m'' := fun a ha => (h' a ha).trans (h a ha)

/-- The bytes that scrolling moves, and the rows it clears, make up the framebuffer. -/
theorem kept_eq (htall : 18 ≤ d.height) :
    u32 (sub32 d.height 18 * d.pitch) = (d.height - 18) * d.pitch ∧
      (d.height - 18) * d.pitch + 18 * d.pitch = d.height * d.pitch := by
  have hheight := d.height_lt
  have hpitch := d.pitch_lt
  have hle : (d.height - 18) * d.pitch ≤ (2 ^ 16 - 1) * (2 ^ 16 - 1) :=
    Nat.mul_le_mul (by omega) (by omega)
  rw [sub32_eq htall (by omega), u32_of_lt (by omega), ← Nat.add_mul,
    Nat.sub_add_cancel htall]
  exact ⟨rfl, rfl⟩

/-- Scrolling stays inside the screen. -/
theorem keepsBehind_scroll (htall : 18 ≤ d.height) (t : Tty) :
    KeepsBehind d t.fb (t.scroll d).fb := by
  obtain ⟨hkept, hall⟩ := kept_eq htall
  intro a ha
  rw [Tty.scroll]
  dsimp only
  rw [hkept, keepsBehind_foldl (fun m i hi b hb => ?_) _ a ha, memmove_of_outside _ (by omega)]
  have hi := List.mem_range.1 hi
  exact storeLE_of_outside _ _ _ _ _ (by omega)

/-- Every step of the consoles keeps to the framebuffer. -/
theorem Tty.Step.keepsBehind (htall : 18 ≤ d.height) (h : Tty.Step d t u) :
    KeepsBehind d t.fb u.fb := by
  have hfill : ∀ m x y color, KeepsBehind d m (fillCell d m x y color) :=
    fun m x y color => keepsBehind_drawCell _ m x y color
  cases h with
  | clear =>
    exact keepsBehind_foldl (fun m _ _ =>
      keepsBehind_foldl (fun m _ _ => keepsBehind_putPixel m _ _ t.bgColor) m) t.fb
  | putc c color =>
    rw [Tty.putc]
    split
    · exact fun _ _ => rfl
    split
    · rw [Tty.backspace]
      split
      · exact hfill _ _ _ _
      · exact fun _ _ => rfl
    · have hwrap : (t.wrapLine d).fb = t.fb := by
        rw [Tty.wrapLine]
        split <;> rfl
      have hscroll : KeepsBehind d t.fb ((t.wrapLine d).scrollIfFull d).fb := by
        rw [Tty.scrollIfFull, ← hwrap]
        split
        · exact keepsBehind_scroll htall _
        · exact fun _ _ => rfl
      exact (hscroll.trans (hfill _ _ _ _)).trans (keepsBehind_drawCell _ _ _ _ _)
  | kernelChar c color =>
    have hputc : KeepsBehind d t.fb (t.kernelPutc d c color).fb := by
      rw [Tty.kernelPutc]
      split
      · exact fun _ _ => rfl
      split
      · split
        · exact keepsBehind_drawRect _ _ _ _ _ _
        · exact fun _ _ => rfl
      · dsimp only
        rw [kernelPutcharAt]
        split
        · exact fun _ _ => rfl
        · exact keepsBehind_drawCell _ _ _ _ _
    rw [Tty.kernelChar, Tty.kernelWrap]
    split
    · exact hputc
    · exact hputc
  | rect => exact keepsBehind_drawRect _ _ _ _ _ _

/-- Whatever the framebuffer and the memory behind it hold, no call writes behind the last
row. -/
theorem Tty.keepsBehind_calls (htall : 18 ≤ d.height) (fb : Memory) (calls : List Call) :
    KeepsBehind d fb (Tty.calls d fb calls).fb := by
  have hcall : ∀ (t : Tty) (call : Call), KeepsBehind d t.fb (t.call d call).fb :=
    Tty.call_of_step (R := fun t u => KeepsBehind d t.fb u.fb) (fun _ _ _ => rfl)
      (fun _ _ _ => KeepsBehind.trans) fun _ _ hstep => hstep.keepsBehind htall
  induction calls using List.reverseRecOn with
  | nil => exact (Tty.Step.clear ⟨10, 0, 0x1E1E1E, fb⟩).keepsBehind htall
  | append_singleton calls call ih =>
    rw [Tty.calls, List.foldl_append]
    exact ih.trans (hcall _ call)

/-! ## The cells -/

/-- The character is drawn into a cell that lies inside the screen. -/
def Tty.DrawsInside (d : Display) (t : Tty) (c : UInt8) (color : ℕ) : Prop :=
  ∃ x y, x + 9 ≤ d.width ∧ y + 16 ≤ d.height ∧ (t.putc d c color).cursor = (x + 9, y) ∧
    ∀ a b, d.layout.InCell (x, y) a b → (t.putc d c color).pixel d a b =
      glyphPixel d t.bgColor c color (a - x) (b - y)

/-- Where the line is broken the cursor was on the screen, so the row does not overflow. -/
theorem Tty.OnGrid.wrapLine_row (h : t.OnGrid d) (hend : t.cursorY < 2 ^ 32 - 16) :
    (t.wrapLine d).cursorY < 2 ^ 32 - 16 := by
  have hwidth := d.width_lt
  have hheight := d.height_lt
  have hright := h.right
  have hlow := h.low
  rw [Tty.wrapLine, u32_of_lt (by omega)]
  split
  · dsimp only
    rw [u32_of_lt (by omega)]
    omega
  · exact hend

/-- A character drawn into a cell on the screen fills the cell, and the cursor is behind it. -/
theorem Tty.draw_inside (hx : t.cursorX + 9 ≤ d.width) (hy : t.cursorY + 16 ≤ d.height)
    (c : UInt8) (color : ℕ) :
    (t.draw d c color).cursor = (t.cursorX + 9, t.cursorY) ∧
      ∀ a b, d.layout.InCell t.cursor a b → (t.draw d c color).pixel d a b =
        glyphPixel d t.bgColor c color (a - t.cursorX) (b - t.cursorY) := by
  have hwidth := d.width_lt
  have hheight := d.height_lt
  refine ⟨Prod.ext (u32_of_lt (by omega)) rfl, fun a b hin => ?_⟩
  have hcell := hin
  simp only [Layout.InCell, Display.layout, Tty.cursor] at hcell
  rw [Tty.pixel_draw ⟨by omega, by omega⟩ (by omega) (by omega), if_pos hin]

/-- Making room for a character keeps the background colour. -/
theorem Tty.scrollIfFull_wrapLine_bgColor (d : Display) (t : Tty) :
    ((t.wrapLine d).scrollIfFull d).bgColor = t.bgColor := by
  have hwrap : (t.wrapLine d).bgColor = t.bgColor := by
    rw [Tty.wrapLine]
    split <;> rfl
  rw [Tty.scrollIfFull, ← hwrap]
  split <;> rfl

/-- With the cursor in the columns and not at the end of 32 bits, `tty_putc` finds a place
on the screen. -/
theorem Tty.OnGrid.drawsInside (h : t.OnGrid d) (hwide : 19 ≤ d.width) (htall : 18 ≤ d.height)
    (hend : t.cursorY < 2 ^ 32 - 16) (hc : c ≠ 10) (hc' : c ≠ 8) (color : ℕ) :
    t.DrawsInside d c color := by
  have hwidth := d.width_lt
  have hheight := d.height_lt
  obtain ⟨hwrap, hroom⟩ := h.wrapLine hwide
  obtain ⟨-, hroom', hlow⟩ := hwrap.scrollIfFull hroom hwide htall
  have hbg := t.scrollIfFull_wrapLine_bgColor d
  have hrow := h.wrapLine_row hend
  have hputc : t.putc d c color = ((t.wrapLine d).scrollIfFull d).draw d c color := by
    rw [Tty.putc, if_neg hc, if_neg hc']
  have hfits : ((t.wrapLine d).scrollIfFull d).cursorY + 16 ≤ d.height := by omega
  obtain ⟨hcursor, hpixel⟩ := Tty.draw_inside hroom' hfits c color
  rw [← hputc, hbg] at hpixel
  rw [← hputc] at hcursor
  exact ⟨_, _, hroom', hfits, hcursor, hpixel⟩

/-- After any calls of the two consoles the cursor is in a column of text, nothing has been
written outside the framebuffer, and `tty_putc` draws every character on the screen. -/
theorem Tty.geometry_of_calls (hwide : 19 ≤ d.width) (htall : 18 ≤ d.height) (fb : Memory)
    (calls : List Call) :
    (∃ k, (Tty.calls d fb calls).cursorX = 10 + 9 * k) ∧
      (∀ a, d.height * d.pitch ≤ a → (Tty.calls d fb calls).fb a = fb a) ∧
      ((Tty.calls d fb calls).cursorY < 2 ^ 32 - 16 → ∀ (c : UInt8) (color : ℕ),
        c ≠ 10 → c ≠ 8 → (Tty.calls d fb calls).DrawsInside d c color) := by
  have hgrid := Tty.onGrid_calls hwide htall fb calls
  exact ⟨hgrid.column, Tty.keepsBehind_calls htall fb calls,
    fun hend c color hc hc' => hgrid.drawsInside hwide htall hend hc hc' color⟩

/-- The smallest screen for one character. -/
def oneCell : Display where
  width := 19
  height := 18
  pitch := 76
  font := fun _ => 0
  width_lt := by decide
  height_lt := by decide
  pitch_lt := by decide
  rows_fit := by decide

/-- Both consoles on a screen of one cell. -/
theorem Tty.geometry_of_calls_oneCell :
    let t := Tty.calls oneCell (fun _ => 0)
      [.print [65, 10, 66] 0xFFFFFF, .kernelPrint [67, 10, 68] 0xFFFFFF true, .printHex 0xCAFE 0]
    (∃ k, t.cursorX = 10 + 9 * k) ∧
      (∀ a, oneCell.height * oneCell.pitch ≤ a → t.fb a = 0) ∧
      (t.cursorY < 2 ^ 32 - 16 → ∀ (c : UInt8) (color : ℕ), c ≠ 10 → c ≠ 8 →
        t.DrawsInside oneCell c color) :=
  Tty.geometry_of_calls (by decide) (by decide) _ _

end Orionis.Console
