import Orionis.Console.Tty

/-!
# What drawing does to the screen

Pixels on the screen lie apart in the framebuffer, so a drawing loop colors the pixels it
draws and no others. A character colors its own cell, a backspace clears the cell in front
of the cursor.
-/

namespace Orionis.Console

open Orionis.Foundations

variable {d : Display} {t : Tty} {c : UInt8} {a b x y color : ℕ}

/-- A number of 32 bits does not wrap. -/
theorem u32_of_lt {n : ℕ} (h : n < 2 ^ 32) : u32 n = n := Nat.mod_eq_of_lt h

/-- The position of the cursor. -/
def Tty.cursor (t : Tty) : ℕ × ℕ := (t.cursorX, t.cursorY)

/-- The cursor is far from the end of 32 bits. -/
def Tty.InRange (t : Tty) : Prop := t.cursorX < 2 ^ 31 ∧ t.cursorY < 2 ^ 31

/-- The color that a character leaves in a pixel of its cell. -/
def glyphPixel (d : Display) (bgColor : ℕ) (c : UInt8) (color col row : ℕ) : ℕ :=
  if glyphBit d c row col then u32 color else u32 bgColor

/-! ## Single pixels -/

/-- Offsets of pixels on the screen do not overflow. -/
theorem pixelOffset_eq (hx : x < d.width) (hy : y < d.height) :
    pixelOffset d x y = 4 * (y * (d.pitch / 4) + x) := by
  have hwidth := d.width_lt
  have hheight := d.height_lt
  have hpitch := d.pitch_lt
  have hle : y * (d.pitch / 4) ≤ 2 ^ 16 * 2 ^ 14 := Nat.mul_le_mul (by omega) (by omega)
  rw [pixelOffset, u32_of_lt (by omega)]

/-- Two pixels on the screen share no byte. -/
theorem pixelOffset_apart (hx : x < d.width) (hy : y < d.height) (ha : a < d.width)
    (hb : b < d.height) (hne : ¬(x = a ∧ y = b)) :
    pixelOffset d a b + 4 ≤ pixelOffset d x y ∨ pixelOffset d x y + 4 ≤ pixelOffset d a b := by
  have hfit := d.rows_fit
  rw [pixelOffset_eq hx hy, pixelOffset_eq ha hb]
  rcases Nat.lt_trichotomy y b with hlt | rfl | hgt
  · have hrow := Nat.mul_le_mul_right (d.pitch / 4) hlt
    rw [Nat.succ_mul] at hrow
    omega
  · omega
  · have hrow := Nat.mul_le_mul_right (d.pitch / 4) hgt
    rw [Nat.succ_mul] at hrow
    omega

/-- `put_pixel` changes the pixel it names and no other pixel of the screen. -/
theorem load_putPixel (fb : Memory) (ha : a < d.width) (hb : b < d.height) :
    loadLE (putPixel d fb x y color) 4 (pixelOffset d a b) =
      if x = a ∧ y = b then u32 color else loadLE fb 4 (pixelOffset d a b) := by
  unfold putPixel
  by_cases hout : x ≥ d.width ∨ y ≥ d.height
  · rw [if_pos hout, if_neg (by omega)]
  · rw [if_neg hout]
    by_cases hsame : x = a ∧ y = b
    · rw [if_pos hsame, hsame.1, hsame.2, loadLE_storeLE_same]
      rfl
    · rw [if_neg hsame]
      exact loadLE_storeLE_of_disjoint _ _ _ _ _ _
        (pixelOffset_apart (by omega) (by omega) ha hb hsame)

/-! ## Cells -/

/-- The loop over a cell colors the pixels of its shape. -/
theorem load_drawCell (shape : ℕ → ℕ → Bool) (fb : Memory) (hx : x < 2 ^ 31) (hy : y < 2 ^ 31)
    (ha : a < d.width) (hb : b < d.height) :
    loadLE (drawCell d shape fb x y color) 4 (pixelOffset d a b) =
      if d.layout.InCell (x, y) a b ∧ shape (b - y) (a - x) then u32 color
      else loadLE fb 4 (pixelOffset d a b) := by
  have hpixel : ∀ row m col, loadLE (if shape row col then
      putPixel d m (u32 (x + col)) (u32 (y + row)) color else m) 4 (pixelOffset d a b) =
      if shape row col ∧ u32 (x + col) = a ∧ u32 (y + row) = b then u32 color
      else loadLE m 4 (pixelOffset d a b) := by
    intro row m col
    by_cases hshape : shape row col
    · simp only [hshape, if_true, true_and]
      exact load_putPixel m ha hb
    · simp [hshape]
  have hline := fun m row => foldl_write (fun m => loadLE m 4 (pixelOffset d a b))
    (hpixel row) (List.range 9) m
  refine (foldl_write (fun m => loadLE m 4 (pixelOffset d a b)) hline (List.range 16) fb).trans ?_
  congr 1
  apply propext
  constructor
  · intro hall
    obtain ⟨row, hrow, col, hcol, hshape, hcol', hrow'⟩ := hall
    rw [List.mem_range] at hrow hcol
    rw [u32_of_lt (by omega)] at hcol' hrow'
    subst hcol' hrow'
    rw [Nat.add_sub_cancel_left, Nat.add_sub_cancel_left]
    exact ⟨⟨by simp, by simpa [Display.layout] using hcol, by simp,
      by simpa [Display.layout] using hrow⟩, hshape⟩
  · intro hall
    obtain ⟨⟨hxlo, hxhi, hylo, hyhi⟩, hshape⟩ := hall
    simp only [Display.layout] at hxlo hxhi hylo hyhi
    refine ⟨b - y, List.mem_range.2 (by omega), a - x, List.mem_range.2 (by omega), hshape, ?_, ?_⟩
    · rw [Nat.add_sub_cancel' hxlo, u32_of_lt (by omega)]
    · rw [Nat.add_sub_cancel' hylo, u32_of_lt (by omega)]

/-- A backspace right of the margin clears the cell in front of the cursor. -/
theorem Tty.backspace_spec (color : ℕ) (hr : t.InRange) (hcol : t.cursorX > 10) :
    (t.putc d 8 color).cursor = (t.cursorX - 9, t.cursorY) ∧
      (t.putc d 8 color).bgColor = t.bgColor ∧
      ∀ a b, a < d.width → b < d.height → (t.putc d 8 color).pixel d a b =
        if d.layout.InCell (t.cursorX - 9, t.cursorY) a b then u32 t.bgColor
        else t.pixel d a b := by
  obtain ⟨hx, hy⟩ := hr
  have hrun : t.putc d 8 color =
      { t with
        cursorX := t.cursorX - 9
        fb := fillCell d t.fb (t.cursorX - 9) t.cursorY t.bgColor } := if_pos hcol
  rw [hrun]
  refine ⟨rfl, rfl, ?_⟩
  intro a b ha hb
  refine (load_drawCell _ t.fb (by omega) hy ha hb).trans ?_
  simp only [and_true]
  rfl

/-! ## Characters -/

/-- The automatic line break moves the cursor to the next cell. -/
theorem Tty.wrapLine_eq (hr : t.InRange) :
    t.wrapLine d = { t with
      cursorX := (d.layout.wrap t.cursor).1
      cursorY := (d.layout.wrap t.cursor).2 } := by
  obtain ⟨hx, hy⟩ := hr
  unfold Tty.wrapLine Layout.wrap
  rw [u32_of_lt (by omega), u32_of_lt (by omega)]
  by_cases hgt : t.cursorX + 9 > d.width
  · rw [if_pos hgt, if_pos (by exact hgt)]
    rfl
  · rw [if_neg hgt, if_neg (by exact hgt)]
    rfl

/-- The next cell of the source is that of the layout. -/
theorem Tty.nextCell_eq (hr : t.InRange) : t.nextCell d = d.layout.wrap t.cursor := by
  rw [Tty.nextCell, Tty.wrapLine_eq hr]

/-- On a screen of some height, a character scrolls where its cell does not end above the
last row of pixels. -/
theorem Tty.scrolls_iff (hr : t.InRange) (hheight : 0 < d.height) :
    t.Scrolls d ↔ d.height ≤ (d.layout.wrap t.cursor).2 + 16 := by
  have hlt := d.height_lt
  have hrow : (d.layout.wrap t.cursor).2 ≤ t.cursorY + 18 := (d.layout.wrap_bounds t.cursor).2
  have hy := hr.2
  rw [Tty.Scrolls, Tty.wrapLine_eq hr, Tty.Full, sub32]
  generalize (d.layout.wrap t.cursor).2 = row at *
  have hlast : u32 (d.height + 2 ^ 32 - 1) = d.height - 1 := by
    rw [u32]
    omega
  rw [u32_of_lt (by show row + 16 < 2 ^ 32; omega), hlast]
  show row + 16 > d.height - 1 ↔ _
  omega

/-- Drawing a character colors the cell at the cursor. -/
theorem Tty.pixel_draw (hr : t.InRange) (ha : a < d.width) (hb : b < d.height) :
    (t.draw d c color).pixel d a b =
      if d.layout.InCell t.cursor a b then
        glyphPixel d t.bgColor c color (a - t.cursorX) (b - t.cursorY)
      else t.pixel d a b := by
  refine (load_drawCell _ _ hr.1 hr.2 ha hb).trans ?_
  rw [fillCell, load_drawCell _ _ hr.1 hr.2 ha hb]
  unfold glyphPixel Tty.cursor
  by_cases hin : d.layout.InCell (t.cursorX, t.cursorY) a b
  · simp [hin]
  · simp [hin, Tty.pixel]

/-- A character that does not scroll is drawn into the next cell. -/
theorem Tty.putc_spec (color : ℕ) (hr : t.InRange) (hc : c ≠ 10) (hc' : c ≠ 8)
    (hscroll : ¬t.Scrolls d) :
    (t.putc d c color).cursor = d.layout.behind (d.layout.wrap t.cursor) ∧
      (t.putc d c color).bgColor = t.bgColor ∧
      ∀ a b, a < d.width → b < d.height → (t.putc d c color).pixel d a b =
        if d.layout.InCell (d.layout.wrap t.cursor) a b then
          glyphPixel d t.bgColor c color (a - (d.layout.wrap t.cursor).1)
            (b - (d.layout.wrap t.cursor).2)
        else t.pixel d a b := by
  have hrun : t.putc d c color = (t.wrapLine d).draw d c color := by
    unfold Tty.putc
    rw [if_neg hc, if_neg hc', Tty.scrollIfFull]
    exact congrArg (Tty.draw d · c color) (if_neg hscroll)
  have hcol : (d.layout.wrap t.cursor).1 < 2 ^ 31 :=
    Nat.lt_of_le_of_lt (d.layout.wrap_bounds t.cursor).1 (Nat.max_lt.2 ⟨(by decide : 10 < 2 ^ 31), hr.1⟩)
  rw [hrun, Tty.wrapLine_eq hr]
  refine ⟨?_, rfl, ?_⟩
  · exact Prod.ext (u32_of_lt (Nat.lt_trans (Nat.add_lt_add_right hcol 9) (by decide))) rfl
  · intro a b ha hb
    have hfit := (Tty.scrolls_iff hr (Nat.zero_lt_of_lt hb)).not.1 hscroll
    have hheight := d.height_lt
    have hrow : (d.layout.wrap t.cursor).2 < 2 ^ 31 := by omega
    exact Tty.pixel_draw ⟨hcol, hrow⟩ ha hb

end Orionis.Console
