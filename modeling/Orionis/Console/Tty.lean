import Mathlib.Data.List.Range
import Orionis.Foundations.ByteMemory
import Orionis.Foundations.CellGrid

/-!
# The framebuffer terminal of `tty.cpp`

The terminal keeps a cursor in pixels and draws glyphs of 9 by 16 pixels into rows of 18.
The framebuffer is a byte memory that starts at `framebuffer_addr`; pixels are 32-bit
stores. Coordinates are `uint32_t`.

The glyph table `console_tty_9x16` is a parameter, since nothing depends on what the
glyphs look like, and `boot_info` is there, as it is once `tty_init` has run.
-/

namespace Orionis.Console

open Orionis.Foundations

/-- The framebuffer fields of `boot_info`, which are 16 bits wide, and the glyph table. The
boot loader gives every row room for its pixels. -/
structure Display where
  width : ℕ
  height : ℕ
  pitch : ℕ
  font : Memory
  width_lt : width < 2 ^ 16
  height_lt : height < 2 ^ 16
  pitch_lt : pitch < 2 ^ 16
  rows_fit : 4 * width ≤ pitch

/-- `cursor_x`, `cursor_y`, `current_bg_color` and the bytes of the framebuffer. -/
structure Tty where
  cursorX : ℕ
  cursorY : ℕ
  bgColor : ℕ
  fb : Memory

/-- Arithmetic on `uint32_t`. -/
def u32 (n : ℕ) : ℕ := n % 2 ^ 32

/-- `a - b` on `uint32_t`. -/
def sub32 (a b : ℕ) : ℕ := u32 (a + 2 ^ 32 - b)

/-! ## Drawing -/

/-- Where the pixel in column `x` of row `y` lies, as `put_pixel` computes it. -/
def pixelOffset (d : Display) (x y : ℕ) : ℕ := 4 * u32 (y * (d.pitch / 4) + x)

/-- `put_pixel`. -/
def putPixel (d : Display) (fb : Memory) (x y color : ℕ) : Memory :=
  if x ≥ d.width ∨ y ≥ d.height then fb else storeLE fb 4 (pixelOffset d x y) color

/-- A loop over the 16 rows and 9 columns of the cell at `(x, y)` that draws some of its
pixels. -/
def drawCell (d : Display) (shape : ℕ → ℕ → Bool) (fb : Memory) (x y color : ℕ) : Memory :=
  (List.range 16).foldl (fun fb row =>
    (List.range 9).foldl (fun fb col =>
      if shape row col then putPixel d fb (u32 (x + col)) (u32 (y + row)) color else fb) fb) fb

/-- The loop of `tty_putc` that fills a cell. -/
def fillCell (d : Display) (fb : Memory) (x y color : ℕ) : Memory :=
  drawCell d (fun _ _ => true) fb x y color

/-- The bit of a glyph that `putchar_at` tests; a character beyond ASCII becomes `?`. -/
def glyphBit (d : Display) (c : UInt8) (row col : ℕ) : Bool :=
  let glyph := (if c ≥ 128 then 63 else c).toNat * 32
  (loadLE d.font 2 (glyph + row * 2)).testBit (8 - col)

/-- `putchar_at`. -/
def putcharAt (d : Display) (fb : Memory) (c : UInt8) (x y color : ℕ) : Memory :=
  drawCell d (glyphBit d c) fb x y color

/-! ## Scrolling -/

/-- `memmove`: backwards where the destination lies above the source. -/
def memmove (m : Memory) (dest src n : ℕ) : Memory :=
  if src < dest then
    (List.range n).reverse.foldl (fun m i => Function.update m (dest + i) (m (src + i))) m
  else (List.range n).foldl (fun m i => Function.update m (dest + i) (m (src + i))) m

/-- The test of `tty_putc` for a cell that does not fit above the last pixel row. -/
def Tty.Full (d : Display) (t : Tty) : Prop := u32 (t.cursorY + 16) > sub32 d.height 1

instance (d : Display) (t : Tty) : Decidable (t.Full d) := inferInstanceAs (Decidable (_ > _))

/-- The block of `tty_putc` that moves the screen up by one row of text. -/
def Tty.scroll (d : Display) (t : Tty) : Tty :=
  let kept := u32 (sub32 d.height 18 * d.pitch)
  let fb := memmove t.fb 0 (18 * d.pitch) kept
  { t with
    cursorX := 10
    cursorY := sub32 d.height 18
    fb := (List.range (18 * d.pitch / 4)).foldl
      (fun fb i => storeLE fb 4 (kept + 4 * i) t.bgColor) fb }

/-! ## Characters -/

/-- The automatic line break of `tty_putc`. -/
def Tty.wrapLine (d : Display) (t : Tty) : Tty :=
  if u32 (t.cursorX + 9) > d.width then
    { t with cursorX := 10, cursorY := u32 (t.cursorY + 18) }
  else t

/-- The test and the block that scrolls. -/
def Tty.scrollIfFull (d : Display) (t : Tty) : Tty := if t.Full d then t.scroll d else t

/-- The end of `tty_putc`: the cell is cleared and the glyph drawn over it. -/
def Tty.draw (d : Display) (t : Tty) (c : UInt8) (color : ℕ) : Tty :=
  { t with
    cursorX := u32 (t.cursorX + 9)
    fb := putcharAt d (fillCell d t.fb t.cursorX t.cursorY t.bgColor) c t.cursorX t.cursorY color }

/-- `tty_putc` for a backspace: it only moves within the row. -/
def Tty.backspace (d : Display) (t : Tty) : Tty :=
  if t.cursorX > 10 then
    { t with
      cursorX := t.cursorX - 9
      fb := fillCell d t.fb (t.cursorX - 9) t.cursorY t.bgColor }
  else t

/-- `tty_putc`. -/
def Tty.putc (d : Display) (t : Tty) (c : UInt8) (color : ℕ) : Tty :=
  if c = 10 then { t with cursorX := 10, cursorY := u32 (t.cursorY + 18) }
  else if c = 8 then t.backspace d
  else ((t.wrapLine d).scrollIfFull d).draw d c color

/-- `tty_print`, on the bytes before the NUL. -/
def Tty.print (d : Display) (t : Tty) (text : List UInt8) (color : ℕ) : Tty :=
  text.foldl (fun t c => t.putc d c color) t

/-! ## What is on the screen -/

/-- The color of a pixel. -/
def Tty.pixel (d : Display) (t : Tty) (x y : ℕ) : ℕ := loadLE t.fb 4 (pixelOffset d x y)

/-- Where the next character is drawn, unless it scrolls. -/
def Tty.nextCell (d : Display) (t : Tty) : ℕ × ℕ :=
  ((t.wrapLine d).cursorX, (t.wrapLine d).cursorY)

/-- The next character would scroll. -/
def Tty.Scrolls (d : Display) (t : Tty) : Prop := (t.wrapLine d).Full d

instance (d : Display) (t : Tty) : Decidable (t.Scrolls d) :=
  inferInstanceAs (Decidable (Tty.Full _ _))

/-- The measures of the text. -/
def Display.layout (d : Display) : Layout where
  left := 10
  width := d.width
  cellWidth := 9
  cellHeight := 16
  rowHeight := 18
  rows_apart := by decide

end Orionis.Console
