import Orionis.Console.Cells

/-!
# Two consoles on one cursor

The rest of the terminal, `tty_init` to `print_dec`, and the `print` of `kernel.cpp`, which
draws on the same framebuffer and moves the same cursor with rules of its own.
-/

namespace Orionis.Console

open Orionis.Foundations

/-! ## The terminal -/

/-- `tty_clear`. -/
def Tty.clear (d : Display) (t : Tty) : Tty where
  cursorX := 10
  cursorY := 0
  bgColor := t.bgColor
  fb := (List.range d.height).foldl (fun fb y =>
    (List.range d.width).foldl (fun fb x => putPixel d fb x y t.bgColor) fb) t.fb

/-- `tty_init`, on a framebuffer as the boot loader leaves it. -/
def Tty.init (d : Display) (fb : Memory) : Tty :=
  Tty.clear d { cursorX := 10, cursorY := 0, bgColor := 0x1E1E1E, fb := fb }

/-- The loop of `print_hex` and `print_dec`: the digits go into the buffer from the right. A
64-bit value has at most 64 of them. -/
def digitLoop (base : ℕ) (digit : ℕ → UInt8) :
    (fuel value : ℕ) → (i : ℤ) → (ℤ → UInt8) → ℤ × (ℤ → UInt8)
  | 0, _, i, buffer => (i, buffer)
  | fuel + 1, value, i, buffer =>
    if 0 < value then
      digitLoop base digit fuel (value / base) (i - 1)
        (Function.update buffer i (digit (value % base)))
    else (i, buffer)

/-- The string that starts at `&buffer[start]`, in a buffer that ends before `stop`. -/
def bufferString (buffer : ℤ → UInt8) (start stop : ℤ) : List UInt8 :=
  ((List.range (stop - start).toNat).map fun j => buffer (start + j)).takeWhile (· ≠ 0)

/-- `hex_chars[n]`. -/
def hexChar (n : ℕ) : UInt8 := UInt8.ofNat (if n < 10 then 48 + n else 55 + n)

/-- `n + '0'`. -/
def decChar (n : ℕ) : UInt8 := UInt8.ofNat (n + 48)

/-- `print_hex` and `print_dec`, which differ in the base and the length of the buffer. -/
def Tty.printNumber (d : Display) (t : Tty) (base : ℕ) (digit : ℕ → UInt8) (size : ℤ)
    (value : UInt64) (color : ℕ) : Tty :=
  if value = 0 then t.putc d 48 color
  else
    let (i, buffer) := digitLoop base digit 64 value.toNat (size - 2) fun _ => 0
    t.print d (bufferString buffer (i + 1) size) color

/-- `print_hex`. -/
def Tty.printHex (d : Display) (t : Tty) (value : UInt64) (color : ℕ) : Tty :=
  t.printNumber d 16 hexChar 17 value color

/-- `print_dec`. -/
def Tty.printDec (d : Display) (t : Tty) (value : UInt64) (color : ℕ) : Tty :=
  t.printNumber d 10 decChar 21 value color

/-! ## The kernel -/

/-- `draw_rect`. -/
def drawRect (d : Display) (fb : Memory) (x y width height color : ℕ) : Memory :=
  (List.range height).foldl (fun fb i =>
    (List.range width).foldl (fun fb j => putPixel d fb (u32 (x + j)) (u32 (y + i)) color) fb) fb

/-- The `putchar_at` of `kernel.cpp`, which leaves out characters beyond ASCII. -/
def kernelPutcharAt (d : Display) (fb : Memory) (c : UInt8) (x y color : ℕ) : Memory :=
  if c ≥ 128 then fb else drawCell d (glyphBit d c) fb x y color

/-- What `print` does with a character, before it looks at the right edge. -/
def Tty.kernelPutc (d : Display) (t : Tty) (c : UInt8) (color : ℕ) : Tty :=
  if c = 10 then { t with cursorX := 10, cursorY := u32 (t.cursorY + 18) }
  else if c = 8 then
    if t.cursorX > 10 then
      { t with
        cursorX := t.cursorX - 9
        fb := drawRect d t.fb (t.cursorX - 9) t.cursorY 9 16 t.bgColor }
    else t
  else
    { t with
      cursorX := u32 (t.cursorX + 9)
      fb := kernelPutcharAt d t.fb c t.cursorX t.cursorY color }

/-- The automatic line break of `print`, ten pixels before the edge and behind a character. -/
def Tty.kernelWrap (d : Display) (t : Tty) : Tty :=
  if u32 (t.cursorX + 9) > sub32 d.width 10 then
    { t with cursorX := 10, cursorY := u32 (t.cursorY + 18) }
  else t

/-- One round of the loop of `print`. -/
def Tty.kernelChar (d : Display) (t : Tty) (c : UInt8) (color : ℕ) : Tty :=
  (t.kernelPutc d c color).kernelWrap d

/-- `print` erases the old cursor. -/
def Tty.eraseCursor (d : Display) (t : Tty) : Tty :=
  { t with fb := drawRect d t.fb t.cursorX t.cursorY 9 16 t.bgColor }

/-- `print` draws the cursor, where `cursor_visible` says so. -/
def Tty.drawCursor (d : Display) (t : Tty) (cursorVisible : Bool) : Tty :=
  { t with
    fb := drawRect d t.fb t.cursorX t.cursorY 9 16
      (if cursorVisible then 0xFFFFFF else t.bgColor) }

/-- The loop of `print`. -/
def Tty.kernelChars (d : Display) (t : Tty) (text : List UInt8) (color : ℕ) : Tty :=
  text.foldl (fun t c => t.kernelChar d c color) t

/-- `print`, on the bytes before the NUL. -/
def Tty.kernelPrint (d : Display) (t : Tty) (text : List UInt8) (color : ℕ)
    (cursorVisible : Bool) : Tty :=
  ((t.eraseCursor d).kernelChars d text color).drawCursor d cursorVisible

/-! ## Calls -/

/-- A call of one of the consoles. -/
inductive Call
  | clear
  | putc (c : UInt8) (color : ℕ)
  | print (text : List UInt8) (color : ℕ)
  | printHex (value : UInt64) (color : ℕ)
  | printDec (value : UInt64) (color : ℕ)
  | kernelPrint (text : List UInt8) (color : ℕ) (cursorVisible : Bool)
  deriving DecidableEq, Repr

/-- What a call does. -/
def Tty.call (d : Display) (t : Tty) : Call → Tty
  | .clear => t.clear d
  | .putc c color => t.putc d c color
  | .print text color => t.print d text color
  | .printHex value color => t.printHex d value color
  | .printDec value color => t.printDec d value color
  | .kernelPrint text color cursorVisible => t.kernelPrint d text color cursorVisible

/-- The screen after some calls since `tty_init`. -/
def Tty.calls (d : Display) (fb : Memory) (calls : List Call) : Tty :=
  calls.foldl (Tty.call d) (Tty.init d fb)

/-! ## Steps -/

variable {d : Display} {t : Tty}

/-- The single steps both consoles are made of. -/
inductive Tty.Step (d : Display) : Tty → Tty → Prop
  | clear (t : Tty) : Step d t (t.clear d)
  | putc (t : Tty) (c : UInt8) (color : ℕ) : Step d t (t.putc d c color)
  | kernelChar (t : Tty) (c : UInt8) (color : ℕ) : Step d t (t.kernelChar d c color)
  | rect (t : Tty) (x y width height color : ℕ) :
      Step d t { t with fb := drawRect d t.fb x y width height color }

/-- A relation that is reflexive, transitive and holds of every step holds of every call. -/
theorem Tty.call_of_step {R : Tty → Tty → Prop} (hrefl : ∀ t, R t t)
    (htrans : ∀ t u v, R t u → R u v → R t v) (hstep : ∀ t u, Tty.Step d t u → R t u)
    (t : Tty) (call : Call) : R t (t.call d call) := by
  have hfold : ∀ (f : Tty → UInt8 → Tty), (∀ t c, R t (f t c)) → ∀ (text : List UInt8) (t : Tty),
      R t (text.foldl f t) := by
    intro f hf text
    induction text with
    | nil => exact hrefl
    | cons c text ih => exact fun t => htrans _ _ _ (hf t c) (ih (f t c))
  have hprint : ∀ (t : Tty) (text : List UInt8) (color : ℕ), R t (t.print d text color) :=
    fun t text color => hfold _ (fun t c => hstep _ _ (.putc t c color)) text t
  have hnumber : ∀ (t : Tty) (base : ℕ) (digit : ℕ → UInt8) (size : ℤ) (value : UInt64)
      (color : ℕ), R t (t.printNumber d base digit size value color) := by
    intro t base digit size value color
    rw [Tty.printNumber]
    split
    · exact hstep _ _ (.putc t 48 color)
    · exact hprint t _ color
  cases call with
  | clear => exact hstep _ _ (.clear t)
  | putc c color => exact hstep _ _ (.putc t c color)
  | print text color => exact hprint t text color
  | printHex value color => exact hnumber t 16 hexChar 17 value color
  | printDec value color => exact hnumber t 10 decChar 21 value color
  | kernelPrint text color cursorVisible =>
    have herase : R t (t.eraseCursor d) := hstep _ _ (.rect t t.cursorX t.cursorY 9 16 t.bgColor)
    have hchars : R (t.eraseCursor d) ((t.eraseCursor d).kernelChars d text color) :=
      hfold _ (fun t c => hstep _ _ (.kernelChar t c color)) text _
    exact htrans _ _ _ herase (htrans _ _ _ hchars (hstep _ _ (.rect _ _ _ 9 16 _)))

end Orionis.Console
