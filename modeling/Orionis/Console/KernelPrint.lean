import Orionis.Console.Geometry

/-!
# What the kernel's `print` shows

`print` never scrolls, and it looks at the right edge behind a character and not before it.
So a character is seen when the cursor that the terminal has left has room for it, and when
the line breaks so far have not led below the screen.
-/

namespace Orionis.Console

open Orionis.Foundations

variable {d : Display} {t u : Tty} {c : UInt8} {color : ℕ}

/-- The printable characters of ASCII. -/
def Printable (c : UInt8) : Prop := 32 ≤ c ∧ c < 127

instance (c : UInt8) : Decidable (Printable c) := inferInstanceAs (Decidable (_ ∧ _))

/-- The cell at the cursor lies inside the framebuffer. -/
def Tty.Fits (d : Display) (t : Tty) : Prop :=
  t.cursorX + 9 ≤ d.width ∧ t.cursorY + 16 ≤ d.height

instance (d : Display) (t : Tty) : Decidable (t.Fits d) := inferInstanceAs (Decidable (_ ∧ _))

/-- `print` draws the character into the cell at the cursor, all of it on the screen. -/
structure Tty.KernelDraws (d : Display) (t : Tty) (c : UInt8) (color : ℕ) : Prop where
  fits : t.Fits d
  glyph : ∀ a b, d.layout.InCell t.cursor a b → (t.kernelChar d c color).pixel d a b =
    if glyphBit d c (b - t.cursorY) (a - t.cursorX) then u32 color else t.pixel d a b

/-- `print` shows every printable character of the text. -/
def Tty.ShowsAll (d : Display) (t : Tty) (text : List UInt8) (color : ℕ) : Prop :=
  ∀ before c after, text = before ++ c :: after → Printable c →
    ((t.eraseCursor d).kernelChars d before color).KernelDraws d c color

/-! ## The condition -/

/-- Column and number of line breaks behind a character, by the rules of `print`. -/
def place (width : ℕ) (p : ℕ × ℕ) (c : UInt8) : ℕ × ℕ :=
  let p := if c = 10 then (10, p.2 + 1)
    else if c = 8 then (if p.1 > 10 then (p.1 - 9, p.2) else p)
    else (p.1 + 9, p.2)
  if p.1 + 9 > width - 10 then (10, p.2 + 1) else p

/-- The line breaks of a text that is printed from column `x` on. -/
def lineBreaks (width x : ℕ) (text : List UInt8) : ℕ := (text.foldl (place width) (x, 0)).2

/-- There is room for a character the text begins with, and the line breaks before each
printable character lead to a row on the screen. -/
def Tty.HasRoom (d : Display) (t : Tty) (text : List UInt8) : Prop :=
  ∀ before c after, text = before ++ c :: after → Printable c →
    (before = [] → t.cursorX + 9 ≤ d.width) ∧
      u32 (t.cursorY + 18 * lineBreaks d.width t.cursorX before) + 16 ≤ d.height

/-! ## The cursor of `print` -/

/-- The cursor is where so many line breaks lead from a row. -/
structure Tty.Follows (d : Display) (row : ℕ) (t : Tty) (p : ℕ × ℕ) : Prop where
  column : t.cursorX = p.1
  right : p.1 ≤ d.width
  row : t.cursorY = u32 (row + 18 * p.2)

/-- A row is the first one and eighteen for each break, modulo `2 ^ 32`. -/
theorem u32_add_18 (row breaks : ℕ) :
    u32 (u32 (row + 18 * breaks) + 18) = u32 (row + 18 * (breaks + 1)) := by
  unfold u32
  omega

/-- A character moves the cursor by the rules of `place`, and leaves room for the next one. -/
theorem Tty.Follows.kernelChar {row : ℕ} {p : ℕ × ℕ} (h : t.Follows d row p)
    (hwide : 40 ≤ d.width) (c : UInt8) (color : ℕ) :
    (t.kernelChar d c color).Follows d row (place d.width p c) ∧
      (place d.width p c).1 + 19 ≤ d.width := by
  obtain ⟨hcolumn, hright, hrow⟩ := h
  have hwidth := d.width_lt
  -- Behind the character, before the right edge is looked at.
  obtain ⟨q, hq, hx, hlt, hy⟩ : ∃ q : ℕ × ℕ,
      q = (if c = 10 then (10, p.2 + 1) else if c = 8 then (if p.1 > 10 then (p.1 - 9, p.2) else p)
        else (p.1 + 9, p.2)) ∧ (t.kernelPutc d c color).cursorX = q.1 ∧ q.1 ≤ d.width + 9 ∧
        (t.kernelPutc d c color).cursorY = u32 (row + 18 * q.2) := by
    refine ⟨_, rfl, ?_⟩
    rw [Tty.kernelPutc, ← hcolumn]
    split
    · exact ⟨rfl, by dsimp only; omega, by dsimp only; rw [hrow, u32_add_18]⟩
    split
    · split
      · exact ⟨rfl, by dsimp only; omega, hrow⟩
      · exact ⟨hcolumn, by omega, hrow⟩
    · exact ⟨u32_of_lt (by omega), by dsimp only; omega, hrow⟩
  rw [Tty.kernelChar, Tty.kernelWrap, place, ← hq, hx, u32_of_lt (by omega),
    sub32_eq (by omega) (by omega)]
  split
  · exact ⟨⟨rfl, by dsimp only; omega, by dsimp only; rw [hy, u32_add_18]⟩, by dsimp only; omega⟩
  · exact ⟨⟨hx, by omega, hy⟩, by omega⟩

/-- The last character is printed behind the others. -/
theorem Tty.kernelChars_concat (d : Display) (t : Tty) (text : List UInt8) (c : UInt8)
    (color : ℕ) : t.kernelChars d (text ++ [c]) color =
      (t.kernelChars d text color).kernelChar d c color := by
  rw [Tty.kernelChars, List.foldl_append, List.foldl_cons, List.foldl_nil, Tty.kernelChars]

/-- The same for a text. -/
theorem Tty.Follows.kernelChars {row : ℕ} {p : ℕ × ℕ} (h : t.Follows d row p)
    (hwide : 40 ≤ d.width) (text : List UInt8) (color : ℕ) :
    (t.kernelChars d text color).Follows d row (text.foldl (place d.width) p) ∧
      (text ≠ [] → (text.foldl (place d.width) p).1 + 19 ≤ d.width) := by
  induction text using List.reverseRecOn with
  | nil => exact ⟨h, fun hne => absurd rfl hne⟩
  | append_singleton text c ih =>
    rw [Tty.kernelChars_concat, List.foldl_append, List.foldl_cons, List.foldl_nil]
    obtain ⟨hfollows, hroom⟩ := ih.1.kernelChar hwide c color
    exact ⟨hfollows, fun _ => hroom⟩

/-! ## Drawing -/

/-- Where the cell is on the screen, the strokes of the character are drawn into it. -/
theorem Tty.Fits.kernelDraws (h : t.Fits d) (hc : Printable c) (color : ℕ) :
    t.KernelDraws d c color := by
  obtain ⟨hx, hy⟩ := h
  have hwidth := d.width_lt
  have hheight := d.height_lt
  have hc128 : ¬ c ≥ 128 := UInt8.not_le.2 (UInt8.lt_trans hc.2 (by decide))
  have hc10 : c ≠ 10 := fun heq => absurd (heq ▸ hc.1) (by decide)
  have hc8 : c ≠ 8 := fun heq => absurd (heq ▸ hc.1) (by decide)
  have hfb : (t.kernelChar d c color).fb = drawCell d (glyphBit d c) t.fb t.cursorX t.cursorY color := by
    have hputc : (t.kernelPutc d c color).fb =
        drawCell d (glyphBit d c) t.fb t.cursorX t.cursorY color := by
      rw [Tty.kernelPutc, if_neg hc10, if_neg hc8, kernelPutcharAt, if_neg hc128]
    rw [Tty.kernelChar, Tty.kernelWrap, ← hputc]
    split <;> rfl
  refine ⟨⟨hx, hy⟩, fun a b hin => ?_⟩
  have hcell := hin
  simp only [Layout.InCell, Display.layout, Tty.cursor] at hcell
  rw [Tty.pixel, hfb, load_drawCell _ _ (by omega) (by omega) (by omega) (by omega)]
  exact if_congr (and_iff_right hin) rfl rfl

/-! ## Every call of `print` -/

/-- After any calls of the two consoles, `print` shows every printable character of a text
exactly when it has room for the text. -/
theorem Tty.showsAll_iff_hasRoom (hwide : 40 ≤ d.width) (htall : 36 ≤ d.height) (fb : Memory)
    (calls : List Call) (text : List UInt8) (color : ℕ) :
    (Tty.calls d fb calls).ShowsAll d text color ↔ (Tty.calls d fb calls).HasRoom d text := by
  have hgrid := Tty.onGrid_calls (by omega) (by omega : 18 ≤ d.height) fb calls
  generalize Tty.calls d fb calls = t at hgrid
  have hstart : (t.eraseCursor d).Follows d t.cursorY (t.cursorX, 0) :=
    ⟨rfl, hgrid.right, (u32_of_lt hgrid.row).symm⟩
  have hcell : ∀ before : List UInt8, ((t.eraseCursor d).kernelChars d before color).Fits d ↔
      (before = [] → t.cursorX + 9 ≤ d.width) ∧
        u32 (t.cursorY + 18 * lineBreaks d.width t.cursorX before) + 16 ≤ d.height := by
    intro before
    obtain ⟨hfollows, hroom⟩ := hstart.kernelChars hwide before color
    rw [Tty.Fits, hfollows.column, hfollows.row, lineBreaks]
    refine and_congr_left fun _ => ?_
    by_cases hnil : before = []
    · subst hnil
      simp
    · have := hroom hnil
      exact iff_of_true (by omega) fun h => absurd h hnil
  constructor
  · intro hall before c after htext hc
    exact (hcell before).1 (hall before c after htext hc).fits
  · intro hall before c after htext hc
    exact ((hcell before).2 (hall before c after htext hc)).kernelDraws hc color

/-- A screen of two rows. -/
def twoRows : Display where
  width := 40
  height := 36
  pitch := 160
  font := fun _ => 0
  width_lt := by decide
  height_lt := by decide
  pitch_lt := by decide
  rows_fit := by decide

/-- Three characters on a screen of two rows. -/
theorem Tty.showsAll_iff_hasRoom_twoRows :
    let t := Tty.calls twoRows (fun _ => 0) [.print [65, 66, 67] 0xFFFFFF]
    t.ShowsAll twoRows [68] 0xFFFFFF ↔ t.HasRoom twoRows [68] :=
  Tty.showsAll_iff_hasRoom (by decide) (by decide) _ _ _ _

/-- The third row of text is below the screen. -/
theorem Tty.not_showsAll_twoRows :
    ¬ ∀ (d : Display) (fb : Memory) (calls : List Call) (text : List UInt8) (color : ℕ),
      40 ≤ d.width → 36 ≤ d.height → (Tty.calls d fb calls).ShowsAll d text color := by
  intro h
  have hshows := h twoRows (fun _ => 0) [] [10, 10, 65] 0xFFFFFF (by decide) (by decide)
  exact absurd (hshows [10, 10] 65 [] rfl (by decide)).fits (by decide +kernel)

end Orionis.Console
