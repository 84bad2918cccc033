import Orionis.Console.Cells

/-!
# A line on the screen

Typing and erasing keep a line on the screen, glyph by glyph, in the cells behind the
prompt. The cursor stands behind the last cell, or already at the start of the row that the
next cell moves to. A backspace in the second position would have to go back up a row,
which the terminal does not do.
-/

namespace Orionis.Console

open Orionis.Foundations

/-- The terminal after a line was printed in the color of typed characters. -/
def Tty.printLine (d : Display) (t : Tty) (line : List UInt8) : Tty := t.print d line 0xFFFFFF

/-- A line is drawn behind the prompt; elsewhere the pixels are as `outside` allows. -/
structure Shows (d : Display) (prompt : Tty) (outside : ℕ → ℕ → ℕ → Prop) (text : List UInt8)
    (t : Tty) : Prop where
  cursor : t.cursor = d.layout.cursor prompt.cursor text.length ∨
    t.cursor = d.layout.cell prompt.cursor text.length
  bgColor : t.bgColor = prompt.bgColor
  fits : ∀ i < text.length, (d.layout.cell prompt.cursor i).2 + 16 < d.height
  glyph : ∀ i (h : i < text.length) a b, a < d.width → b < d.height →
    d.layout.InCell (d.layout.cell prompt.cursor i) a b →
      t.pixel d a b = glyphPixel d prompt.bgColor text[i] 0xFFFFFF
        (a - (d.layout.cell prompt.cursor i).1) (b - (d.layout.cell prompt.cursor i).2)
  outside : ∀ a b, a < d.width → b < d.height →
    (∀ i < text.length, ¬d.layout.InCell (d.layout.cell prompt.cursor i) a b) →
      outside a b (t.pixel d a b)

/-- The prompt stands on the screen. -/
structure OnScreen (d : Display) (t : Tty) : Prop where
  wide : 28 ≤ d.width
  column : t.cursorX ≤ d.width
  row : t.cursorY < d.height

variable {d : Display} {prompt t : Tty} {outside : ℕ → ℕ → ℕ → Prop} {line : List UInt8}
  {c : UInt8}

/-- A screen with a prompt has room for one cell at least. -/
theorem OnScreen.fits_margin (h : OnScreen d prompt) :
    d.layout.left + d.layout.cellWidth ≤ d.layout.width := by
  have hwide := h.wide
  show 10 + 9 ≤ d.width
  omega

/-- The cursor of a shown line is on the screen or one row below it. -/
theorem Shows.inRange (h : Shows d prompt outside line t) (hon : OnScreen d prompt) :
    t.InRange := by
  have hwidth := d.width_lt
  have hheight := d.height_lt
  have hcursor : (d.layout.cursor prompt.cursor line.length).1 ≤ d.width ∧
      (d.layout.cursor prompt.cursor line.length).2 < d.height := by
    refine ⟨d.layout.cursor_le hon.fits_margin hon.column _, ?_⟩
    have hfits := h.fits
    cases hlen : line.length with
    | zero => exact hon.row
    | succ n =>
      have hlast := hfits n (by omega)
      show (d.layout.cell prompt.cursor n).2 < d.height
      omega
  have hbounds := d.layout.wrap_bounds (d.layout.cursor prompt.cursor line.length)
  have hleft : d.layout.left = 10 := rfl
  have hrow : d.layout.rowHeight = 18 := rfl
  change t.cursor.1 < 2 ^ 31 ∧ t.cursor.2 < 2 ^ 31
  cases h.cursor with
  | inl heq =>
    rw [heq]
    omega
  | inr heq =>
    rw [heq, Layout.cell]
    omega

/-- The next character goes to the cell behind the line. -/
theorem Shows.wrap_cursor (h : Shows d prompt outside line t) (hon : OnScreen d prompt) :
    d.layout.wrap t.cursor = d.layout.cell prompt.cursor line.length := by
  cases h.cursor with
  | inl heq => rw [heq, Layout.cell]
  | inr heq => rw [heq, Layout.cell, d.layout.wrap_wrap hon.fits_margin]

/-- The next character goes to the cell behind the line. -/
theorem Shows.nextCell (h : Shows d prompt outside line t) (hon : OnScreen d prompt) :
    t.nextCell d = d.layout.cell prompt.cursor line.length := by
  rw [Tty.nextCell_eq (h.inRange hon), h.wrap_cursor hon]

/-- Nothing is typed yet. -/
theorem shows_nil (hall : ∀ a b, outside a b (prompt.pixel d a b)) :
    Shows d prompt outside [] prompt where
  cursor := Or.inl rfl
  bgColor := rfl
  fits i h := absurd h (Nat.not_lt_zero i)
  glyph i h := absurd h (Nat.not_lt_zero i)
  outside a b _ _ _ := hall a b

/-- A character is drawn behind the line. -/
theorem Shows.type (h : Shows d prompt outside line t) (hon : OnScreen d prompt) (hc : c ≠ 10)
    (hc' : c ≠ 8) (hscroll : ¬t.Scrolls d) :
    Shows d prompt outside (line ++ [c]) (t.putc d c 0xFFFFFF) := by
  have hr := h.inRange hon
  have hwrap := h.wrap_cursor hon
  have hfit := (Tty.scrolls_iff hr (Nat.zero_lt_of_lt hon.row)).not.1 hscroll
  obtain ⟨hcursor, hbg, hpixel⟩ := Tty.putc_spec 0xFFFFFF hr hc hc' hscroll
  rw [hwrap] at hfit hcursor hpixel
  have hlen : (line ++ [c]).length = line.length + 1 := List.length_append
  have hcases : ∀ {i}, i < (line ++ [c]).length → i < line.length ∨ i = line.length := by
    intro i hi
    omega
  refine ⟨?_, hbg.trans h.bgColor, ?_, ?_, ?_⟩
  · rw [hlen]
    exact Or.inl hcursor
  · intro i hi
    cases hcases hi with
    | inl hlt => exact h.fits i hlt
    | inr heq =>
      subst heq
      omega
  · intro i hi a b ha hb hin
    rw [hpixel a b ha hb]
    cases hcases hi with
    | inl hlt =>
      rw [if_neg (d.layout.not_inCell_of_ne (Nat.ne_of_lt hlt) hin), h.glyph i hlt a b ha hb hin,
        List.getElem_append_left hlt]
    | inr heq =>
      subst heq
      rw [if_pos hin, h.bgColor, List.getElem_concat_length rfl]
  · intro a b ha hb hnone
    rw [hlen] at hnone
    rw [hpixel a b ha hb, if_neg (hnone line.length (Nat.lt_succ_self _))]
    exact h.outside a b ha hb fun i hi => hnone i (Nat.lt_succ_of_lt hi)

/-- A backspace right of the margin takes the last character off the screen. -/
theorem Shows.erase (h : Shows d prompt outside (line ++ [c]) t) (hon : OnScreen d prompt)
    (hcol : t.cursorX > 10)
    (hblank : ∀ i a b, d.layout.InCell (d.layout.cell prompt.cursor i) a b →
      outside a b (u32 prompt.bgColor)) :
    Shows d prompt outside line (t.putc d 8 0xFFFFFF) := by
  have hlen : (line ++ [c]).length = line.length + 1 := List.length_append
  have hbehind : t.cursor = d.layout.behind (d.layout.cell prompt.cursor line.length) := by
    have hcursor := h.cursor
    rw [hlen] at hcursor
    cases hcursor with
    | inl heq => exact heq
    | inr heq =>
      -- a cursor that was moved to the next row stands at the margin
      change t.cursor = d.layout.wrap (d.layout.behind (d.layout.cell _ _)) at heq
      by_cases hgt : d.layout.width <
          (d.layout.behind (d.layout.cell prompt.cursor line.length)).1 + d.layout.cellWidth
      · rw [d.layout.wrap_of_gt hgt] at heq
        have hmargin : t.cursorX = 10 := congrArg Prod.fst heq
        omega
      · rwa [d.layout.wrap_of_le (Nat.le_of_not_lt hgt)] at heq
  have hback : (t.cursorX - 9, t.cursorY) = d.layout.cell prompt.cursor line.length := by
    have hx : t.cursorX = (d.layout.cell prompt.cursor line.length).1 + 9 :=
      congrArg Prod.fst hbehind
    have hy : t.cursorY = (d.layout.cell prompt.cursor line.length).2 := congrArg Prod.snd hbehind
    rw [hx, hy, Nat.add_sub_cancel]
  obtain ⟨hcursor, hbg, hpixel⟩ := Tty.backspace_spec 0xFFFFFF (h.inRange hon) hcol
  rw [hback] at hcursor hpixel
  refine ⟨Or.inr hcursor, hbg.trans h.bgColor, ?_, ?_, ?_⟩
  · intro i hi
    exact h.fits i (by omega)
  · intro i hi a b ha hb hin
    rw [hpixel a b ha hb, if_neg (d.layout.not_inCell_of_ne (Nat.ne_of_lt hi) hin),
      h.glyph i (by omega) a b ha hb hin, List.getElem_append_left hi]
  · intro a b ha hb hnone
    rw [hpixel a b ha hb]
    by_cases hin : d.layout.InCell (d.layout.cell prompt.cursor line.length) a b
    · rw [if_pos hin, h.bgColor]
      exact hblank line.length a b hin
    · rw [if_neg hin]
      apply h.outside a b ha hb
      intro i hi
      by_cases heq : i = line.length
      · rwa [heq]
      · exact hnone i (by omega)

/-! ## Printing a line -/

/-- Printing a line that fits on the screen shows it and changes nothing else. -/
theorem shows_printLine (hon : OnScreen d prompt) (hline : ∀ c ∈ line, c ≠ 10 ∧ c ≠ 8)
    (hfits : ∀ i < line.length, (d.layout.cell prompt.cursor i).2 + 16 < d.height) :
    Shows d prompt (fun a b v => v = prompt.pixel d a b) line (prompt.printLine d line) := by
  induction line using List.reverseRecOn with
  | nil => exact shows_nil fun _ _ => rfl
  | append_singleton line c ih =>
    have hlen : (line ++ [c]).length = line.length + 1 := List.length_append
    have hshown := ih (fun c hc => hline c (List.mem_append_left _ hc)) fun i hi =>
      hfits i (by omega)
    obtain ⟨hc, hc'⟩ := hline c List.mem_concat_self
    have hscroll : ¬(prompt.printLine d line).Scrolls d := by
      rw [Tty.scrolls_iff (hshown.inRange hon) (Nat.zero_lt_of_lt hon.row),
        hshown.wrap_cursor hon]
      exact Nat.not_le_of_lt (hfits line.length (by omega))
    have hprint : prompt.printLine d (line ++ [c]) = (prompt.printLine d line).putc d c 0xFFFFFF :=
      List.foldl_concat _ _ _ _
    rw [hprint]
    exact hshown.type hon hc hc' hscroll

end Orionis.Console
