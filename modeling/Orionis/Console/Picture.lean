import Orionis.Console.Scrolling

/-!
# The picture under a scroll

A character that scrolls moves every row of the framebuffer up by one row of text, padding
included, clears the rows this leaves over and draws its cell there. The move counts bytes,
the clearing words and the drawing pixels; the three agree on every geometry.
-/

namespace Orionis.Console

open Orionis.Foundations

variable {d : Display} {t : Tty} {c : UInt8} {color : ℕ}

/-! ## The property -/

/-- None of the products of `tty_putc` and `put_pixel` exceeds 32 bits. -/
structure Display.NoOverflow (d : Display) : Prop where
  moved : (d.height - 18) * d.pitch < 2 ^ 32
  cleared : 18 * d.pitch < 2 ^ 32
  pixel : ∀ x y, x < d.width → y < d.height → y * (d.pitch / 4) + x < 2 ^ 32

/-- The new character stands at the beginning of the last row of text. Above it the bytes have
moved up by 18 rows, around it there is background, and behind the framebuffer nothing has
changed. -/
structure Tty.MovesPicture (d : Display) (t t' : Tty) : Prop where
  cursor : t'.cursor = (19, d.height - 18)
  moved : ∀ o < (d.height - 18) * d.pitch, t'.fb o = t.fb (o + 18 * d.pitch)
  cleared : ∀ a b, a < d.width → d.height - 18 ≤ b → b < d.height →
    ¬ d.layout.InCell (10, d.height - 18) a b → t'.pixel d a b = u32 t.bgColor
  kept : ∀ o, d.height * d.pitch ≤ o → t'.fb o = t.fb o
  noOverflow : d.NoOverflow

/-! ## The rows above a cell -/

/-- Pixels from row `y` on lie behind the bytes of the rows above. -/
theorem putPixel_of_above (hpitch : 4 ∣ d.pitch) (m : Memory) {x y row o : ℕ} (hrow : row ≤ y)
    (ho : o < row * d.pitch) : putPixel d m x y color o = m o := by
  rw [putPixel]
  split
  · rfl
  · next hin =>
    obtain ⟨hx, hy⟩ := not_or.1 hin
    obtain ⟨w, hw⟩ := hpitch
    have hrows := Nat.mul_le_mul_right d.pitch hrow
    refine storeLE_of_outside _ _ _ _ _ (.inl ?_)
    rw [pixelOffset_eq (not_le.1 hx) (not_le.1 hy), hw, Nat.mul_div_cancel_left w (by omega)]
    have hpixel : 4 * (y * w + x) = y * d.pitch + 4 * x := by
      rw [hw]
      ring
    omega

/-- A character changes nothing above its first row. -/
theorem drawCell_of_above (hpitch : 4 ∣ d.pitch) (shape : ℕ → ℕ → Bool) (m : Memory) {x y o : ℕ}
    (hy : y + 16 ≤ 2 ^ 32) (ho : o < y * d.pitch) : drawCell d shape m x y color o = m o := by
  have hfold : ∀ (step : Memory → ℕ → Memory) (rounds : List ℕ),
      (∀ m, ∀ i ∈ rounds, step m i o = m o) → ∀ m, rounds.foldl step m o = m o := by
    intro step rounds
    induction rounds with
    | nil => exact fun _ _ => rfl
    | cons i rounds ih =>
      intro hstep m
      rw [List.foldl_cons, ih fun m j hj => hstep m j (List.mem_cons_of_mem i hj),
        hstep m i List.mem_cons_self]
  refine hfold _ _ (fun m row hrow => hfold _ _ (fun m col _ => ?_) m) m
  have hrow := List.mem_range.1 hrow
  have hbelow : y ≤ u32 (y + row) := by
    rw [u32_of_lt (by omega)]
    omega
  split
  · exact putPixel_of_above hpitch m hbelow ho
  · rfl

/-- Drawing a character changes no byte of the rows above it. -/
theorem Tty.fb_draw_of_above (hpitch : 4 ∣ d.pitch) (hy : t.cursorY + 16 ≤ 2 ^ 32) {o : ℕ}
    (ho : o < t.cursorY * d.pitch) : (t.draw d c color).fb o = t.fb o :=
  (drawCell_of_above hpitch _ _ hy ho).trans (drawCell_of_above hpitch _ t.fb hy ho)

/-! ## The rows left over -/

/-- A loop that stores one word after the other. -/
theorem loadLE_foldl_words (m : Memory) (base v : ℕ) {n j : ℕ} (hj : j < n) :
    loadLE ((List.range n).foldl (fun m i => storeLE m 4 (base + 4 * i) v) m) 4 (base + 4 * j) =
      u32 v := by
  have hword : ∀ m i, loadLE (storeLE m 4 (base + 4 * i) v) 4 (base + 4 * j) =
      if i = j then u32 v else loadLE m 4 (base + 4 * j) := by
    intro m i
    by_cases hij : i = j
    · rw [if_pos hij, hij, loadLE_storeLE_same]
      rfl
    · rw [if_neg hij]
      exact loadLE_storeLE_of_disjoint _ _ _ _ _ _ (by omega)
  rw [foldl_write (fun m => loadLE m 4 (base + 4 * j)) hword,
    if_pos ⟨j, List.mem_range.2 hj, rfl⟩]

/-- Scrolling leaves background in the last 18 rows of pixels. -/
theorem Tty.pixel_scroll_last (hpitch : 4 ∣ d.pitch) (htall : 18 ≤ d.height) {a b : ℕ}
    (ha : a < d.width) (hlo : d.height - 18 ≤ b) (hhi : b < d.height) :
    (t.scroll d).pixel d a b = u32 t.bgColor := by
  have hfit := d.rows_fit
  obtain ⟨hkept, -⟩ := kept_eq htall
  obtain ⟨w, hw⟩ := hpitch
  -- The pixel is the word `18 * w` words at most behind the bytes that were moved.
  obtain ⟨row, rfl⟩ := Nat.exists_eq_add_of_le hlo
  have hoffset : pixelOffset d a (d.height - 18 + row) =
      (d.height - 18) * d.pitch + 4 * (row * w + a) := by
    rw [pixelOffset_eq ha hhi, hw, Nat.mul_div_cancel_left w (by omega)]
    ring
  have hword : row * w + a < 18 * d.pitch / 4 := by
    have hrows := Nat.mul_le_mul_right w (by omega : row + 1 ≤ 18)
    rw [Nat.succ_mul] at hrows
    have hwords : 18 * d.pitch / 4 = 18 * w := by
      rw [hw, Nat.mul_left_comm, Nat.mul_div_cancel_left _ (by omega)]
    omega
  rw [Tty.pixel, hoffset, Tty.scroll]
  dsimp only
  rw [hkept]
  exact loadLE_foldl_words _ _ _ hword

/-! ## Main result -/

/-- Sizes of 16 bits keep the products within 32 bits. -/
theorem Display.noOverflow (d : Display) : d.NoOverflow := by
  have hwidth := d.width_lt
  have hheight := d.height_lt
  have hpitch := d.pitch_lt
  refine ⟨?_, by omega, fun x y hx hy => ?_⟩
  · calc (d.height - 18) * d.pitch ≤ 2 ^ 16 * (2 ^ 16 - 1) := Nat.mul_le_mul (by omega) (by omega)
      _ < 2 ^ 32 := by decide
  · have hle : y * (d.pitch / 4) ≤ 2 ^ 16 * 2 ^ 14 := Nat.mul_le_mul (by omega) (by omega)
    omega

/-- Wherever the cursor stands, a printable character that scrolls moves the picture up by one
row of text and changes nothing else but its own cell. -/
theorem Tty.movesPicture_of_scrolls (hwide : 19 ≤ d.width) (htall : 18 ≤ d.height)
    (hpitch : 4 ∣ d.pitch) (hscrolls : t.Scrolls d) (hc : Printable c) (color : ℕ) :
    t.MovesPicture d (t.putc d c color) := by
  have hheight := d.height_lt
  have hnewline : c ≠ 10 := by
    rintro rfl
    exact absurd hc (by decide)
  have hbackspace : c ≠ 8 := by
    rintro rfl
    exact absurd hc (by decide)
  have hputc : t.putc d c color = ((t.wrapLine d).scroll d).draw d c color := by
    rw [Tty.putc, if_neg hnewline, if_neg hbackspace, Tty.scrollIfFull]
    exact congrArg (Tty.draw d · c color) (if_pos hscrolls)
  have hwrap : (t.wrapLine d).fb = t.fb ∧ (t.wrapLine d).bgColor = t.bgColor := by
    rw [Tty.wrapLine]
    split <;> exact ⟨rfl, rfl⟩
  have hrow : ((t.wrapLine d).scroll d).cursorY = d.height - 18 := sub32_eq htall (by omega)
  have hmargin : ((t.wrapLine d).scroll d).cursorX = 10 := rfl
  have hcursor : ((t.wrapLine d).scroll d).cursor = (10, d.height - 18) := Prod.ext hmargin hrow
  have hbg : ((t.wrapLine d).scroll d).bgColor = t.bgColor := hwrap.2
  rw [hputc]
  refine ⟨?_, ?_, ?_, ?_, d.noOverflow⟩
  · exact Prod.ext rfl hrow
  · intro o ho
    rw [Tty.fb_draw_of_above hpitch (by omega) (by rwa [hrow]), Tty.fb_scroll htall ho, hwrap.1]
  · intro a b ha hlo hhi hout
    rw [Tty.pixel_draw_of_outside (by omega) (by omega) ha hhi (by rwa [hcursor]),
      Tty.pixel_scroll_last hpitch htall ha hlo hhi, hwrap.2]
  · intro o ho
    rw [← hputc]
    exact (Tty.Step.putc t c color).keepsBehind htall o ho

/-- On a screen of two rows a character at the end of the last one. -/
theorem Tty.movesPicture_of_scrolls_twoRows :
    let t : Tty := ⟨37, 18, 0x1E1E1E, fun i => UInt8.ofNat i⟩
    t.MovesPicture twoRows (t.putc twoRows 65 0xFFFFFF) :=
  Tty.movesPicture_of_scrolls (by decide) (by decide) (by decide) (by decide) (by decide) _

end Orionis.Console
