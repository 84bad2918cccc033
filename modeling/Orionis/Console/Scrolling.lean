import Mathlib.Data.Int.Basic
import Orionis.Console.KernelPrint

/-!
# Scrolling and the lines of a text

A reference terminal writes the same text on a page without end. On the screen every
character is recorded with its line on that page and the row of pixels it stands in, and
scrolling moves it up by 18 rows. The records are what the screen shows; the rows agree with
the lines as long as every scroll finds the cursor exactly one row of text below the screen,
for it always moves the text by one row and then takes the cursor to the last one.
-/

namespace Orionis.Console

open Orionis.Foundations

variable {d : Display} {t : Tty} {c : UInt8} {color : ℕ}

/-! ## The reference terminal -/

/-- The characters that fit into a line. -/
def Display.perLine (d : Display) : ℕ := (d.width - 10) / 9

/-- A full line fits between the margins. -/
theorem Display.perLine_le (d : Display) : 9 * d.perLine ≤ d.width - 10 := by
  rw [Display.perLine]
  omega

/-- Where the reference terminal is: the line, and the characters in it. -/
structure Reference where
  line : ℕ
  used : ℕ
  deriving DecidableEq, Repr

/-- A full line wraps to the next line. -/
def Reference.wrap (d : Display) (r : Reference) : Reference :=
  if r.used = d.perLine then ⟨r.line + 1, 0⟩ else r

/-- A newline starts the next line, every other character goes behind the last one. -/
def Reference.put (d : Display) (r : Reference) (c : UInt8) : Reference :=
  if c = 10 then ⟨r.line + 1, 0⟩ else { r.wrap d with used := (r.wrap d).used + 1 }

/-! ## The screen, character by character -/

/-- A character on the screen: its line in the reference, and its cell. Rows above the screen
are negative. -/
structure Glyph where
  line : ℕ
  c : UInt8
  color : ℕ
  x : ℕ
  y : ℤ
  deriving DecidableEq, Repr

/-- What scrolling does to a character. -/
def Glyph.up (g : Glyph) : Glyph := { g with y := g.y - 18 }

/-- The character is entirely visible. -/
def Glyph.Visible (d : Display) (g : Glyph) : Prop := 0 ≤ g.y ∧ g.y + 16 ≤ d.height

/-- The terminal, the reference terminal, and the characters that have been drawn. -/
structure Page where
  tty : Tty
  ref : Reference
  glyphs : List Glyph

/-- A cleared screen. -/
def Page.cleared (d : Display) (t : Tty) : Page := ⟨t.clear d, ⟨0, 0⟩, []⟩

/-- `tty_putc`, with the characters on the screen: scrolling moves them, and the new one is
drawn at the cursor. -/
def Page.putc (d : Display) (color : ℕ) (p : Page) (c : UInt8) : Page where
  tty := p.tty.putc d c color
  ref := p.ref.put d c
  glyphs :=
    if c = 10 then p.glyphs
    else
      let s := (p.tty.wrapLine d).scrollIfFull d
      (if p.tty.Scrolls d then p.glyphs.map Glyph.up else p.glyphs) ++
        [⟨(p.ref.wrap d).line, c, color, s.cursorX, s.cursorY⟩]

/-- `tty_print` of a text on a cleared screen. -/
def Page.printed (d : Display) (t : Tty) (color : ℕ) (text : List UInt8) : Page :=
  text.foldl (Page.putc d color) (Page.cleared d t)

/-- Between any two characters that are entirely visible there are 18 rows of pixels for each
line. -/
def Aligned (d : Display) (glyphs : List Glyph) : Prop :=
  ∀ g ∈ glyphs, ∀ g' ∈ glyphs, g.Visible d → g'.Visible d →
    g'.y - g.y = 18 * ((g'.line : ℤ) - g.line)

/-- The screen shows the characters that are entirely visible. -/
def Page.Shown (d : Display) (p : Page) : Prop :=
  ∀ g ∈ p.glyphs, g.Visible d → ∀ a b, d.layout.InCell (g.x, g.y.toNat) a b →
    p.tty.pixel d a b = glyphPixel d p.tty.bgColor g.c g.color (a - g.x) (b - g.y.toNat)

/-! ## The condition -/

/-- Where the next character scrolls, the cursor is exactly below the screen, or no
character will stay on the screen. -/
def Page.Good (d : Display) (p : Page) (c : UInt8) : Prop :=
  c ≠ 10 → p.tty.Scrolls d → (p.tty.wrapLine d).cursorY = d.height ∨ ∀ g ∈ p.glyphs, g.y < 18

/-- The row of the cursor is far from the end of 32 bits. -/
def Page.InRange (p : Page) : Prop := p.tty.cursorY + 34 < 2 ^ 32

/-! ## One character -/

/-- The cursor stands behind the characters of its line, the last character drawn is as many
rows of text above it as there are lines between them, and every character was drawn above
the last row of pixels. -/
structure Page.Inv (d : Display) (p : Page) : Prop where
  column : p.tty.cursorX = 10 + 9 * p.ref.used
  used : p.ref.used ≤ d.perLine
  /-- In a line that has begun no character scrolls. -/
  begun : 0 < p.ref.used → p.tty.cursorY + 17 ≤ d.height
  low : ∀ g ∈ p.glyphs, g.y + 17 ≤ d.height
  last : p.glyphs ≠ [] → ∃ g ∈ p.glyphs, 0 ≤ g.y ∧
    (p.tty.cursorY : ℤ) = g.y + 18 * ((p.ref.line : ℤ) - g.line)

variable {p : Page}

/-- The automatic line breaks of screen and reference fall together. -/
theorem Page.Inv.wrap (h : p.Inv d) (hr : p.InRange) (hwide : 19 ≤ d.width) :
    (p.tty.wrapLine d).cursorX = 10 + 9 * (p.ref.wrap d).used ∧
      (p.tty.wrapLine d).cursorY + 18 * p.ref.line =
        p.tty.cursorY + 18 * (p.ref.wrap d).line ∧
      (p.ref.wrap d).used + 1 ≤ d.perLine ∧ (p.tty.wrapLine d).cursorY + 16 < 2 ^ 32 ∧
      (0 < (p.ref.wrap d).used → (p.tty.wrapLine d).cursorY + 17 ≤ d.height) := by
  have hcolumn := h.column
  have hused := h.used
  have hbegun := h.begun
  have hwidth := d.width_lt
  have hper : 9 * d.perLine ≤ d.width - 10 ∧ d.width - 10 < 9 * d.perLine + 9 := by
    rw [Display.perLine]
    omega
  rw [Page.InRange] at hr
  rw [Tty.wrapLine, Reference.wrap, u32_of_lt (by omega)]
  by_cases hfull : p.ref.used = d.perLine
  · rw [if_pos hfull, if_pos (by omega)]
    dsimp only
    rw [u32_of_lt (by omega)]
    exact ⟨rfl, by omega, by omega, by omega, fun hpos => absurd hpos (lt_irrefl 0)⟩
  · rw [if_neg hfull, if_neg (by omega)]
    exact ⟨hcolumn, rfl, by omega, by omega, hbegun⟩

/-- What a character does: it is drawn at the cursor, where the cell ends above the last row
of pixels, and else the page moves up and it begins the last row of text. -/
theorem Page.Inv.putc_cases (h : p.Inv d) (hr : p.InRange) (hwide : 19 ≤ d.width)
    (htall : 36 ≤ d.height) (hc : c ≠ 10) (hc' : c ≠ 8) (color : ℕ) :
    (p.putc d color c).tty.cursorX = (p.putc d color c).ref.used * 9 + 10 ∧
      ((¬ p.tty.Scrolls d ∧ (p.tty.wrapLine d).cursorY + 17 ≤ d.height ∧
          (p.putc d color c).tty = (p.tty.wrapLine d).draw d c color ∧
          (p.putc d color c).tty.cursorY = (p.tty.wrapLine d).cursorY ∧
          (p.putc d color c).glyphs = p.glyphs ++ [⟨(p.ref.wrap d).line, c, color,
            (p.tty.wrapLine d).cursorX, (p.tty.wrapLine d).cursorY⟩]) ∨
        p.tty.Scrolls d ∧ d.height < (p.tty.wrapLine d).cursorY + 17 ∧
          (p.putc d color c).tty = ((p.tty.wrapLine d).scroll d).draw d c color ∧
          (p.putc d color c).tty.cursorY = d.height - 18 ∧
          (p.putc d color c).glyphs = p.glyphs.map Glyph.up ++
            [⟨(p.ref.wrap d).line, c, color, 10, (d.height : ℤ) - 18⟩]) := by
  obtain ⟨hx, -, hroom, hrange, hbegun⟩ := h.wrap hr hwide
  have hwidth := d.width_lt
  have hheight := d.height_lt
  have hper := d.perLine_le
  have hscrolls : p.tty.Scrolls d ↔ d.height < (p.tty.wrapLine d).cursorY + 17 := by
    rw [Tty.Scrolls, Tty.Full, u32_of_lt hrange, sub32_eq (by omega) (by omega)]
    omega
  have hputc : (p.putc d color c).tty =
      ((p.tty.wrapLine d).scrollIfFull d).draw d c color := by
    rw [Page.putc, Tty.putc, if_neg hc, if_neg hc']
  have href : (p.putc d color c).ref.used = (p.ref.wrap d).used + 1 := by
    rw [Page.putc, Reference.put, if_neg hc]
  rw [href]
  by_cases hfull : p.tty.Scrolls d
  · have hscroll : (p.tty.wrapLine d).scrollIfFull d = (p.tty.wrapLine d).scroll d := if_pos hfull
    have hlast : ((p.tty.wrapLine d).scroll d).cursorY = d.height - 18 :=
      sub32_eq (by omega) (by omega)
    have hmargin : ((p.tty.wrapLine d).scroll d).cursorX = 10 := rfl
    have hcursor := (Tty.draw_inside (d := d) (t := (p.tty.wrapLine d).scroll d) (by omega)
      (by omega) c color).1
    rw [hscroll] at hputc
    rw [← hputc, hlast, hmargin] at hcursor
    obtain ⟨hcursorX, hcursorY⟩ := Prod.mk.inj hcursor
    have hbelow := hscrolls.1 hfull
    refine ⟨by omega, .inr ⟨hfull, hbelow, hputc, hcursorY, ?_⟩⟩
    rw [Page.putc, if_neg hc, if_pos hfull, hscroll]
    dsimp only
    rw [hlast, hmargin, Nat.cast_sub (by omega)]
    rfl
  · have hstay : (p.tty.wrapLine d).scrollIfFull d = p.tty.wrapLine d := if_neg hfull
    have hfits : (p.tty.wrapLine d).cursorY + 17 ≤ d.height := not_lt.1 (mt hscrolls.2 hfull)
    have hcursor := (Tty.draw_inside (d := d) (t := p.tty.wrapLine d) (by omega) (by omega)
      c color).1
    rw [hstay] at hputc
    rw [← hputc] at hcursor
    obtain ⟨hcursorX, hcursorY⟩ := Prod.mk.inj hcursor
    refine ⟨by omega, .inl ⟨hfull, hfits, hputc, hcursorY, ?_⟩⟩
    rw [Page.putc, if_neg hc, if_neg hfull, hstay]

/-- A character takes the next cell of its line. -/
theorem Page.putc_ref (hc : c ≠ 10) (color : ℕ) :
    (p.putc d color c).ref = ⟨(p.ref.wrap d).line, (p.ref.wrap d).used + 1⟩ := if_neg hc

/-- A newline moves the cursor and nothing else. -/
theorem Page.putc_newline (hr : p.InRange) (color : ℕ) :
    p.putc d color 10 =
      ⟨{ p.tty with cursorX := 10, cursorY := p.tty.cursorY + 18 }, ⟨p.ref.line + 1, 0⟩,
        p.glyphs⟩ := by
  rw [Page.InRange] at hr
  have hy : u32 (p.tty.cursorY + 18) = p.tty.cursorY + 18 := u32_of_lt (by omega)
  rw [← hy]
  rfl

/-- Every character keeps the invariant. -/
theorem Page.Inv.putc (h : p.Inv d) (hr : p.InRange) (hwide : 19 ≤ d.width)
    (htall : 36 ≤ d.height) (hc : c ≠ 8) (color : ℕ) : (p.putc d color c).Inv d := by
  by_cases hnewline : c = 10
  · subst hnewline
    rw [Page.putc_newline hr]
    refine ⟨rfl, Nat.zero_le _, fun hpos => absurd hpos (lt_irrefl 0), h.low, fun hne => ?_⟩
    obtain ⟨g, hg, hy, hcursor⟩ := h.last hne
    exact ⟨g, hg, hy, by push_cast; omega⟩
  obtain ⟨-, -, hroom, -, -⟩ := h.wrap hr hwide
  obtain ⟨hx, hcase⟩ := h.putc_cases hr hwide htall hnewline hc color
  have href := p.putc_ref (d := d) hnewline color
  have hcolumn : (p.putc d color c).tty.cursorX = 10 + 9 * (p.putc d color c).ref.used := by
    omega
  have hused : (p.putc d color c).ref.used ≤ d.perLine := by
    rw [href]
    exact hroom
  have hline : (p.putc d color c).ref.line = (p.ref.wrap d).line := by rw [href]
  rcases hcase with ⟨-, hfits, -, hy, hglyphs⟩ | ⟨-, -, -, hy, hglyphs⟩
  · refine ⟨hcolumn, hused, fun _ => by omega, ?_, fun _ => ?_⟩
    · intro g hg
      rw [hglyphs] at hg
      rcases List.mem_append.1 hg with hold | hnew
      · exact h.low g hold
      · obtain rfl := List.mem_singleton.1 hnew
        dsimp only
        omega
    · rw [hglyphs, hline, hy]
      exact ⟨_, List.mem_append_right _ (List.mem_singleton_self _), by dsimp only; omega,
        by dsimp only; omega⟩
  · refine ⟨hcolumn, hused, fun _ => by omega, ?_, fun _ => ?_⟩
    · intro g hg
      rw [hglyphs] at hg
      rcases List.mem_append.1 hg with hold | hnew
      · obtain ⟨g', hg', rfl⟩ := List.mem_map.1 hold
        have hlow := h.low g' hg'
        dsimp only [Glyph.up]
        omega
      · obtain rfl := List.mem_singleton.1 hnew
        dsimp only
        omega
    · rw [hglyphs, hline, hy]
      exact ⟨_, List.mem_append_right _ (List.mem_singleton_self _), by dsimp only; omega,
        by dsimp only; omega⟩

/-! ## Alignment -/

/-- One more visible character is aligned with all when it is aligned with the visible ones. -/
theorem aligned_append_iff {glyphs : List Glyph} {new : Glyph} (h : Aligned d glyphs)
    (hnew : new.Visible d) :
    Aligned d (glyphs ++ [new]) ↔
      ∀ g ∈ glyphs, g.Visible d → new.y - g.y = 18 * ((new.line : ℤ) - g.line) := by
  have hmem : new ∈ glyphs ++ [new] := List.mem_append_right _ (List.mem_singleton_self _)
  constructor
  · intro hall g hg hvisible
    exact hall g (List.mem_append_left _ hg) new hmem hvisible hnew
  · intro hall g hg g' hg' hvisible hvisible'
    rcases List.mem_append.1 hg with hold | hlast <;>
      rcases List.mem_append.1 hg' with hold' | hlast'
    · exact h g hold g' hold' hvisible hvisible'
    · obtain rfl := List.mem_singleton.1 hlast'
      exact hall g hold hvisible
    · obtain rfl := List.mem_singleton.1 hlast
      have := hall g' hold' hvisible'
      omega
    · obtain rfl := List.mem_singleton.1 hlast
      obtain rfl := List.mem_singleton.1 hlast'
      omega

/-- A character that is still visible after scrolling was visible before. -/
theorem Glyph.Visible.of_up {g : Glyph} (h : g.up.Visible d) (hlow : g.y + 17 ≤ d.height) :
    18 ≤ g.y ∧ g.Visible d := by
  have hup : 0 ≤ g.y - 18 := h.1
  exact ⟨by omega, by omega, by omega⟩

/-- Scrolling keeps characters aligned with each other. -/
theorem Aligned.map_up {glyphs : List Glyph} (h : Aligned d glyphs)
    (hlow : ∀ g ∈ glyphs, g.y + 17 ≤ d.height) : Aligned d (glyphs.map Glyph.up) := by
  intro g hg g' hg' hvisible hvisible'
  obtain ⟨k, hk, rfl⟩ := List.mem_map.1 hg
  obtain ⟨k', hk', rfl⟩ := List.mem_map.1 hg'
  have hapart := h k hk k' hk' (hvisible.of_up (hlow k hk)).2 (hvisible'.of_up (hlow k' hk')).2
  dsimp only [Glyph.up]
  omega

/-- Where the characters are aligned, they are aligned with the cursor. -/
theorem Page.Inv.cursor_aligned (h : p.Inv d) (ha : Aligned d p.glyphs) {g : Glyph}
    (hg : g ∈ p.glyphs) (hvisible : g.Visible d) :
    (p.tty.cursorY : ℤ) = g.y + 18 * ((p.ref.line : ℤ) - g.line) := by
  obtain ⟨l, hl, hy, hcursor⟩ := h.last (List.ne_nil_of_mem hg)
  have hlow := h.low l hl
  have hapart := ha g hg l hl hvisible ⟨hy, by omega⟩
  omega

/-- A character leaves the characters aligned exactly when it is drawn in good order. -/
theorem Page.Inv.aligned_putc_iff (h : p.Inv d) (hr : p.InRange) (ha : Aligned d p.glyphs)
    (hwide : 19 ≤ d.width) (htall : 36 ≤ d.height) (hc : c ≠ 8) (color : ℕ) :
    Aligned d (p.putc d color c).glyphs ↔ p.Good d c := by
  by_cases hnewline : c = 10
  · subst hnewline
    rw [Page.putc_newline hr]
    exact iff_of_true ha fun hne => absurd rfl hne
  obtain ⟨-, hline, -⟩ := h.wrap hr hwide
  obtain ⟨-, hcase⟩ := h.putc_cases hr hwide htall hnewline hc color
  rcases hcase with ⟨hstay, hfits, -, -, hglyphs⟩ | ⟨hscrolls, hfull, -, -, hglyphs⟩
  · rw [hglyphs, aligned_append_iff ha ⟨by dsimp only; omega, by dsimp only; omega⟩]
    refine iff_of_true (fun g hg hvisible => ?_) fun _ hscrolls => absurd hscrolls hstay
    have hcursor := h.cursor_aligned ha hg hvisible
    dsimp only
    omega
  · rw [hglyphs, aligned_append_iff (ha.map_up h.low) ⟨by dsimp only; omega, by dsimp only; omega⟩]
    -- Against a character that stays, the new one stands right when the cursor was below the
    -- screen by exactly one row of text.
    have hone : ∀ g ∈ p.glyphs, g.Visible d →
        (((d.height : ℤ) - 18) - g.up.y = 18 * (((p.ref.wrap d).line : ℤ) - g.up.line) ↔
          (p.tty.wrapLine d).cursorY = d.height) := by
      intro g hg hvisible
      have hcursor := h.cursor_aligned ha hg hvisible
      dsimp only [Glyph.up]
      omega
    constructor
    · intro hall _ _
      refine or_iff_not_imp_left.2 fun hy g hg => lt_of_not_ge fun hge => hy ?_
      have hlow := h.low g hg
      have hvisible : g.up.Visible d :=
        ⟨by dsimp only [Glyph.up]; omega, by dsimp only [Glyph.up]; omega⟩
      exact (hone g hg ⟨by omega, by omega⟩).1 (hall g.up (List.mem_map_of_mem hg) hvisible)
    · intro hgood g' hg' hvisible
      obtain ⟨g, hg, rfl⟩ := List.mem_map.1 hg'
      obtain ⟨hge, hbefore⟩ := hvisible.of_up (h.low g hg)
      refine (hone g hg hbefore).2 ((hgood hnewline hscrolls).resolve_right fun hnone => ?_)
      exact absurd (hnone g hg) (not_lt.2 hge)

/-! ## Pixels -/

/-- Scrolling moves the bytes of the framebuffer by 18 rows. -/
theorem Tty.fb_scroll (htall : 18 ≤ d.height) {o : ℕ} (ho : o < (d.height - 18) * d.pitch) :
    (t.scroll d).fb o = t.fb (o + 18 * d.pitch) := by
  obtain ⟨hkept, -⟩ := kept_eq htall
  have hclear : ∀ (rounds : List ℕ) (m : Memory), rounds.foldl
      (fun m i => storeLE m 4 ((d.height - 18) * d.pitch + 4 * i) t.bgColor) m o = m o := by
    intro rounds
    induction rounds with
    | nil => exact fun _ => rfl
    | cons i rounds ih =>
      intro m
      rw [List.foldl_cons, ih, storeLE_of_outside _ _ _ _ _ (by omega)]
  rw [Tty.scroll]
  dsimp only
  rw [hkept, hclear]
  have hmove := memmove_apply t.fb 0 (18 * d.pitch) ho
  rwa [Nat.zero_add, Nat.add_comm (18 * d.pitch)] at hmove

/-- Scrolling moves the picture up by 18 rows. -/
theorem Tty.pixel_scroll (hpitch : 4 ∣ d.pitch) {a b : ℕ} (ha : a < d.width)
    (hb : b + 18 < d.height) : (t.scroll d).pixel d a b = t.pixel d a (b + 18) := by
  have hfit := d.rows_fit
  have hoffset : pixelOffset d a (b + 18) = 18 * d.pitch + pixelOffset d a b ∧
      pixelOffset d a b = b * d.pitch + 4 * a := by
    obtain ⟨w, hw⟩ := hpitch
    rw [pixelOffset_eq ha hb, pixelOffset_eq ha (by omega), hw, Nat.mul_div_cancel_left w (by omega)]
    constructor <;> ring
  have hbelow : pixelOffset d a b + 4 ≤ (d.height - 18) * d.pitch := by
    have hrows := Nat.mul_le_mul_right d.pitch (by omega : b + 1 ≤ d.height - 18)
    rw [Nat.succ_mul] at hrows
    omega
  rw [Tty.pixel, Tty.pixel, hoffset.1]
  refine loadLE_shift fun i hi => ?_
  rw [Tty.fb_scroll (by omega) (by omega), Nat.add_comm, Nat.add_assoc]

/-- Every character stands above the cursor or left of it. -/
def Page.Behind (d : Display) (p : Page) : Prop :=
  ∀ g ∈ p.glyphs, g.x + 9 ≤ d.width ∧
    (g.y + 17 ≤ p.tty.cursorY ∨ g.y = p.tty.cursorY ∧ g.x + 9 ≤ p.tty.cursorX)

/-- The automatic line break leads further away. -/
theorem Page.Behind.wrapLine (h : p.Behind d) (hr : p.InRange) {g : Glyph} (hg : g ∈ p.glyphs) :
    g.y + 17 ≤ (p.tty.wrapLine d).cursorY ∨
      g.y = (p.tty.wrapLine d).cursorY ∧ g.x + 9 ≤ (p.tty.wrapLine d).cursorX := by
  obtain ⟨-, hg⟩ := h g hg
  rw [Page.InRange] at hr
  rw [Tty.wrapLine]
  split
  · refine .inl ?_
    dsimp only
    rw [u32_of_lt (by omega)]
    omega
  · exact hg

/-- After a character all of them still stand behind the cursor. -/
theorem Page.Behind.putc (hbehind : p.Behind d) (h : p.Inv d) (hr : p.InRange)
    (hwide : 19 ≤ d.width) (htall : 36 ≤ d.height) (hc : c ≠ 8) (color : ℕ) :
    (p.putc d color c).Behind d := by
  by_cases hnewline : c = 10
  · subst hnewline
    rw [Page.putc_newline hr]
    intro g hg
    obtain ⟨hx, hrow⟩ := hbehind g hg
    exact ⟨hx, .inl (by push_cast; omega)⟩
  obtain ⟨hwrapX, -, hroom, -, -⟩ := h.wrap hr hwide
  obtain ⟨hx, hcase⟩ := h.putc_cases hr hwide htall hnewline hc color
  have href := p.putc_ref (d := d) hnewline color
  have hper := d.perLine_le
  rw [href] at hx
  dsimp only at hx
  intro g hg
  rcases hcase with ⟨-, -, -, hy, hglyphs⟩ | ⟨-, -, -, hy, hglyphs⟩
  · rw [hglyphs] at hg
    rcases List.mem_append.1 hg with hold | hnew
    · have hrow := hbehind.wrapLine hr hold
      exact ⟨(hbehind g hold).1, by omega⟩
    · obtain rfl := List.mem_singleton.1 hnew
      exact ⟨by dsimp only; omega, .inr ⟨by dsimp only; omega, by dsimp only; omega⟩⟩
  · rw [hglyphs] at hg
    rcases List.mem_append.1 hg with hold | hnew
    · obtain ⟨k, hk, rfl⟩ := List.mem_map.1 hold
      have hlow := h.low k hk
      exact ⟨(hbehind k hk).1, .inl (by dsimp only [Glyph.up]; omega)⟩
    · obtain rfl := List.mem_singleton.1 hnew
      exact ⟨by dsimp only; omega, .inr ⟨by dsimp only; omega, by dsimp only; omega⟩⟩

/-- A character that is drawn on the screen leaves the cells of the others as they were. -/
theorem Tty.pixel_draw_of_outside (hx : t.cursorX + 9 ≤ d.width) (hy : t.cursorY + 16 ≤ d.height)
    {a b : ℕ} (ha : a < d.width) (hb : b < d.height) (h : ¬ d.layout.InCell t.cursor a b) :
    (t.draw d c color).pixel d a b = t.pixel d a b := by
  have hwidth := d.width_lt
  have hheight := d.height_lt
  rw [Tty.pixel_draw ⟨by omega, by omega⟩ ha hb, if_neg h]

/-- Drawing keeps the background colour. -/
theorem Tty.draw_bgColor (d : Display) (t : Tty) (c : UInt8) (color : ℕ) :
    (t.draw d c color).bgColor = t.bgColor := rfl

/-- Wrapping keeps the background colour. -/
theorem Tty.wrapLine_bgColor (d : Display) (t : Tty) : (t.wrapLine d).bgColor = t.bgColor := by
  rw [Tty.wrapLine]
  split <;> rfl

/-- Wrapping draws nothing. -/
theorem Tty.pixel_wrapLine (d : Display) (t : Tty) (a b : ℕ) :
    (t.wrapLine d).pixel d a b = t.pixel d a b := by
  rw [Tty.wrapLine]
  split <;> rfl

/-- What is on the screen stays on the screen, until it is scrolled away. -/
theorem Page.Shown.putc (hshown : p.Shown d) (hbehind : p.Behind d) (h : p.Inv d)
    (hr : p.InRange) (hpitch : 4 ∣ d.pitch) (hwide : 19 ≤ d.width) (htall : 36 ≤ d.height)
    (hc : c ≠ 8) (color : ℕ) : (p.putc d color c).Shown d := by
  by_cases hnewline : c = 10
  · subst hnewline
    rw [Page.putc_newline hr]
    exact hshown
  obtain ⟨hwrapX, -, hroom, -, -⟩ := h.wrap hr hwide
  have hper := d.perLine_le
  obtain ⟨-, hcase⟩ := h.putc_cases hr hwide htall hnewline hc color
  intro g hg hvisible a b hin
  have hcell := hin
  simp only [Layout.InCell, Display.layout] at hcell
  rcases hcase with ⟨-, hfits, htty, -, hglyphs⟩ | ⟨-, -, htty, -, hglyphs⟩
  · have hx : (p.tty.wrapLine d).cursorX + 9 ≤ d.width := by omega
    have hy : (p.tty.wrapLine d).cursorY + 16 ≤ d.height := by omega
    rw [htty, Tty.draw_bgColor, Tty.wrapLine_bgColor]
    rw [hglyphs] at hg
    rcases List.mem_append.1 hg with hold | hnew
    · have hrow := hbehind.wrapLine hr hold
      have hright := (hbehind g hold).1
      obtain ⟨hpos, hbottom⟩ := hvisible
      rw [Tty.pixel_draw_of_outside hx hy (by omega) (by omega), Tty.pixel_wrapLine,
        hshown g hold ⟨hpos, hbottom⟩ a b hin]
      simp only [Layout.InCell, Display.layout, Tty.cursor]
      omega
    · obtain rfl := List.mem_singleton.1 hnew
      dsimp only [Int.toNat_natCast] at hin ⊢
      rw [(Tty.draw_inside hx hy c color).2 a b hin, Tty.wrapLine_bgColor]
  · have hlast : ((p.tty.wrapLine d).scroll d).cursorY = d.height - 18 :=
      sub32_eq (by omega) (by have := d.height_lt; omega)
    have hmargin : ((p.tty.wrapLine d).scroll d).cursorX = 10 := rfl
    have hbg : ((p.tty.wrapLine d).scroll d).bgColor = p.tty.bgColor :=
      Tty.wrapLine_bgColor d p.tty
    have hx : ((p.tty.wrapLine d).scroll d).cursorX + 9 ≤ d.width := by omega
    have hy : ((p.tty.wrapLine d).scroll d).cursorY + 16 ≤ d.height := by omega
    rw [htty, Tty.draw_bgColor, hbg]
    rw [hglyphs] at hg
    rcases List.mem_append.1 hg with hold | hnew
    · obtain ⟨k, hk, rfl⟩ := List.mem_map.1 hold
      have hlow := h.low k hk
      have hright := (hbehind k hk).1
      obtain ⟨hge, hbefore⟩ := hvisible.of_up hlow
      dsimp only [Glyph.up] at hcell ⊢
      have hshift : b + 18 - k.y.toNat = b - (k.y - 18).toNat := by omega
      rw [Tty.pixel_draw_of_outside hx hy (by omega) (by omega),
        Tty.pixel_scroll hpitch (by omega) (by omega), Tty.pixel_wrapLine,
        hshown k hk hbefore a (b + 18), hshift]
      · simp only [Layout.InCell, Display.layout]
        omega
      · simp only [Layout.InCell, Display.layout, Tty.cursor]
        omega
    · obtain rfl := List.mem_singleton.1 hnew
      have hrow : ((d.height : ℤ) - 18).toNat = d.height - 18 := by omega
      have hpixel := (Tty.draw_inside hx hy c color).2 a b
      rw [Tty.cursor, hlast, hmargin, hbg] at hpixel
      dsimp only at hin ⊢
      rw [hrow] at hin ⊢
      exact hpixel hin

/-! ## A whole text -/

/-- The last character is printed behind the others. -/
theorem Page.printed_concat (d : Display) (t : Tty) (color : ℕ) (text : List UInt8) (c : UInt8) :
    Page.printed d t color (text ++ [c]) = (Page.printed d t color text).putc d color c := by
  rw [Page.printed, List.foldl_append, List.foldl_cons, List.foldl_nil, Page.printed]

/-- The terminal of the page is the one `tty_print` leaves. -/
theorem Page.printed_tty (d : Display) (t : Tty) (color : ℕ) (text : List UInt8) :
    (Page.printed d t color text).tty = (t.clear d).print d text color := by
  induction text using List.reverseRecOn with
  | nil => rfl
  | append_singleton text c ih =>
    rw [Page.printed_concat, Page.putc, ih, Tty.print, Tty.print, List.foldl_append,
      List.foldl_cons, List.foldl_nil]

/-- Newlines and printable characters. -/
def Plain (text : List UInt8) : Prop := ∀ c ∈ text, c = 10 ∨ Printable c

instance (text : List UInt8) : Decidable (Plain text) :=
  List.decidableBAll (fun c => c = 10 ∨ Printable c) text

/-- A plain text has no backspace. -/
theorem Plain.ne_backspace {text : List UInt8} (h : Plain text) (hc : c ∈ text) : c ≠ 8 := by
  rintro rfl
  exact absurd (h 8 hc) (by decide)

/-- No character of the text takes the cursor near the end of 32 bits. -/
def StaysInRange (d : Display) (t : Tty) (color : ℕ) (text : List UInt8) : Prop :=
  ∀ before c, before ++ [c] <+: text → (Page.printed d t color before).InRange

/-- Every character is drawn in good order. -/
def AllGood (d : Display) (t : Tty) (color : ℕ) (text : List UInt8) : Prop :=
  ∀ before c, before ++ [c] <+: text → (Page.printed d t color before).Good d c

/-- The characters on the screen are aligned while the text is being printed. -/
def AllAligned (d : Display) (t : Tty) (color : ℕ) (text : List UInt8) : Prop :=
  ∀ before, before <+: text → Aligned d (Page.printed d t color before).glyphs

/-- A text is in range when its beginning is and the last character is. -/
theorem StaysInRange.concat {text : List UInt8} (h : StaysInRange d t color (text ++ [c])) :
    StaysInRange d t color text ∧ (Page.printed d t color text).InRange :=
  ⟨fun before c' hbefore => h before c' (hbefore.trans (List.prefix_append _ _)),
    h text c (List.prefix_rfl)⟩

/-- All characters are good when those before the last one are, and it is. -/
theorem allGood_concat {text : List UInt8} : AllGood d t color (text ++ [c]) ↔
    AllGood d t color text ∧ (Page.printed d t color text).Good d c := by
  constructor
  · intro h
    exact ⟨fun before c' hbefore => h before c' (hbefore.trans (List.prefix_append _ _)),
      h text c List.prefix_rfl⟩
  · rintro ⟨hall, hlast⟩ before c' hbefore
    rcases List.prefix_concat_iff.1 hbefore with heq | hprefix
    · obtain ⟨rfl, hc⟩ := List.append_inj' heq rfl
      obtain rfl := (List.cons.inj hc).1
      exact hlast
    · exact hall before c' hprefix

/-- All prefixes are aligned when those before the last character are, and the whole is. -/
theorem allAligned_concat {text : List UInt8} : AllAligned d t color (text ++ [c]) ↔
    AllAligned d t color text ∧ Aligned d (Page.printed d t color (text ++ [c])).glyphs := by
  constructor
  · intro h
    exact ⟨fun before hbefore => h before (hbefore.trans (List.prefix_append _ _)),
      h _ List.prefix_rfl⟩
  · rintro ⟨hall, hlast⟩ before hbefore
    rcases List.prefix_concat_iff.1 hbefore with rfl | hprefix
    · exact hlast
    · exact hall before hprefix

/-- What holds of the page while a text is printed. -/
theorem Page.printed_inv (hwide : 19 ≤ d.width) (htall : 36 ≤ d.height) {text : List UInt8}
    (hplain : Plain text) (hrange : StaysInRange d t color text) :
    (Page.printed d t color text).Inv d ∧ (Page.printed d t color text).Behind d ∧
      (4 ∣ d.pitch → (Page.printed d t color text).Shown d) := by
  induction text using List.reverseRecOn with
  | nil =>
    refine ⟨⟨rfl, Nat.zero_le _, fun hpos => absurd hpos (lt_irrefl 0), ?_, ?_⟩, ?_, fun _ => ?_⟩
    · exact fun g hg => absurd hg List.not_mem_nil
    · exact fun hne => absurd rfl hne
    · exact fun g hg => absurd hg List.not_mem_nil
    · exact fun g hg => absurd hg List.not_mem_nil
  | append_singleton text c ih =>
    obtain ⟨hbefore, hlast⟩ := hrange.concat
    obtain ⟨hinv, hbehind, hshown⟩ :=
      ih (fun c' hc' => hplain c' (List.mem_append_left _ hc')) hbefore
    have hc := hplain.ne_backspace (List.mem_append_right _ (List.mem_singleton_self c))
    rw [Page.printed_concat]
    exact ⟨hinv.putc hlast hwide htall hc color, hbehind.putc hinv hlast hwide htall hc color,
      fun hpitch => (hshown hpitch).putc hbehind hinv hlast hpitch hwide htall hc color⟩

/-- A character takes the cursor down by 18 rows at most. -/
theorem Page.Inv.cursorY_putc_le (h : p.Inv d) (hr : p.InRange) (hwide : 19 ≤ d.width)
    (htall : 36 ≤ d.height) (hc : c ≠ 8) (color : ℕ) :
    (p.putc d color c).tty.cursorY ≤ p.tty.cursorY + 18 := by
  by_cases hnewline : c = 10
  · subst hnewline
    rw [Page.putc_newline hr]
  have hwrap : (p.tty.wrapLine d).cursorY ≤ p.tty.cursorY + 18 := by
    rw [Tty.wrapLine]
    split
    · exact Nat.mod_le _ _
    · omega
  obtain ⟨-, ⟨-, -, -, hy, -⟩ | ⟨-, hfull, -, hy, -⟩⟩ :=
    h.putc_cases hr hwide htall hnewline hc color
  · omega
  · omega

/-- Texts of less than 238 million characters stay in range. -/
theorem staysInRange_of_length (hwide : 19 ≤ d.width) (htall : 36 ≤ d.height)
    {text : List UInt8} (hplain : Plain text) (hlength : text.length < 238000000) :
    StaysInRange d t color text ∧ (Page.printed d t color text).tty.cursorY ≤ 18 * text.length := by
  induction text using List.reverseRecOn with
  | nil =>
    refine ⟨fun before c hbefore => ?_, Nat.le_refl 0⟩
    exact absurd (List.prefix_nil.1 hbefore) (List.append_ne_nil_of_right_ne_nil _ (by simp))
  | append_singleton text c ih =>
    rw [List.length_append, List.length_singleton] at hlength ⊢
    have hplain' : Plain text := fun c' hc' => hplain c' (List.mem_append_left _ hc')
    obtain ⟨hrange, hle⟩ := ih hplain' (by omega)
    have hlast : (Page.printed d t color text).InRange := by
      rw [Page.InRange]
      omega
    have hc := hplain.ne_backspace (List.mem_append_right _ (List.mem_singleton_self c))
    obtain ⟨hinv, -, -⟩ := Page.printed_inv hwide htall hplain' hrange
    constructor
    · intro before c' hbefore
      rcases List.prefix_concat_iff.1 hbefore with heq | hprefix
      · obtain ⟨rfl, -⟩ := List.append_inj' heq rfl
        exact hlast
      · exact hrange before c' hprefix
    · rw [Page.printed_concat]
      have := hinv.cursorY_putc_le hlast hwide htall hc color
      omega

/-- While `tty_print` prints a text on a cleared screen, the screen shows the recorded
characters, and their rows agree with the lines of the reference terminal exactly when every
character that scrolls does so in good order. -/
theorem allAligned_iff_allGood (hwide : 19 ≤ d.width) (htall : 36 ≤ d.height)
    {text : List UInt8} (hplain : Plain text) (hrange : StaysInRange d t color text) :
    (Page.printed d t color text).tty = (t.clear d).print d text color ∧
      (4 ∣ d.pitch → (Page.printed d t color text).Shown d) ∧
        (AllAligned d t color text ↔ AllGood d t color text) := by
  refine ⟨Page.printed_tty d t color text, (Page.printed_inv hwide htall hplain hrange).2.2, ?_⟩
  induction text using List.reverseRecOn with
  | nil =>
    refine iff_of_true (fun before hbefore => ?_) fun before c hbefore => ?_
    · obtain rfl := List.prefix_nil.1 hbefore
      exact fun g hg => absurd hg List.not_mem_nil
    · exact absurd (List.prefix_nil.1 hbefore) (List.append_ne_nil_of_right_ne_nil _ (by simp))
  | append_singleton text c ih =>
    obtain ⟨hbefore, hlast⟩ := hrange.concat
    have hplain' : Plain text := fun c' hc' => hplain c' (List.mem_append_left _ hc')
    have hc := hplain.ne_backspace (List.mem_append_right _ (List.mem_singleton_self c))
    obtain ⟨hinv, -, -⟩ := Page.printed_inv hwide htall hplain' hbefore
    rw [allAligned_concat, allGood_concat, ih hplain' hbefore, Page.printed_concat]
    refine and_congr_right fun hgood => ?_
    have haligned := (ih hplain' hbefore).2 hgood text List.prefix_rfl
    exact hinv.aligned_putc_iff hlast haligned hwide htall hc color

/-- Two lines of text on a screen of two rows: the third row scrolls in good order. -/
theorem allAligned_iff_allGood_twoRows :
    let t : Tty := ⟨10, 0, 0, fun _ => 0⟩
    let text : List UInt8 := [10, 65, 10, 66]
    (Page.printed twoRows t 0xFFFFFF text).tty = (t.clear twoRows).print twoRows text 0xFFFFFF ∧
      (4 ∣ twoRows.pitch → (Page.printed twoRows t 0xFFFFFF text).Shown twoRows) ∧
        (AllAligned twoRows t 0xFFFFFF text ↔ AllGood twoRows t 0xFFFFFF text) :=
  have hplain : Plain [10, 65, 10, 66] := by decide
  allAligned_iff_allGood (by decide) (by decide) hplain
    (staysInRange_of_length (by decide) (by decide) hplain (by decide)).1

/-- An empty line between two lines is swallowed when the second one scrolls. -/
theorem not_aligned_twoRows :
    ¬ ∀ (d : Display) (t : Tty) (color : ℕ) (text : List UInt8), 19 ≤ d.width → 36 ≤ d.height →
      Plain text → Aligned d (Page.printed d t color text).glyphs := by
  intro h
  have haligned := h twoRows ⟨10, 0, 0, fun _ => 0⟩ 0 [10, 65, 10, 10, 66] (by decide) (by decide)
    (by decide)
  have hglyphs : (Page.printed twoRows ⟨10, 0, 0, fun _ => 0⟩ 0 [10, 65, 10, 10, 66]).glyphs =
      [⟨1, 65, 0, 10, 0⟩, ⟨3, 66, 0, 10, 18⟩] := by decide +kernel
  rw [hglyphs] at haligned
  have hapart := haligned ⟨1, 65, 0, 10, 0⟩ (by simp) ⟨3, 66, 0, 10, 18⟩ (by simp)
    ⟨by decide, by decide⟩ ⟨by decide, by decide⟩
  exact absurd hapart (by decide)

end Orionis.Console
