import Mathlib.Data.List.Basic
import Mathlib.Data.Nat.Basic

/-!
# Text in fixed cells

Characters are drawn one behind the other into cells of a fixed size. A cell that would
cross the right edge is moved to the start of the next row instead. The cells of a text do
not overlap, wherever it starts and however long it is.
-/

namespace Orionis.Foundations

/-- The measures of a text screen; the cells of two rows do not meet. -/
structure Layout where
  left : ℕ
  width : ℕ
  cellWidth : ℕ
  cellHeight : ℕ
  rowHeight : ℕ
  rows_apart : cellHeight ≤ rowHeight

namespace Layout

variable (l : Layout) {start p : ℕ × ℕ} {a b i j n : ℕ}

/-- Where a character is drawn with the cursor at `p`. -/
def wrap (p : ℕ × ℕ) : ℕ × ℕ :=
  if p.1 + l.cellWidth > l.width then (l.left, p.2 + l.rowHeight) else p

/-- The cursor behind a cell. -/
def behind (p : ℕ × ℕ) : ℕ × ℕ := (p.1 + l.cellWidth, p.2)

/-- The cursor after `n` characters from `start` on. -/
def cursor (start : ℕ × ℕ) : ℕ → ℕ × ℕ
  | 0 => start
  | n + 1 => l.behind (l.wrap (cursor start n))

/-- The cell of the `n`-th character. -/
def cell (start : ℕ × ℕ) (n : ℕ) : ℕ × ℕ := l.wrap (l.cursor start n)

/-- The points of the cell at `p`. -/
def InCell (p : ℕ × ℕ) (a b : ℕ) : Prop :=
  p.1 ≤ a ∧ a < p.1 + l.cellWidth ∧ p.2 ≤ b ∧ b < p.2 + l.cellHeight

instance : Decidable (l.InCell p a b) := inferInstanceAs (Decidable (_ ∧ _))

/-- Where a cell fits, there is no line break. -/
theorem wrap_of_le (h : p.1 + l.cellWidth ≤ l.width) : l.wrap p = p := if_neg (by omega)

/-- Where it does not, the next line begins. -/
theorem wrap_of_gt (h : l.width < p.1 + l.cellWidth) :
    l.wrap p = (l.left, p.2 + l.rowHeight) := if_pos h

/-- A line break goes back to the margin and one row down. -/
theorem wrap_bounds (p : ℕ × ℕ) :
    (l.wrap p).1 ≤ max l.left p.1 ∧ (l.wrap p).2 ≤ p.2 + l.rowHeight := by
  unfold wrap
  split
  · exact ⟨Nat.le_max_left _ _, Nat.le_refl _⟩
  · exact ⟨Nat.le_max_right _ _, Nat.le_add_right _ _⟩

/-- Cells end at the right edge. -/
theorem wrap_le (hwide : l.left + l.cellWidth ≤ l.width) :
    (l.wrap p).1 + l.cellWidth ≤ l.width := by
  by_cases h : p.1 + l.cellWidth ≤ l.width
  · rw [l.wrap_of_le h]
    exact h
  · rw [l.wrap_of_gt (by omega)]
    exact hwide

/-- A cell that was moved is not moved again. -/
theorem wrap_wrap (hwide : l.left + l.cellWidth ≤ l.width) : l.wrap (l.wrap p) = l.wrap p :=
  l.wrap_of_le (l.wrap_le hwide)

/-- The cursor stays within the width. -/
theorem cursor_le (hwide : l.left + l.cellWidth ≤ l.width) (hstart : start.1 ≤ l.width) (n : ℕ) :
    (l.cursor start n).1 ≤ l.width := by
  cases n with
  | zero => exact hstart
  | succ n => exact l.wrap_le hwide

/-- One cell stands left of another in the same row, or in a row above. -/
def Precedes (p q : ℕ × ℕ) : Prop :=
  p.2 = q.2 ∧ p.1 + l.cellWidth ≤ q.1 ∨ p.2 + l.rowHeight ≤ q.2

variable {l} {q r : ℕ × ℕ}

/-- The order of cells is transitive. -/
theorem Precedes.trans (h : l.Precedes p q) (h' : l.Precedes q r) : l.Precedes p r := by
  unfold Precedes at *
  omega

/-- No point belongs to two such cells. -/
theorem Precedes.not_inCell (h : l.Precedes p q) (hp : l.InCell p a b) : ¬l.InCell q a b := by
  have hrows := l.rows_apart
  unfold Precedes at h
  unfold InCell at *
  omega

variable (l)

/-- A cell is before the next one. -/
theorem precedes_succ (start : ℕ × ℕ) (n : ℕ) :
    l.Precedes (l.cell start n) (l.cell start (n + 1)) := by
  change l.Precedes (l.cell start n) (l.wrap (l.behind (l.cell start n)))
  by_cases h : (l.behind (l.cell start n)).1 + l.cellWidth ≤ l.width
  · rw [l.wrap_of_le h]
    exact Or.inl ⟨rfl, le_rfl⟩
  · rw [l.wrap_of_gt (by omega)]
    exact Or.inr le_rfl

/-- Earlier characters stand in earlier cells. -/
theorem precedes_of_lt (start : ℕ × ℕ) (h : i < j) :
    l.Precedes (l.cell start i) (l.cell start j) := by
  induction j, h using Nat.le_induction with
  | base => exact l.precedes_succ start i
  | succ j _ ih => exact ih.trans (l.precedes_succ start j)

/-- Cells of some width and height differ. -/
theorem cell_ne (hwidth : 0 < l.cellWidth) (hheight : 0 < l.rowHeight) (h : i < j) :
    l.cell start i ≠ l.cell start j := by
  intro heq
  have hbefore := l.precedes_of_lt start h
  rw [heq] at hbefore
  unfold Precedes at hbefore
  omega

/-- The cells of a text do not overlap. -/
theorem not_inCell_of_ne (hij : i ≠ j) (h : l.InCell (l.cell start i) a b) :
    ¬l.InCell (l.cell start j) a b := by
  cases Nat.lt_or_gt_of_ne hij with
  | inl hlt =>
    exact (l.precedes_of_lt start hlt).not_inCell h
  | inr hgt =>
    exact fun hj => (l.precedes_of_lt start hgt).not_inCell hj h

end Layout

/-! ## Drawing loops -/

/-- A loop that writes one value in some of its rounds. -/
theorem foldl_write {σ ι α : Type*} {step : σ → ι → σ} (read : σ → α) {hit : ι → Prop}
    [DecidablePred hit] {v : α} (h : ∀ s i, read (step s i) = if hit i then v else read s)
    (rounds : List ι) (s : σ) :
    read (rounds.foldl step s) = if ∃ i ∈ rounds, hit i then v else read s := by
  induction rounds generalizing s with
  | nil => simp
  | cons i rounds ih =>
    rw [List.foldl_cons, ih, h]
    by_cases hi : hit i
    · simp [hi]
    · simp [hi]

end Orionis.Foundations
