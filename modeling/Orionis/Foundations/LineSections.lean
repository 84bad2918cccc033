import Mathlib.Data.List.Basic
import Mathlib.Data.List.Infix
import Mathlib.Data.List.TakeWhile

/-!
# Texts of lines, sections and keys

A text is a list of lines joined by a separator. A line that begins with the mark opens a
section, and what follows the mark is the section's name. A line that begins with a key and
the assignment sign gives the key a value. A program that walks over such a text one
character at a time and only remembers whether it is at the beginning of a line finds the
sections and the values of the lines.
-/

namespace Orionis.Foundations

variable {α : Type*} [DecidableEq α]

/-! ## On lines -/

/-- The name and all later lines of every section. -/
def openings (mark : α) : List (List α) → List (List (List α))
  | [] => []
  | line :: lines =>
    (if line.head? = some mark then [line.tail :: lines] else []) ++ openings mark lines

/-- The name of a section and the lines up to the next one. -/
def firstSection (mark : α) : List (List α) → List (List α)
  | [] => []
  | name :: lines => name :: lines.takeWhile (·.head? ≠ some mark)

/-- The sections of a text, each as its name and its lines. -/
def sections (mark : α) (lines : List (List α)) : List (List (List α)) :=
  (openings mark lines).map (firstSection mark)

/-- What a line gives to a key. -/
def valueIn (eq : α) (key line : List α) : Option (List α) :=
  if key ++ [eq] <+: line then some (line.drop (key.length + 1)) else none

/-- The values of a key, in the order of the lines. -/
def values (eq : α) (key : List α) (lines : List (List α)) : List (List α) :=
  lines.filterMap (valueIn eq key)

/-! ## One character at a time -/

/-- What stands behind every mark at the beginning of a line. -/
def textsBehind (sep mark : α) : (start : Bool) → List α → List (List α)
  | _, [] => []
  | start, c :: text =>
    (if start ∧ c = mark then [text] else []) ++ textsBehind sep mark (c = sep) text

/-- The text up to the next mark at the beginning of a line. -/
def textBefore (sep mark : α) : (start : Bool) → List α → List α
  | _, [] => []
  | start, c :: text =>
    if start ∧ c = mark then [] else c :: textBefore sep mark (c = sep) text

/-- What stands behind every key at the beginning of a line, up to the end of the line. -/
def valuesBehind (sep eq : α) (key : List α) : (start : Bool) → List α → List (List α)
  | _, [] => []
  | start, c :: text =>
    (if start ∧ key ++ [eq] <+: c :: text then
      [((c :: text).drop (key.length + 1)).takeWhile (· ≠ sep)] else []) ++
      valuesBehind sep eq key (c = sep) text

section Lines

variable {sep mark eq : α} {key line text : List α} {lines : List (List α)}

/-! ## One line -/

omit [DecidableEq α] in
/-- A text is its first line, the separator and the other lines. -/
theorem intercalate_eq_append (sep : α) (line : List α) (lines : List (List α)) :
    [sep].intercalate (line :: lines) =
      line ++ (if lines = [] then [] else sep :: [sep].intercalate lines) := by
  cases lines with
  | nil => simp
  | cons next lines => simp

omit [DecidableEq α] in
/-- A character of no line is not in the joined text, unless it is the separator. -/
theorem notMem_intercalate {c : α} (hc : c ≠ sep) (hlines : ∀ line ∈ lines, c ∉ line) :
    c ∉ [sep].intercalate lines := by
  induction lines with
  | nil => exact List.not_mem_nil
  | cons line lines ih =>
    obtain ⟨hline, hlater⟩ := List.forall_mem_cons.1 hlines
    rw [intercalate_eq_append]
    split
    · simpa using hline
    · simp [hline, hc, ih hlater]

omit [DecidableEq α] in
/-- A character of a line is in the joined text. -/
theorem mem_intercalate {c : α} (hline : line ∈ lines) (hc : c ∈ line) :
    c ∈ [sep].intercalate lines := by
  induction lines with
  | nil => exact absurd hline List.not_mem_nil
  | cons first lines ih =>
    rw [intercalate_eq_append]
    cases List.mem_cons.1 hline with
    | inl hfirst => exact List.mem_append_left _ (hfirst ▸ hc)
    | inr hlater =>
      rw [if_neg (List.ne_nil_of_mem hlater)]
      exact List.mem_append_right _ (List.mem_cons_of_mem _ (ih hlater))

/-- Lines that open no section are passed. -/
theorem openings_append {before : List (List α)} (h : ∀ line ∈ before, line.head? ≠ some mark)
    (lines : List (List α)) : openings mark (before ++ lines) = openings mark lines := by
  induction before with
  | nil => rfl
  | cons line before ih =>
    obtain ⟨hline, hlater⟩ := List.forall_mem_cons.1 h
    rw [List.cons_append, openings, if_neg hline, List.nil_append, ih hlater]

/-- A section is its name and its lines, up to a line that opens another one. -/
theorem sections_cons {name : List α} {body : List (List α)}
    (hbody : ∀ line ∈ body, line.head? ≠ some mark)
    (hlines : ∀ line, lines.head? = some line → line.head? = some mark) :
    sections mark ((mark :: name) :: (body ++ lines)) = (name :: body) :: sections mark lines := by
  have htake : (body ++ lines).takeWhile (·.head? ≠ some mark) = body := by
    rw [List.takeWhile_append_of_pos fun line h => decide_eq_true (hbody line h)]
    cases lines with
    | nil => simp
    | cons line lines => simp [hlines line rfl]
  rw [sections, openings, List.head?_cons, if_pos rfl, openings_append hbody, List.map_append,
    List.map_singleton, List.tail_cons, firstSection, htake]
  rfl

/-- Within a line nothing opens a section. -/
theorem textsBehind_append (h : sep ∉ line) (text : List α) :
    textsBehind sep mark false (line ++ text) = textsBehind sep mark false text := by
  induction line with
  | nil => rfl
  | cons c line ih =>
    obtain ⟨hc, hline⟩ := not_or.1 (List.mem_cons.not.1 h)
    simp [textsBehind, Ne.symm hc, ih hline]

/-- Every text behind a mark has a mark of its own. -/
theorem length_textsBehind_le (sep mark : α) (start : Bool) (text : List α) :
    (textsBehind sep mark start text).length ≤ text.length := by
  induction text generalizing start with
  | nil => exact Nat.le_refl 0
  | cons c text ih =>
    have hlater := ih (c = sep)
    rw [textsBehind, List.length_append, List.length_cons]
    split
    · rw [List.length_singleton]
      omega
    · rw [List.length_nil]
      omega

/-- A line without separators comes before the mark as a whole. -/
theorem textBefore_append (h : sep ∉ line) (text : List α) :
    textBefore sep mark false (line ++ text) = line ++ textBefore sep mark false text := by
  induction line with
  | nil => rfl
  | cons c line ih =>
    obtain ⟨hc, hline⟩ := not_or.1 (List.mem_cons.not.1 h)
    simp [textBefore, Ne.symm hc, ih hline]

/-- Within a line no key begins. -/
theorem valuesBehind_append (h : sep ∉ line) (text : List α) :
    valuesBehind sep eq key false (line ++ text) = valuesBehind sep eq key false text := by
  induction line with
  | nil => rfl
  | cons c line ih =>
    obtain ⟨hc, hline⟩ := not_or.1 (List.mem_cons.not.1 h)
    simp [valuesBehind, Ne.symm hc, ih hline]

/-- What stands behind a mark is the end of the text. -/
theorem suffix_of_mem_textsBehind {start : Bool} {rest : List α}
    (h : rest ∈ textsBehind sep mark start text) : ∃ before, text = before ++ mark :: rest := by
  induction text generalizing start with
  | nil => exact absurd h List.not_mem_nil
  | cons c text ih =>
    rw [textsBehind, List.mem_append] at h
    cases h with
    | inl hhere =>
      obtain ⟨⟨-, rfl⟩, hrest⟩ := List.mem_ite_nil_right.1 hhere
      exact ⟨[], by rw [List.mem_singleton.1 hrest, List.nil_append]⟩
    | inr hlater =>
      obtain ⟨before, rfl⟩ := ih hlater
      exact ⟨c :: before, rfl⟩

/-- What stands before the first mark is its beginning. -/
theorem textBefore_initial (sep mark : α) (start : Bool) (text : List α) :
    textBefore sep mark start text <+: text := by
  induction text generalizing start with
  | nil => exact List.nil_prefix
  | cons c text ih =>
    rw [textBefore]
    split
    · exact List.nil_prefix
    · exact List.cons_prefix_cons.2 ⟨rfl, ih _⟩

/-- A section is opened by a line. -/
theorem suffix_of_mem_openings {section' : List (List α)} (h : section' ∈ openings mark lines) :
    ∃ before name later, section' = name :: later ∧ lines = before ++ (mark :: name) :: later := by
  induction lines with
  | nil => exact absurd h List.not_mem_nil
  | cons line lines ih =>
    rw [openings, List.mem_append] at h
    cases h with
    | inl hhere =>
      obtain ⟨hmark, hsection⟩ := List.mem_ite_nil_right.1 hhere
      obtain ⟨name, rfl⟩ := List.head?_eq_some_iff.1 hmark
      exact ⟨[], name, lines, List.mem_singleton.1 hsection, rfl⟩
    | inr hlater =>
      obtain ⟨before, name, later, rfl, rfl⟩ := ih hlater
      exact ⟨line :: before, name, later, rfl, rfl⟩

/-- The lines of a text carry no separator. -/
theorem notMem_of_mem_splitOn (h : line ∈ text.splitOn sep) : sep ∉ line := by
  induction text generalizing line with
  | nil =>
    obtain rfl : line = [] := by simpa using h
    exact List.not_mem_nil
  | cons c text ih =>
    rw [List.splitOn_cons_eq_if_modifyHead] at h
    split at h
    · cases List.mem_cons.1 h with
      | inl hfirst => exact hfirst ▸ List.not_mem_nil
      | inr hlater => exact ih hlater
    · next hc =>
      obtain ⟨first, others, hsplit⟩ := List.exists_cons_of_ne_nil (List.splitOn_ne_nil sep text)
      rw [hsplit, List.modifyHead_cons] at h
      rw [hsplit] at ih
      cases List.mem_cons.1 h with
      | inl hfirst =>
        have hrest := ih List.mem_cons_self
        have hne : sep ≠ c := fun hs => hc (by simp [hs])
        simp [hfirst, hne, hrest]
      | inr hlater => exact ih (List.mem_cons_of_mem _ hlater)

/-- The sections of a text are those of its lines. -/
theorem textsBehind_intercalate (hmark : mark ≠ sep) (hlines : ∀ line ∈ lines, sep ∉ line) :
    textsBehind sep mark true ([sep].intercalate lines) =
      (openings mark lines).map [sep].intercalate := by
  induction lines with
  | nil => rfl
  | cons line lines ih =>
    have hrest : textsBehind sep mark false
        (if lines = [] then [] else sep :: [sep].intercalate lines) =
          (openings mark lines).map [sep].intercalate := by
      split
      · next h => simp [h, textsBehind, openings]
      · simpa [textsBehind] using ih fun l hl => hlines l (List.mem_cons_of_mem _ hl)
    have hline := hlines line List.mem_cons_self
    rw [intercalate_eq_append, openings, List.map_append, ← hrest]
    cases line with
    | nil =>
      simp only [List.nil_append, List.head?_nil, reduceCtorEq, ↓reduceIte, List.map_nil]
      split
      · rfl
      · simp [textsBehind, Ne.symm hmark]
    | cons c line =>
      obtain ⟨hc, hline⟩ := not_or.1 (List.mem_cons.not.1 hline)
      rw [List.cons_append, textsBehind, decide_eq_false (Ne.symm hc), textsBehind_append hline]
      congr 1
      by_cases h : c = mark
      · simp [h, intercalate_eq_append]
      · simp [h]

/-- The text of a section ends where the next one begins, or with the text. -/
theorem textBefore_intercalate (hmark : mark ≠ sep) (line : List α)
    (hlines : ∀ l ∈ line :: lines, sep ∉ l) :
    ∃ ends : List (List α), (∀ l ∈ ends, l = []) ∧
      textBefore sep mark false ([sep].intercalate (line :: lines)) =
        [sep].intercalate (firstSection mark (line :: lines) ++ ends) := by
  induction lines generalizing line with
  | nil =>
    refine ⟨[], by simp, ?_⟩
    simpa [firstSection, textBefore] using textBefore_append (hlines line List.mem_cons_self) []
  | cons next lines ih =>
    have hnext : ∀ l ∈ next :: lines, sep ∉ l := fun l hl => hlines l (List.mem_cons_of_mem _ hl)
    have hcons : textBefore sep mark false ([sep].intercalate (line :: next :: lines)) =
        line ++ sep :: textBefore sep mark true ([sep].intercalate (next :: lines)) := by
      rw [List.intercalate_cons_cons, List.append_assoc,
        textBefore_append (hlines line List.mem_cons_self)]
      simp [textBefore]
    rw [hcons]
    by_cases h : next.head? = some mark
    · refine ⟨[[]], by simp, ?_⟩
      obtain ⟨name, rfl⟩ := List.head?_eq_some_iff.1 h
      simp [firstSection, intercalate_eq_append, textBefore]
    · obtain ⟨ends, hends, heq⟩ := ih next hnext
      refine ⟨ends, hends, ?_⟩
      have hstart : textBefore sep mark true ([sep].intercalate (next :: lines)) =
          textBefore sep mark false ([sep].intercalate (next :: lines)) := by
        rw [intercalate_eq_append]
        cases next with
        | nil =>
          simp only [List.nil_append]
          split
          · rfl
          · simp [textBefore, Ne.symm hmark]
        | cons c next => simp [textBefore, show c ≠ mark by simpa using h]
      rw [hstart, heq]
      simp [firstSection, h]

omit [DecidableEq α] in
/-- A key without the separator is found within one line or not at all. -/
theorem prefix_append_iff {word rest : List α} (hword : sep ∉ word)
    (hrest : ∀ c, rest.head? = some c → c = sep) : word <+: line ++ rest ↔ word <+: line := by
  constructor
  · intro h
    induction word generalizing line with
    | nil => exact List.nil_prefix
    | cons c word ih =>
      obtain ⟨hc, hword⟩ := not_or.1 (List.mem_cons.not.1 hword)
      cases line with
      | nil =>
        cases rest with
        | nil => simp at h
        | cons d rest =>
          obtain rfl : c = d := (List.cons_prefix_cons.1 h).1
          exact absurd (hrest c rfl).symm hc
      | cons d line =>
        obtain ⟨hcd, hrest⟩ := List.cons_prefix_cons.1 h
        exact List.cons_prefix_cons.2 ⟨hcd, ih hword hrest⟩
  · exact fun h => h.trans (List.prefix_append line rest)

/-- The value behind a key ends with its line. -/
theorem takeWhile_drop_append {rest : List α} {n : ℕ} (hline : sep ∉ line) (hn : n ≤ line.length)
    (hrest : ∀ c, rest.head? = some c → c = sep) :
    ((line ++ rest).drop n).takeWhile (· ≠ sep) = line.drop n := by
  have hdrop : ∀ c ∈ line.drop n, decide (c ≠ sep) = true := fun c hc =>
    decide_eq_true fun h => hline (h ▸ List.mem_of_mem_drop hc)
  rw [List.drop_append_of_le_length hn, List.takeWhile_append_of_pos hdrop]
  cases rest with
  | nil => simp
  | cons c rest => simp [hrest c rfl]

/-- What one line contributes. -/
theorem valuesBehind_line {rest : List α} (hkey : sep ∉ key ++ [eq]) (hline : sep ∉ line)
    (hrest : ∀ c, rest.head? = some c → c = sep) :
    valuesBehind sep eq key true (line ++ rest) =
      (valueIn eq key line).toList ++ valuesBehind sep eq key false rest := by
  have hvalue : (if key ++ [eq] <+: line ++ rest then
      [((line ++ rest).drop (key.length + 1)).takeWhile (· ≠ sep)] else []) =
        (valueIn eq key line).toList := by
    simp only [valueIn, prefix_append_iff hkey hrest]
    split
    · next h =>
      rw [takeWhile_drop_append hline (by simpa using h.length_le) hrest]
      rfl
    · rfl
  rw [← hvalue]
  cases line with
  | cons c line =>
    obtain ⟨hc, hline⟩ := not_or.1 (List.mem_cons.not.1 hline)
    simp [valuesBehind, Ne.symm hc, valuesBehind_append hline]
  | nil =>
    cases rest with
    | nil => simp [valuesBehind]
    | cons c rest => simp [valuesBehind]

/-- The values of a text are those of its lines. -/
theorem valuesBehind_intercalate (hkey : sep ∉ key ++ [eq])
    (hlines : ∀ line ∈ lines, sep ∉ line) :
    valuesBehind sep eq key true ([sep].intercalate lines) = values eq key lines := by
  induction lines with
  | nil => rfl
  | cons line lines ih =>
    have hrest : valuesBehind sep eq key false
        (if lines = [] then [] else sep :: [sep].intercalate lines) = values eq key lines := by
      split
      · next h => simp [h, valuesBehind, values]
      · simpa [valuesBehind] using ih fun l hl => hlines l (List.mem_cons_of_mem _ hl)
    rw [intercalate_eq_append, valuesBehind_line hkey (hlines line List.mem_cons_self)
      (by split <;> simp), hrest]
    cases h : valueIn eq key line with
    | none => simp [values, h]
    | some value => simp [values, h]

end Lines

end Orionis.Foundations
