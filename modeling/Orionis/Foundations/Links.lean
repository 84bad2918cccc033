import Mathlib.Logic.Function.Basic
import Mathlib.Data.List.Basic
import Mathlib.Data.List.Nodup

/-!
# Linked segments

`Links next a l b` says that following `next` from `a` visits the nodes of `l` in order
and then arrives at `b`. The successor function is a parameter, so the same facts serve
links stored in memory and links stored in a table of descriptors.
-/

namespace Orionis.Foundations

variable {α : Type*} {next next' : α → α}

/-- Following `next` from `a` visits `l` and then arrives at `b`. -/
def Links (next : α → α) : α → List α → α → Prop
  | a, [], b => a = b
  | a, x :: l, b => a = x ∧ Links next (next x) l b

@[simp] theorem links_nil {a b : α} : Links next a [] b ↔ a = b := Iff.rfl

@[simp] theorem links_cons {a x b : α} {l : List α} :
    Links next a (x :: l) b ↔ a = x ∧ Links next (next x) l b := Iff.rfl

instance Links.decidable [DecidableEq α] : ∀ a l b, Decidable (Links next a l b)
  | a, [], b => inferInstanceAs (Decidable (a = b))
  | a, x :: l, b =>
    have := Links.decidable (next x) l b
    inferInstanceAs (Decidable (a = x ∧ Links next (next x) l b))

/-- Only the successors of the visited nodes matter. -/
theorem Links.congr {a b : α} {l : List α} (h : Links next a l b)
    (hnext : ∀ x ∈ l, next' x = next x) : Links next' a l b := by
  induction l generalizing a with
  | nil => exact h
  | cons x l ih =>
    obtain ⟨rfl, hl⟩ := h
    refine ⟨rfl, ?_⟩
    rw [hnext a (by simp)]
    exact ih hl fun y hy => hnext y (by simp [hy])

/-- Segments compose and split at any point of the visited list. -/
theorem links_append {a b : α} {l l' : List α} :
    Links next a (l ++ l') b ↔ ∃ c, Links next a l c ∧ Links next c l' b := by
  induction l generalizing a with
  | nil => simp
  | cons x l ih => simp [ih, and_assoc]

/-- A segment starting at a visited node is that node followed by the rest. -/
theorem links_split {a x b : α} {l l' : List α} :
    Links next a (l ++ x :: l') b ↔ Links next a l x ∧ Links next (next x) l' b := by
  rw [links_append]
  constructor
  · intro hall
    obtain ⟨c, hl, rfl, hl'⟩ := hall
    exact ⟨hl, hl'⟩
  · intro hall
    obtain ⟨hl, hl'⟩ := hall
    exact ⟨x, hl, rfl, hl'⟩

/-- A node met on the way to an end is one of the visited nodes, or the end itself. -/
theorem Links.mem_of_prefix {a b c : α} {l pre : List α} (h : Links next a l b)
    (hpre : Links next a pre c) (hb : b ∉ pre) (hc : c ≠ b) : c ∈ l := by
  induction pre generalizing a l with
  | nil =>
    cases l with
    | nil => exact absurd (hpre.symm.trans h) hc
    | cons x l =>
      rw [links_nil] at hpre
      simp [← hpre, h.1]
  | cons y pre ih =>
    obtain ⟨rfl, hpre⟩ := hpre
    cases l with
    | nil =>
      rw [links_nil] at h
      exact absurd (by simp [h]) hb
    | cons x l =>
      obtain ⟨rfl, hl⟩ := h
      exact List.mem_cons_of_mem _ (ih hl hpre fun hb' => hb (by simp [hb']))

/-- There is one way to arrive at an end that is not passed through. -/
theorem Links.unique {a b : α} {l l' : List α} (h : Links next a l b) (h' : Links next a l' b)
    (hb : b ∉ l) (hb' : b ∉ l') : l = l' := by
  induction l generalizing a l' with
  | nil =>
    cases l' with
    | nil => rfl
    | cons y l' => exact absurd (by simp [← links_nil.1 h, h'.1]) hb'
  | cons x l ih =>
    cases l' with
    | nil => exact absurd (by simp [← links_nil.1 h', h.1]) hb
    | cons y l' =>
      obtain ⟨rfl, hl⟩ := h
      obtain ⟨rfl, hl'⟩ := h'
      rw [ih hl hl' (fun hmem => hb (by simp [hmem])) fun hmem => hb' (by simp [hmem])]

/-- A segment that does not pass through its end passes through no node twice. -/
theorem Links.nodup {a b : α} {l : List α} (h : Links next a l b) (hb : b ∉ l) : l.Nodup := by
  induction l generalizing a with
  | nil => simp
  | cons x l ih =>
    obtain ⟨rfl, hl⟩ := h
    refine List.nodup_cons.2 ⟨fun hmem => ?_, ih hl fun hmem => hb (by simp [hmem])⟩
    -- Met again, the node would lead to the end by a shorter way.
    obtain ⟨pre, post, rfl⟩ := List.append_of_mem hmem
    have hpost := (links_split.1 hl).2
    have heq := hl.unique hpost (fun hmem => hb (by simp_all)) fun hmem => hb (by simp_all)
    have := congrArg List.length heq
    simp only [List.length_append, List.length_cons] at this
    omega

/-- Changing the successor of a node off the segment changes nothing. -/
theorem Links.update [DecidableEq α] {a b x v : α} {l : List α} (h : Links next a l b)
    (hx : x ∉ l) : Links (Function.update next x v) a l b :=
  h.congr fun y hy => Function.update_of_ne (by intro heq; subst heq; exact hx hy) _ _

end Orionis.Foundations
