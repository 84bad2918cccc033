import Mathlib.Data.List.Infix
import Mathlib.Data.Nat.ModEq
import Mathlib.Logic.Function.Basic

/-!
# Rings with free-running indices

A producer writes the next entry into slot `n % num`, where `n` counts the entries it has
produced, and then announces it by counting it. A consumer takes the entries in slot order.
The counters are stored modulo `wrap`, a multiple of `num`, and compared for equality only.

As long as at most `num` entries are announced and not taken, the consumer takes what was
produced, in order, and a stored counter tells the two counts apart.
-/

namespace Orionis.Foundations

variable {α : Type*}

/-- What was taken is a prefix of what was announced, and the slots still hold the rest. -/
structure IndexRing (num : ℕ) (ring : ℕ → α) (produced consumed : List α) : Prop where
  taken : consumed <+: produced
  room : produced.length ≤ consumed.length + num
  slot : ∀ j (h : j < produced.length), consumed.length ≤ j → ring (j % num) = produced[j]

section Indices

variable {num wrap a b : ℕ}

/-- Equal residues mean equal numbers where they are less than a period apart. -/
theorem eq_of_mod_eq (hab : a ≤ b) (hba : b < a + wrap) (h : a % wrap = b % wrap) : a = b := by
  have hsub : (b - a) % wrap = 0 := Nat.sub_mod_eq_zero_of_mod_eq h.symm
  have hzero : b - a = 0 := by
    rw [← hsub, Nat.mod_eq_of_lt (by omega)]
  omega

/-- A stored counter selects the same slot as the count. -/
theorem mod_mod_of_dvd (hdvd : num ∣ wrap) : a % wrap % num = a % num :=
  Nat.mod_mod_of_dvd a hdvd

/-- Counting on in a stored counter. -/
theorem succ_mod (a wrap : ℕ) : (a % wrap + 1) % wrap = (a + 1) % wrap :=
  Nat.mod_add_mod a wrap 1

end Indices

section Operations

variable {num : ℕ} {ring : ℕ → α} {produced consumed : List α}

/-- Only the slots of the ring matter. -/
theorem IndexRing.congr {ring' : ℕ → α} (h : IndexRing num ring produced consumed) (hpos : 0 < num)
    (hring : ∀ i < num, ring' i = ring i) : IndexRing num ring' produced consumed :=
  ⟨h.taken, h.room, fun j hj hlo => (hring _ (Nat.mod_lt _ hpos)).trans (h.slot j hj hlo)⟩

/-- The next slot is not one of those that still hold an entry. -/
theorem IndexRing.write (h : IndexRing num ring produced consumed)
    (hroom : produced.length < consumed.length + num) (a : α) :
    IndexRing num (Function.update ring (produced.length % num) a) produced consumed := by
  refine ⟨h.taken, h.room, ?_⟩
  intro j hj hlo
  rw [Function.update_of_ne, h.slot j hj hlo]
  intro heq
  have hj' := eq_of_mod_eq (Nat.le_of_lt hj) (by omega) heq
  omega

/-- Announcing the entry in the next slot. -/
theorem IndexRing.announce (h : IndexRing num ring produced consumed)
    (hroom : produced.length < consumed.length + num) {a : α}
    (ha : ring (produced.length % num) = a) :
    IndexRing num ring (produced ++ [a]) consumed := by
  refine ⟨h.taken.trans (List.prefix_append _ _), by simp; omega, ?_⟩
  intro j hj hlo
  rw [List.getElem_append]
  split
  · next hold => exact h.slot j hold hlo
  · next hnew =>
    have hlast : j = produced.length := by
      simp at hj
      omega
    subst hlast
    simp [ha]

/-- Taking the oldest entry from its slot. -/
theorem IndexRing.take (h : IndexRing num ring produced consumed)
    (hlt : consumed.length < produced.length) :
    IndexRing num ring produced (consumed ++ [ring (consumed.length % num)]) := by
  refine ⟨?_, ?_, ?_⟩
  · rw [h.slot _ hlt le_rfl]
    obtain ⟨rest, hrest⟩ := h.taken
    cases rest with
    | nil =>
      rw [List.append_nil] at hrest
      rw [hrest] at hlt
      exact absurd hlt (lt_irrefl _)
    | cons a rest =>
      refine ⟨rest, ?_⟩
      simp only [← hrest, List.getElem_append_right le_rfl, Nat.sub_self, List.getElem_cons_zero,
        List.append_assoc, List.singleton_append]
  · have hroom := h.room
    simp
    omega
  · intro j hj hlo
    apply h.slot j hj
    simp at hlo
    omega

end Operations

/-! ## Head and tail registers -/

/-- The slots a device owns: from `head` up to but not including `tail`, and none where the
registers are equal. -/
def Owned (num head tail i : ℕ) : Prop := ∃ d < (tail + num - head) % num, i = (head + d) % num

/-- Registers that hold two counts less than a period apart own the slots in between. -/
theorem owned_iff {num first last i : ℕ} (hle : first ≤ last) (hlt : last < first + num) :
    Owned num (first % num) (last % num) i ↔ ∃ k, first ≤ k ∧ k < last ∧ i = k % num := by
  have hpos : 0 < num := by omega
  have hfirst := Nat.mod_lt first hpos
  have hcount : (last % num + num - first % num) % num = last - first := by
    have hmod : (last % num + num - first % num) ≡ last - first [MOD num] := by
      apply Nat.ModEq.add_right_cancel' (first % num)
      rw [Nat.sub_add_cancel (by omega)]
      calc last % num + num ≡ last [MOD num] := by simp [Nat.ModEq]
        _ = last - first + first := by omega
        _ ≡ last - first + first % num [MOD num] := by simp [Nat.ModEq]
    rw [hmod, Nat.mod_eq_of_lt (by omega)]
  rw [Owned, hcount]
  constructor
  · intro ⟨d, hd, hi⟩
    exact ⟨first + d, by omega, by omega, by rw [hi, Nat.mod_add_mod]⟩
  · intro ⟨k, hlo, hhi, hi⟩
    exact ⟨k - first, by omega, by rw [hi, Nat.mod_add_mod, Nat.add_sub_cancel' hlo]⟩

end Orionis.Foundations
