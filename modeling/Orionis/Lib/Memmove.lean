import Orionis.Console.Tty

/-!
# `memmove`

Where the destination lies above the source the last byte is copied first, elsewhere the first
one. Either way no byte is read after it has been overwritten.
-/

namespace Orionis.Console

open Orionis.Foundations

/-- The order in which `memmove` copies the bytes. -/
def memmoveRounds (dest src n : ℕ) : List ℕ :=
  if src < dest then (List.range n).reverse else List.range n

/-- `memmove` is a sequence of single copies. -/
theorem memmove_eq_copyRounds (m : Memory) (dest src n : ℕ) :
    memmove m dest src n = copyRounds dest src (memmoveRounds dest src n) m := by
  rw [memmove, memmoveRounds]
  split <;> rfl

/-- Each byte is copied, in either direction. -/
theorem mem_memmoveRounds {dest src n i : ℕ} : i ∈ memmoveRounds dest src n ↔ i < n := by
  rw [memmoveRounds]
  split
  · rw [List.mem_reverse, List.mem_range]
  · exact List.mem_range

/-- A round reads above what the rounds before have written when the copy goes up, and below it
when the copy goes down. -/
theorem memmoveRounds_fresh (dest src n : ℕ) :
    (memmoveRounds dest src n).Pairwise fun i j => dest + i ≠ src + j ∧ i ≠ j := by
  have hup : (List.range n).Pairwise (· < ·) := List.pairwise_lt_range
  rw [memmoveRounds]
  split
  · next hbelow =>
    rw [List.pairwise_reverse]
    exact hup.imp fun hlt => ⟨by omega, by omega⟩
  · next habove =>
    exact hup.imp fun hlt => ⟨by omega, by omega⟩

/-- `memmove` writes to its destination only. -/
theorem memmove_of_outside (m : Memory) {dest src n a : ℕ} (h : a < dest ∨ dest + n ≤ a) :
    memmove m dest src n a = m a := by
  rw [memmove_eq_copyRounds]
  apply copyRounds_of_outside
  intro i hi
  have hlt := mem_memmoveRounds.1 hi
  omega

/-- Every byte arrives. -/
theorem memmove_apply (m : Memory) (dest src : ℕ) {n i : ℕ} (hi : i < n) :
    memmove m dest src n (dest + i) = m (src + i) := by
  rw [memmove_eq_copyRounds]
  exact copyRounds_apply m (memmoveRounds_fresh dest src n) (mem_memmoveRounds.2 hi)

/-- The destination holds what the source held, and nothing else has changed, however the two
overlap. -/
theorem memmove_copies (m : Memory) (dest src n : ℕ) :
    (∀ i < n, memmove m dest src n (dest + i) = m (src + i)) ∧
      ∀ a, a < dest ∨ dest + n ≤ a → memmove m dest src n a = m a :=
  ⟨fun _ => memmove_apply m dest src, fun _ => memmove_of_outside m⟩

end Orionis.Console
