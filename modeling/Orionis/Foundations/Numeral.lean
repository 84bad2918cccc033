import Mathlib.Data.Nat.Digits.Lemmas
import Mathlib.Logic.Function.Basic

/-!
# Numerals

The canonical numeral of a number in a base, most significant digit first, and buffers that
are filled with characters from right to left.
-/

namespace Orionis.Foundations

/-- The number that digits stand for, most significant first. -/
def readDigits (base : ℕ) (digits : List ℕ) : ℕ := digits.foldl (fun n x => n * base + x) 0

/-- Digits of the base that stand for the number, without a leading zero but in zero itself. -/
structure IsNumeral (base n : ℕ) (digits : List ℕ) : Prop where
  lt_base : ∀ x ∈ digits, x < base
  read : readDigits base digits = n
  ne_nil : digits ≠ []
  leading : digits.head? = some 0 → digits = [0]

/-- The numeral of a number. -/
def numeral (base n : ℕ) : List ℕ := if n = 0 then [0] else (Nat.digits base n).reverse

variable {base n : ℕ}

/-- Reading the digits from the highest on gives the number they are digits of. -/
theorem readDigits_reverse (base : ℕ) (digits : List ℕ) :
    readDigits base digits.reverse = Nat.ofDigits base digits := by
  induction digits with
  | nil => rfl
  | cons x digits ih =>
    rw [readDigits, List.reverse_cons, List.foldl_append, Nat.ofDigits_cons, ← ih, readDigits]
    simp only [List.foldl_cons, List.foldl_nil]
    rw [Nat.add_comm, Nat.mul_comm]

/-- The numeral of a positive number are its digits. -/
theorem numeral_of_ne_zero (h : n ≠ 0) : numeral base n = (Nat.digits base n).reverse := if_neg h

/-- Every number has its numeral. -/
theorem isNumeral_numeral (hbase : 1 < base) (n : ℕ) : IsNumeral base n (numeral base n) := by
  by_cases hzero : n = 0
  · subst hzero
    have hnumeral : numeral base 0 = [0] := if_pos rfl
    rw [hnumeral]
    refine ⟨fun x hx => ?_, Nat.zero_mul base, List.cons_ne_nil _ _, fun _ => rfl⟩
    obtain rfl := List.mem_singleton.1 hx
    exact Nat.zero_lt_of_lt hbase
  · have hne : Nat.digits base n ≠ [] := Nat.digits_ne_nil_iff_ne_zero.2 hzero
    rw [numeral_of_ne_zero hzero]
    refine ⟨fun x hx => ?_, ?_, mt List.reverse_eq_nil_iff.1 hne, fun hhead => ?_⟩
    · exact Nat.digits_lt_base hbase (List.mem_reverse.1 hx)
    · rw [readDigits_reverse, Nat.ofDigits_digits]
    · have hlast := Nat.getLast_digit_ne_zero base hzero
      rw [List.head?_reverse, List.getLast?_eq_some_getLast hne] at hhead
      exact absurd (Option.some.inj hhead) hlast

/-- The last digit is the remainder; the digits before it are the numeral of the quotient. -/
theorem numeral_eq (hbase : 1 < base) (n : ℕ) :
    numeral base n = (if n / base = 0 then [] else numeral base (n / base)) ++ [n % base] := by
  by_cases hzero : n = 0
  · subst hzero
    rw [numeral, if_pos rfl, Nat.zero_div, Nat.zero_mod, if_pos rfl]
    rfl
  · rw [numeral_of_ne_zero hzero, Nat.digits_def' hbase (Nat.pos_of_ne_zero hzero),
      List.reverse_cons]
    by_cases hlast : n / base = 0
    · rw [if_pos hlast, hlast, Nat.digits_zero]
      rfl
    · rw [if_neg hlast, numeral_of_ne_zero hlast]

/-- A numeral is as long as the number needs. -/
theorem length_numeral_le_iff (hbase : 1 < base) {k : ℕ} (hk : 0 < k) :
    (numeral base n).length ≤ k ↔ n < base ^ k := by
  by_cases hzero : n = 0
  · subst hzero
    exact iff_of_true hk (Nat.pow_pos (Nat.zero_lt_of_lt hbase))
  · rw [numeral_of_ne_zero hzero, List.length_reverse]
    exact Nat.digits_length_le_iff hbase n

/-! ## Buffers -/

/-- Characters are stored one after the other, each to the left of the one before. -/
def storeBack : (chars : List UInt8) → (i : ℤ) → (ℤ → UInt8) → ℤ → UInt8
  | [], _, buffer => buffer
  | c :: chars, i, buffer => storeBack chars (i - 1) (Function.update buffer i c)

/-- The buffer holds the text from `start` on, with a NUL behind it. -/
structure HoldsString (buffer : ℤ → UInt8) (start : ℤ) (text : List UInt8) : Prop where
  chars : ∀ k (hk : k < text.length), buffer (start + k) = text[k]
  ne_nul : ∀ c ∈ text, c ≠ 0
  nul : buffer (start + text.length) = 0

variable {chars : List UInt8} {i j : ℤ} {buffer : ℤ → UInt8}

/-- Storing backwards changes nothing outside. -/
theorem storeBack_of_outside (h : i < j ∨ j + chars.length ≤ i) :
    storeBack chars i buffer j = buffer j := by
  induction chars generalizing i buffer with
  | nil => rfl
  | cons c chars ih =>
    rw [List.length_cons] at h
    rw [storeBack, ih (by omega), Function.update_of_ne (by omega)]

/-- Each character is where it was stored. -/
theorem storeBack_apply {k : ℕ} (hk : k < chars.length) :
    storeBack chars i buffer (i - k) = chars[k] := by
  induction chars generalizing i k buffer with
  | nil => exact absurd hk (Nat.not_lt_zero k)
  | cons c chars ih =>
    cases k with
    | zero =>
      have hself : storeBack chars (i - 1) (Function.update buffer i c) i = c := by
        rw [storeBack_of_outside (Or.inl (by omega)), Function.update_self]
      rw [storeBack, Nat.cast_zero, sub_zero]
      exact hself
    | succ k =>
      have hnext := @ih (i - 1) (Function.update buffer i c) k (Nat.lt_of_succ_lt_succ hk)
      have hindex : i - (k + 1 : ℕ) = i - 1 - k := by omega
      rw [hindex]
      exact hnext

/-- Left of a NUL, the characters stored make up a string, the last one first. -/
theorem holdsString_storeBack (hchars : ∀ c ∈ chars, c ≠ 0) (hnul : buffer (i + 1) = 0) :
    HoldsString (storeBack chars i buffer) (i + 1 - chars.length) chars.reverse := by
  refine ⟨fun k hk => ?_, fun c hc => hchars c (List.mem_reverse.1 hc), ?_⟩
  · rw [List.length_reverse] at hk
    have hlast : chars.length - 1 - k < chars.length := by omega
    have hindex : i + 1 - chars.length + k = i - (chars.length - 1 - k : ℕ) := by omega
    rw [hindex, storeBack_apply hlast, List.getElem_reverse]
  · rw [List.length_reverse, sub_add_cancel, storeBack_of_outside (Or.inl (by omega)), hnul]

end Orionis.Foundations
