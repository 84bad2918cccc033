import Orionis.Foundations.Numeral

/-!
# `itob`

The conversion of `strutils.cpp` writes its digits leftwards into a static buffer of 50 bytes,
with no look at where the buffer begins. There is room for 49 digits: enough for every 64-bit
number from base 3 on, but not for the numbers of 50 binary digits and more.
-/

namespace Orionis.Lib

open Orionis.Foundations

/-- `hold`. -/
def hold : List UInt8 := [48, 49, 50, 51, 52, 53, 54, 55, 56, 57, 65, 66, 67, 68, 69, 70]

/-- `hold[i]`, up to the NUL. -/
def holdChar (i : ℕ) : UInt8 := hold.getD i 0

/-- The loop of `itob`. The buffer is what memory holds by its distance from `&buffer[0]`. -/
def itobLoop (base : ℕ) : (fuel num : ℕ) → (str : ℤ) → (ℤ → UInt8) → Option (ℤ × (ℤ → UInt8))
  | 0, _, _, _ => none
  | fuel + 1, num, str, buffer =>
    let str := str - 1
    let buffer := Function.update buffer str (holdChar (num % base))
    let num := num / base
    if num ≠ 0 then itobLoop base fuel num str buffer else some (str, buffer)

/-- `itob`: where the string starts, and the buffer. -/
def itob (fuel : ℕ) (buffer : ℤ → UInt8) (num base : UInt64) : Option (ℤ × (ℤ → UInt8)) :=
  itobLoop base.toNat fuel num.toNat 49 (Function.update buffer 49 0)

/-- The call returns the numeral of the number, with a NUL behind it, and has written to none but
the 50 bytes of the buffer. -/
def Converts (num base : UInt64) : Prop :=
  ∃ need digits, IsNumeral base.toNat num.toNat digits ∧ ∀ buffer, ∃ str buffer',
    (∀ fuel, itob fuel buffer num base = if need ≤ fuel then some (str, buffer') else none) ∧
      HoldsString buffer' str (digits.map holdChar) ∧
      ∀ j, buffer' j ≠ buffer j → 0 ≤ j ∧ j < 50

variable {base : ℕ}

/-- The loop takes a round for each digit of the numeral, from the last one on. -/
theorem itobLoop_eq (hbase : 1 < base) (fuel num : ℕ) (str : ℤ) (buffer : ℤ → UInt8) :
    itobLoop base fuel num str buffer =
      if (numeral base num).length ≤ fuel then
        some (str - (numeral base num).length,
          storeBack ((numeral base num).reverse.map holdChar) (str - 1) buffer)
      else none := by
  induction fuel generalizing num str buffer with
  | zero =>
    have hne := (isNumeral_numeral hbase num).ne_nil
    rw [itobLoop, if_neg fun hle => hne (List.length_eq_zero_iff.1 (Nat.le_zero.1 hle))]
  | succ fuel ih =>
    rw [itobLoop, numeral_eq hbase num]
    by_cases hlast : num / base = 0
    · rw [if_neg (not_not.2 hlast), if_pos hlast, List.nil_append, List.length_singleton,
        if_pos (Nat.le_add_left 1 fuel)]
      rfl
    · rw [if_pos hlast, if_neg hlast, ih, List.length_append, List.length_singleton,
        List.reverse_append, List.reverse_singleton, List.singleton_append, List.map_cons, storeBack]
      simp only [Nat.add_le_add_iff_right]
      rw [Nat.cast_add, Nat.cast_one, Int.sub_sub, Int.add_comm 1]

/-- No digit is a NUL. -/
theorem holdChar_ne_zero : ∀ x < 16, holdChar x ≠ 0 := by decide

/-- From base 3 on, 49 digits are enough for 64 bits. -/
theorem fits_iff {num base : UInt64} (hlo : 2 ≤ base.toNat) :
    num.toNat < base.toNat ^ 49 ↔ base ≠ 2 ∨ num.toNat < 2 ^ 49 := by
  by_cases hbase : base = 2
  · subst hbase
    exact (or_iff_right fun h => h rfl).symm
  · have hthree : 3 ≤ base.toNat := by
      have hne : base.toNat ≠ 2 := fun h => hbase (UInt64.toNat_inj.1 h)
      omega
    refine iff_of_true ?_ (Or.inl hbase)
    calc num.toNat < 2 ^ 64 := num.toNat_lt
      _ ≤ 3 ^ 49 := by norm_num
      _ ≤ base.toNat ^ 49 := Nat.pow_le_pow_left hthree 49

/-- No character of a numeral is a NUL. -/
theorem chars_ne_zero (num : UInt64) {base : UInt64} (hlo : 2 ≤ base.toNat) (hhi : base.toNat ≤ 16) :
    ∀ c ∈ (numeral base.toNat num.toNat).reverse.map holdChar, c ≠ 0 := by
  intro c hc
  obtain ⟨x, hx, rfl⟩ := List.mem_map.1 hc
  have hlt := (isNumeral_numeral hlo num.toNat).lt_base x (List.mem_reverse.1 hx)
  exact holdChar_ne_zero x (hlt.trans_le hhi)

/-- The fiftieth character goes to the byte in front of the buffer. -/
theorem not_converts_of_long {num base : UInt64} (hlo : 2 ≤ base.toNat) (hhi : base.toNat ≤ 16)
    (hlong : 49 < (numeral base.toNat num.toNat).length) : ¬ Converts num base := by
  intro h
  obtain ⟨need, digits, -, hcall⟩ := h
  obtain ⟨str, buffer, hreturns, -, hinside⟩ := hcall fun _ => 0
  have hresult := hreturns need
  rw [itob, itobLoop_eq hlo, if_pos le_rfl] at hresult
  obtain ⟨-, hsome⟩ := Option.ite_none_right_eq_some.1 hresult
  obtain ⟨-, rfl⟩ := Prod.mk.inj (Option.some.inj hsome)
  have hfifty : 49 < ((numeral base.toNat num.toNat).reverse.map holdChar).length := by
    rwa [List.length_map, List.length_reverse]
  have hstored := @storeBack_apply _ (49 - 1) (Function.update (fun _ => 0) 49 0) 49 hfifty
  have hbefore := hinside (49 - 1 - (49 : ℕ)) fun h =>
    chars_ne_zero num hlo hhi _ (List.getElem_mem hfifty) (hstored.symm.trans h)
  omega

/-- In the bases of `hold` the conversion is right exactly where it is not to base 2, or the number
has no more than 49 binary digits. -/
theorem converts_iff (num : UInt64) {base : UInt64} (hlo : 2 ≤ base.toNat) (hhi : base.toNat ≤ 16) :
    Converts num base ↔ base ≠ 2 ∨ num.toNat < 2 ^ 49 := by
  rw [← fits_iff hlo, ← length_numeral_le_iff hlo (by decide)]
  constructor
  · intro h
    by_contra hlong
    exact not_converts_of_long hlo hhi (by omega) h
  · intro hfits
    refine ⟨_, _, isNumeral_numeral hlo num.toNat, fun buffer =>
      ⟨_, _, fun fuel => itobLoop_eq hlo fuel _ _ _, ?_, ?_⟩⟩
    · have hnul : Function.update buffer 49 0 (49 - 1 + 1) = 0 := Function.update_self 49 0 buffer
      have hholds := holdsString_storeBack (chars_ne_zero num hlo hhi) hnul
      rw [List.length_map, List.length_reverse, ← List.map_reverse, List.reverse_reverse] at hholds
      exact hholds
    · intro j hchanged
      by_contra hout
      apply hchanged
      have hlength : ((numeral base.toNat num.toNat).reverse.map holdChar).length ≤ 49 := by
        rwa [List.length_map, List.length_reverse]
      rw [storeBack_of_outside (by omega), Function.update_of_ne (by omega)]

/-- The largest number in hexadecimal. -/
theorem converts_iff_largest : Converts 0xFFFFFFFFFFFFFFFF 16 :=
  (converts_iff _ (by decide) (by decide)).2 (Or.inl (by decide))

/-- A one and 49 zeros in binary need a byte more than there is. -/
theorem not_converts_fiftyBits : ¬ Converts 0x2000000000000 2 := by
  apply not_converts_of_long (by decide) (by decide)
  have hlong := (length_numeral_le_iff (n := 2 ^ 49) (by decide : 1 < 2) (by decide : 0 < 49)).1
  exact Nat.lt_of_not_le fun hle => lt_irrefl _ (hlong hle)

end Orionis.Lib
