import Orionis.Console.Kernel
import Orionis.Foundations.Numeral

/-!
# Printing numbers

`print_dec` and `print_hex` find the digits of a number from the back and print the buffer from
the first digit on. Their buffers have room for the longest 64-bit numeral and a NUL, and not for
a character more.
-/

namespace Orionis.Console

open Orionis.Foundations

/-- The call prints the canonical numeral of the value. Its loop ends, stores between index 0 and
the last but one, and leaves a NUL behind the digits. -/
structure PrintsNumeral (print : Display → Tty → UInt64 → ℕ → Tty) (base : ℕ) (digit : ℕ → UInt8)
    (size : ℤ) (value : UInt64) : Prop where
  ends : ∀ fuel i buffer, 64 ≤ fuel → digitLoop base digit fuel value.toNat i buffer =
    digitLoop base digit 64 value.toNat i buffer
  inside : ∀ buffer j, (digitLoop base digit 64 value.toNat (size - 2) buffer).2 j ≠ buffer j →
    0 ≤ j ∧ j ≤ size - 2
  printed : ∃ digits, IsNumeral base value.toNat digits ∧
    (∀ d t color, print d t value color = Tty.print d t (digits.map digit) color) ∧
    (value ≠ 0 → let (i, buffer) := digitLoop base digit 64 value.toNat (size - 2) fun _ => 0
      HoldsString buffer (i + 1) (digits.map digit))

variable {base : ℕ} {digit : ℕ → UInt8}

/-- The loop stores the digits, the last one first. -/
theorem digitLoop_eq (hbase : 1 < base) {fuel value : ℕ} (h : value < base ^ fuel) (i : ℤ)
    (buffer : ℤ → UInt8) : digitLoop base digit fuel value i buffer =
      (i - (Nat.digits base value).length,
        storeBack ((Nat.digits base value).map digit) i buffer) := by
  induction fuel generalizing value i buffer with
  | zero =>
    obtain rfl : value = 0 := Nat.lt_one_iff.1 h
    simp [digitLoop, storeBack]
  | succ fuel ih =>
    rw [digitLoop]
    by_cases hpos : 0 < value
    · have hrest : value / base < base ^ fuel := by
        rw [Nat.div_lt_iff_lt_mul (Nat.zero_lt_of_lt hbase), ← pow_succ]
        exact h
      rw [if_pos hpos, ih hrest, Nat.digits_def' hbase hpos, List.length_cons, List.map_cons,
        storeBack, Nat.cast_succ, Int.sub_sub, Int.add_comm 1]
    · obtain rfl : value = 0 := Nat.eq_zero_of_not_pos hpos
      simp [storeBack]

/-- A string of the buffer is its bytes up to the first NUL. -/
theorem bufferString_eq_map (buffer : ℤ → UInt8) (start stop : ℤ) :
    bufferString buffer start stop =
      ((List.range (stop - start).toNat).map fun j : ℕ => buffer (start + j)).takeWhile (· ≠ 0) := by
  simp [bufferString, ← List.map_eq_flatMap, Function.comp_def]

/-- A string in a buffer is what a reader finds from its start on. -/
theorem bufferString_eq {buffer : ℤ → UInt8} {start stop : ℤ} {text : List UInt8}
    (h : HoldsString buffer start text) (hstop : start + text.length < stop) :
    bufferString buffer start stop = text := by
  obtain ⟨rest, hrest⟩ : ∃ rest : ℕ, (stop - start).toNat = text.length + (rest + 1) :=
    ⟨(stop - start).toNat - text.length - 1, by omega⟩
  have htext : (List.range text.length).map (fun j : ℕ => buffer (start + j)) = text := by
    apply List.ext_getElem
    · rw [List.length_map, List.length_range]
    · intro k _ hk
      rw [List.getElem_map, List.getElem_range]
      exact h.chars k hk
  have hnul : buffer (start + (text.length + 0 : ℕ)) = 0 := h.nul
  rw [bufferString_eq_map, hrest, List.range_add, List.map_append, htext,
    List.takeWhile_append_of_pos fun c hc => decide_eq_true (h.ne_nul c hc), List.range_succ_eq_map,
    List.map_cons, List.map_cons, hnul, List.takeWhile_cons_of_neg (by decide), List.append_nil]

/-- What the loop leaves in an empty buffer: the numeral, and where it starts. -/
theorem holdsString_digitLoop (hbase : 1 < base) (hdigit : ∀ x < base, digit x ≠ 0)
    {fuel value : ℕ} (hfuel : value < base ^ fuel) (hne : value ≠ 0) (i : ℤ) :
    let (start, buffer) := digitLoop base digit fuel value i fun _ => 0
    HoldsString buffer (start + 1) ((numeral base value).map digit) ∧
      start + 1 + ((numeral base value).map digit).length = i + 1 := by
  rw [digitLoop_eq hbase hfuel, numeral_of_ne_zero hne, List.map_reverse]
  have hchars : ∀ c ∈ (Nat.digits base value).map digit, c ≠ 0 := by
    intro c hc
    obtain ⟨x, hx, rfl⟩ := List.mem_map.1 hc
    exact hdigit x (Nat.digits_lt_base hbase hx)
  have hholds := @holdsString_storeBack _ i (fun _ => 0) hchars rfl
  rw [List.length_map, add_sub_right_comm] at hholds
  refine ⟨hholds, ?_⟩
  rw [List.length_reverse, List.length_map]
  omega

section Fits

variable {size : ℕ} {value : UInt64}
variable (hbase : 1 < base) (hfits : value.toNat < base ^ (size - 1)) (hsize : size < 66)
  (hdigit : ∀ x < base, digit x ≠ 0) (hzero : digit 0 = 48)

include hbase hfits hsize

/-- With 64 rounds there are enough digits for every base. -/
theorem toNat_lt_pow {fuel : ℕ} (hfuel : 64 ≤ fuel) : value.toNat < base ^ fuel :=
  hfits.trans_le (Nat.pow_le_pow_right (Nat.zero_lt_of_lt hbase) (by omega))

include hdigit hzero

/-- A number that fits its buffer is printed. -/
theorem Tty.printNumber_eq (d : Display) (t : Tty) (color : ℕ) :
    t.printNumber d base digit size value color =
      t.print d ((numeral base value.toNat).map digit) color := by
  rw [Tty.printNumber]
  by_cases hvalue : value = 0
  · rw [if_pos hvalue, hvalue, UInt64.toNat_zero, numeral, if_pos rfl, List.map_singleton, hzero]
    rfl
  · have hfuel := toNat_lt_pow hbase hfits hsize le_rfl
    obtain ⟨hholds, hend⟩ := holdsString_digitLoop hbase hdigit hfuel
      (fun h => hvalue (UInt64.toNat_inj.1 h)) (size - 2)
    rw [if_neg hvalue]
    exact congrArg (fun text => t.print d text color) (bufferString_eq hholds (by omega))

/-- A buffer with a byte for each digit and one for the NUL is large enough. -/
theorem printsNumeral_of_lt :
    PrintsNumeral (fun d t value color => t.printNumber d base digit size value color) base digit
      size value := by
  have hlength : (Nat.digits base value.toNat).length ≤ size - 1 :=
    (Nat.digits_length_le_iff hbase _).2 hfits
  have hfuel : value.toNat < base ^ 64 := toNat_lt_pow hbase hfits hsize le_rfl
  refine ⟨fun fuel i buffer hle => ?_, fun buffer j => ?_, numeral base value.toNat,
    isNumeral_numeral hbase value.toNat, fun d t color => ?_, fun hvalue => ?_⟩
  · rw [digitLoop_eq hbase (toNat_lt_pow hbase hfits hsize hle), digitLoop_eq hbase hfuel]
  · rw [digitLoop_eq hbase hfuel, ← not_imp_not]
    intro hout
    apply not_not.2
    apply storeBack_of_outside
    rw [List.length_map]
    omega
  · exact Tty.printNumber_eq hbase hfits hsize hdigit hzero d t color
  · exact (holdsString_digitLoop hbase hdigit hfuel (fun h => hvalue (UInt64.toNat_inj.1 h)) _).1

end Fits

/-- `print_dec` prints the decimal numeral. -/
theorem Tty.printDec_eq (d : Display) (t : Tty) (value : UInt64) (color : ℕ) :
    t.printDec d value color = t.print d ((numeral 10 value.toNat).map decChar) color :=
  Tty.printNumber_eq (by decide) (value.toNat_lt.trans (by decide)) (by decide) (by decide) rfl d t
    color

/-- Both calls print the numeral of every 64-bit value. -/
theorem printDec_printHex_numeral (value : UInt64) :
    PrintsNumeral (fun d t => t.printDec d) 10 decChar 21 value ∧
      PrintsNumeral (fun d t => t.printHex d) 16 hexChar 17 value := by
  have hlt := value.toNat_lt
  exact ⟨printsNumeral_of_lt (by decide) (hlt.trans (by decide)) (by decide) (by decide) rfl,
    printsNumeral_of_lt (by decide) hlt (by decide) (by decide) rfl⟩

end Orionis.Console
