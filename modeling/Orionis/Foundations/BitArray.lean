import Mathlib.Data.Nat.Bitwise
import Orionis.Foundations.ByteMemory

/-!
# Arrays of bits in memory

Bit `i` of an array is bit `i % 8` of its byte `i / 8`. Setting or clearing one bit leaves
the others as they are.
-/

namespace Orionis.Foundations

/-- `1 << (i % 8)`, as a byte. -/
def bitMask (i : ℕ) : UInt8 := UInt8.ofNat (1 <<< (i % 8))

/-- Is bit `i` of the array at `base` set? -/
def testBit (m : Memory) (base i : ℕ) : Bool := m (base + i / 8) &&& bitMask i != 0

/-- Set bit `i` of the array at `base`. -/
def setBit (m : Memory) (base i : ℕ) : Memory :=
  Function.update m (base + i / 8) (m (base + i / 8) ||| bitMask i)

/-- Clear bit `i` of the array at `base`. -/
def clearBit (m : Memory) (base i : ℕ) : Memory :=
  Function.update m (base + i / 8) (m (base + i / 8) &&& ~~~bitMask i)

/-- The mask is a power of two. -/
theorem bitMask_toNat (i : ℕ) : (bitMask i).toNat = 2 ^ (i % 8) := by
  have hlt : 2 ^ (i % 8) < 2 ^ 8 := Nat.pow_lt_pow_right (by decide) (Nat.mod_lt _ (by decide))
  rw [bitMask, UInt8.toNat_ofNat', Nat.one_shiftLeft, Nat.mod_eq_of_lt hlt]

/-- It has one bit. -/
theorem bitMask_getLsbD (i k : ℕ) : (bitMask i).toBitVec.getLsbD k = decide (i % 8 = k) := by
  rw [BitVec.getLsbD, UInt8.toNat_toBitVec, bitMask_toNat, Nat.testBit_two_pow]

/-- The test reads one bit of one byte. -/
theorem testBit_eq (m : Memory) (base i : ℕ) :
    testBit m base i = (m (base + i / 8)).toBitVec.getLsbD (i % 8) := by
  have hpos := Nat.two_pow_pos (i % 8)
  rw [testBit, BitVec.getLsbD, UInt8.toNat_toBitVec, Bool.eq_iff_iff, bne_iff_ne, Ne,
    ← UInt8.toNat_inj, UInt8.toNat_and, bitMask_toNat, Nat.and_two_pow, UInt8.toNat_zero]
  cases (m (base + i / 8)).toNat.testBit (i % 8) <;> simp

/-- Two bits in the same place of the same byte are the same bit. -/
private theorem eq_of_place {i j : ℕ} (hbyte : j / 8 = i / 8) : i % 8 = j % 8 ↔ j = i := by
  omega

/-- Setting a bit sets this bit and no other. -/
@[simp] theorem testBit_setBit (m : Memory) (base i j : ℕ) :
    testBit (setBit m base i) base j = (decide (j = i) || testBit m base j) := by
  rw [testBit_eq, testBit_eq, setBit]
  by_cases hbyte : j / 8 = i / 8
  · rw [hbyte, Function.update_self, UInt8.toBitVec_or, BitVec.getLsbD_or, bitMask_getLsbD,
      decide_eq_decide.2 (eq_of_place hbyte), Bool.or_comm]
  · have hne : j ≠ i := fun h => hbyte (h ▸ rfl)
    rw [Function.update_of_ne (by omega), decide_eq_false hne, Bool.false_or]

/-- Clearing a bit clears this bit and no other. -/
@[simp] theorem testBit_clearBit (m : Memory) (base i j : ℕ) :
    testBit (clearBit m base i) base j = (!decide (j = i) && testBit m base j) := by
  rw [testBit_eq, testBit_eq, clearBit]
  by_cases hbyte : j / 8 = i / 8
  · have hlt : j % 8 < 8 := Nat.mod_lt _ (by decide)
    rw [hbyte, Function.update_self, UInt8.toBitVec_and, UInt8.toBitVec_not, BitVec.getLsbD_and,
      BitVec.getLsbD_not, bitMask_getLsbD, decide_eq_decide.2 (eq_of_place hbyte),
      decide_eq_true hlt, Bool.true_and, Bool.and_comm]
  · have hne : j ≠ i := fun h => hbyte (h ▸ rfl)
    rw [Function.update_of_ne (by omega), decide_eq_false hne, Bool.not_false, Bool.true_and]

/-- Bits only depend on their own byte. -/
theorem testBit_congr {m m' : Memory} {base i : ℕ} (h : m (base + i / 8) = m' (base + i / 8)) :
    testBit m base i = testBit m' base i := by
  rw [testBit, testBit, h]

/-- All bits of a byte of ones are set. -/
theorem testBit_of_ones {m : Memory} {base i : ℕ} (h : m (base + i / 8) = 0xFF) :
    testBit m base i = true := by
  have hlt : i % 8 < 8 := Nat.mod_lt _ (by decide)
  rw [testBit_eq, h]
  generalize i % 8 = k at hlt
  revert k
  decide

end Orionis.Foundations
