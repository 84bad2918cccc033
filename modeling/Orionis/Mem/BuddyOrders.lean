import Orionis.Mem.BuddySteps

/-!
# The orders of requests

`get_order` doubles a 64-bit block size until it reaches the request. The largest size it can reach
is `2 ^ 63`: behind it the block size is zero and stays so, and for a larger request neither
`get_order` nor `buddy_alloc` returns.
-/

namespace Orionis.Mem

/-- The loop of `get_order`, with some number of rounds. -/
def orderAfter (fuel size : ℕ) : Option ℕ := getOrderLoop size fuel minOrder (2 ^ minOrder)

/-- The least order of a block that holds `size` bytes. -/
structure IsLeastOrder (size order : ℕ) : Prop where
  min_le : minOrder ≤ order
  fits : size ≤ 2 ^ order
  least : ∀ o, minOrder ≤ o → size ≤ 2 ^ o → order ≤ o

/-- `get_order` returns the least order, `buddy_alloc` null or the first block of a list, and the
sizes of the orders there are blocks of are exact. -/
structure OrderExact (size : ℕ) : Prop where
  returns : ∃ fuel order, orderAfter fuel size = some order
  least : ∀ fuel order, orderAfter fuel size = some order → IsLeastOrder size order
  answers : ∀ s : Buddy, ∃ block s', buddyAlloc s size = some (block, s') ∧
    (block = 0 ∨ ∃ i, block = s.freeList i)
  sizes : ∀ order, minOrder ≤ order → order ≤ maxOrder → sizeForOrder order = 2 ^ order

variable {size fuel order o : ℕ}

/-! ## The loop -/

/-- There is a least order, and no request of at most `2 ^ 63` bytes needs one above 63. -/
theorem exists_isLeastOrder (h : size ≤ 2 ^ 63) : ∃ order ≤ 63, IsLeastOrder size order := by
  have hsome : ∃ order, minOrder ≤ order ∧ size ≤ 2 ^ order := ⟨63, by decide, h⟩
  refine ⟨Nat.find hsome, Nat.find_min' hsome ⟨by decide, h⟩, ?_⟩
  obtain ⟨hmin, hfits⟩ := Nat.find_spec hsome
  exact ⟨hmin, hfits, fun o hlo hfitsToo => Nat.find_min' hsome ⟨hlo, hfitsToo⟩⟩

/-- The loop counts up to the first order that is large enough, if it is given that many rounds. -/
theorem getOrderLoop_eq (ho : o ≤ 63) (hlo : order ≤ o) (hfits : size ≤ 2 ^ o)
    (hleast : ∀ j, order ≤ j → j < o → 2 ^ j < size) :
    getOrderLoop size fuel order (2 ^ order) = if o < order + fuel then some o else none := by
  induction fuel generalizing order with
  | zero => exact (if_neg (Nat.not_lt_of_le hlo)).symm
  | succ fuel ih =>
    rw [getOrderLoop]
    rcases hlo.eq_or_lt with rfl | hlt
    · rw [if_neg (Nat.not_lt_of_le hfits), if_pos (Nat.lt_add_of_pos_right (Nat.succ_pos fuel))]
    · have hdouble : 2 ^ order * 2 % 2 ^ 64 = 2 ^ (order + 1) := by
        rw [← pow_succ]
        exact Nat.mod_eq_of_lt (Nat.pow_lt_pow_right (by decide) (by omega))
      rw [if_pos (hleast order le_rfl hlt), hdouble,
        ih hlt fun j hj hjo => hleast j (Nat.le_of_succ_le hj) hjo, Nat.succ_add_eq_add_succ]

/-- The loop finds the least order if it has the rounds for it. -/
theorem orderAfter_eq (ho : o ≤ 63) (h : IsLeastOrder size o) (fuel : ℕ) :
    orderAfter fuel size = if o < minOrder + fuel then some o else none := by
  apply getOrderLoop_eq ho h.min_le h.fits
  intro j hj hlt
  by_contra hfits
  exact absurd (h.least j hj (Nat.le_of_not_lt hfits)) (Nat.not_le_of_lt hlt)

/-- The block size never gets beyond `2 ^ 63`. -/
theorem pow_mod_le (order : ℕ) : 2 ^ order % 2 ^ 64 ≤ 2 ^ 63 := by
  by_cases hlt : order < 64
  · exact (Nat.mod_le _ _).trans (Nat.pow_le_pow_right (by decide) (by omega))
  · have hdvd : 2 ^ 64 ∣ 2 ^ order := pow_dvd_pow 2 (Nat.le_of_not_lt hlt)
    rw [Nat.mod_eq_zero_of_dvd hdvd]
    exact Nat.zero_le _

/-- For a larger request the loop goes on for ever. -/
theorem getOrderLoop_eq_none (h : 2 ^ 63 < size) (fuel order : ℕ) :
    getOrderLoop size fuel order (2 ^ order % 2 ^ 64) = none := by
  induction fuel generalizing order with
  | zero => rfl
  | succ fuel ih =>
    have hbelow : 2 ^ order % 2 ^ 64 < size := (pow_mod_le order).trans_lt h
    rw [getOrderLoop, if_pos hbelow, Nat.mod_mul_mod, ← pow_succ]
    exact ih (order + 1)

/-- Above `2 ^ 63` it finds none. -/
theorem orderAfter_eq_none (h : 2 ^ 63 < size) (fuel : ℕ) : orderAfter fuel size = none :=
  getOrderLoop_eq_none h fuel minOrder

/-! ## Requests -/

/-- What is found is the first block of a list. -/
theorem allocFrom_block (s : Buddy) (order count i : ℕ) :
    (allocFrom order count i s).1 = 0 ∨ ∃ j, (allocFrom order count i s).1 = s.freeList j := by
  induction count generalizing i with
  | zero => exact Or.inl rfl
  | succ count ih =>
    rw [allocFrom]
    split
    · exact Or.inr ⟨_, rfl⟩
    · exact ih (i + 1)

/-- An allocation takes the head of a list, or nothing. -/
theorem buddyAlloc_block {s : Buddy} (h : orderAfter 64 size = some order) :
    ∃ block s', buddyAlloc s size = some (block, s') ∧ (block = 0 ∨ ∃ i, block = s.freeList i) := by
  have hcall : buddyAlloc s size = some (allocFrom order (maxOrder + 1 - order) order s) := by
    rw [buddyAlloc, getOrder]
    exact congrArg (Option.map _) h
  exact ⟨_, _, hcall, allocFrom_block s _ _ _⟩

/-! ## Main result -/

/-- So no order is exact there. -/
theorem not_orderExact_of_lt (h : 2 ^ 63 < size) : ¬ OrderExact size := by
  intro hexact
  obtain ⟨fuel, order, hreturns⟩ := hexact.returns
  rw [orderAfter_eq_none h] at hreturns
  exact absurd hreturns (Option.some_ne_none _).symm

/-- `get_order` is right exactly up to half of the address space. -/
theorem orderExact_iff (size : UInt64) : OrderExact size.toNat ↔ size.toNat ≤ 2 ^ 63 := by
  constructor
  · intro hexact
    by_contra hlarge
    exact not_orderExact_of_lt (Nat.lt_of_not_le hlarge) hexact
  · intro hle
    obtain ⟨least, hmax, hleast⟩ := exists_isLeastOrder hle
    have hloop := orderAfter_eq hmax hleast
    have hrounds : orderAfter 64 size.toNat = some least := by
      rw [hloop, if_pos (by omega)]
    refine ⟨⟨64, least, hrounds⟩, fun fuel order hreturns => ?_, fun s => buddyAlloc_block hrounds,
      fun order _ hle => sizeForOrder_eq hle⟩
    rw [hloop] at hreturns
    obtain ⟨-, heq⟩ := Option.ite_none_right_eq_some.1 hreturns
    exact Option.some.inj heq ▸ hleast

/-- A request of one byte more than half of the address space. -/
theorem not_orderExact_half : ¬ ∀ size : UInt64, OrderExact size.toNat := by
  intro hall
  have hlarge : 2 ^ 63 < (UInt64.ofNat (2 ^ 63 + 1)).toNat := by decide
  exact not_orderExact_of_lt hlarge (hall _)

end Orionis.Mem
