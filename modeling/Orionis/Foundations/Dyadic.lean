import Mathlib.Algebra.BigOperators.Group.List.Basic
import Mathlib.Algebra.Group.Prod
import Mathlib.Data.Nat.Bitwise
import Mathlib.Data.Set.Lattice
import Mathlib.Order.CompletePartialOrder
import Mathlib.Order.Interval.Set.Basic
import Mathlib.Tactic.Ring

/-!
# Dyadic blocks

A block of order `k` is a run of `2 ^ k` numbers starting at a multiple of `2 ^ k`. Two
such blocks are nested or disjoint, a block and its buddy make up their parent, and a
family of blocks in which no two buddies occur is determined by the numbers it covers.

Coverage is counted rather than only tested: the extent of a list of blocks says how many
of them hold each number, so that splitting, merging and moving blocks are equations.
-/

namespace Orionis.Foundations

/-- The run of `2 ^ order` numbers from `addr`. -/
structure Block where
  addr : ℕ
  order : ℕ
  deriving DecidableEq, Repr

namespace Block

/-- The numbers in the block. -/
def bytes (b : Block) : Set ℕ := Set.Ico b.addr (b.addr + 2 ^ b.order)

/-- The block starts at a multiple of its size. -/
def Aligned (b : Block) : Prop := 2 ^ b.order ∣ b.addr

/-- The neighbour that completes the block to one of the next order. -/
def buddy (b : Block) : Block := ⟨b.addr ^^^ 2 ^ b.order, b.order⟩

/-- The block of the next order made of a block and its buddy. -/
def parent (b : Block) : Block := ⟨min b.addr b.buddy.addr, b.order + 1⟩

instance (x : ℕ) (b : Block) : Decidable (x ∈ b.bytes) :=
  inferInstanceAs (Decidable (x ∈ Set.Ico _ _))

instance (b : Block) : Decidable b.Aligned := inferInstanceAs (Decidable (_ ∣ _))

/-- The bytes of a block as bounds. -/
theorem mem_bytes {b : Block} {x : ℕ} : x ∈ b.bytes ↔ b.addr ≤ x ∧ x < b.addr + 2 ^ b.order :=
  Set.mem_Ico

/-- Every block contains its first number. -/
theorem addr_mem (b : Block) : b.addr ∈ b.bytes :=
  mem_bytes.2 ⟨le_rfl, Nat.lt_add_of_pos_right (Nat.two_pow_pos b.order)⟩

/-- Membership in an aligned block only depends on the quotient by its size. -/
theorem mem_bytes_iff_div {b : Block} (hb : b.Aligned) {x : ℕ} :
    x ∈ b.bytes ↔ x / 2 ^ b.order = b.addr / 2 ^ b.order := by
  obtain ⟨q, hq⟩ := hb
  have hpos := Nat.two_pow_pos b.order
  rw [mem_bytes, hq, Nat.mul_div_cancel_left q hpos, Nat.div_eq_iff hpos]
  have hcomm : q * 2 ^ b.order = 2 ^ b.order * q := Nat.mul_comm _ _
  omega

/-- Of two overlapping aligned blocks, the one of smaller order lies inside the other. -/
theorem bytes_subset_of_mem {b c : Block} (hb : b.Aligned) (hc : c.Aligned)
    (horder : b.order ≤ c.order) {x : ℕ} (hxb : x ∈ b.bytes) (hxc : x ∈ c.bytes) :
    b.bytes ⊆ c.bytes := by
  intro y hy
  rw [mem_bytes_iff_div hb] at hxb hy
  rw [mem_bytes_iff_div hc] at hxc ⊢
  have hsplit : 2 ^ c.order = 2 ^ b.order * 2 ^ (c.order - b.order) := by
    rw [← pow_add, Nat.add_sub_cancel' horder]
  rw [← hxc, hsplit, ← Nat.div_div_eq_div_mul, ← Nat.div_div_eq_div_mul, hy, hxb]

/-- Overlapping aligned blocks of one order are equal. -/
theorem eq_of_mem {b c : Block} (hb : b.Aligned) (hc : c.Aligned) (horder : b.order = c.order)
    {x : ℕ} (hxb : x ∈ b.bytes) (hxc : x ∈ c.bytes) : b = c := by
  have hbc := bytes_subset_of_mem hb hc horder.le hxb hxc b.addr_mem
  have hcb := bytes_subset_of_mem hc hb horder.ge hxc hxb c.addr_mem
  have haddr : b.addr = c.addr := le_antisymm (mem_bytes.1 hcb).1 (mem_bytes.1 hbc).1
  cases b
  cases c
  simp_all

/-- A block inside another one has at most its order. -/
theorem order_le_of_subset {b c : Block} (h : b.bytes ⊆ c.bytes) : b.order ≤ c.order := by
  have hfirst := mem_bytes.1 (h b.addr_mem)
  have hlast : b.addr + 2 ^ b.order - 1 ∈ b.bytes := by
    have hpos := Nat.two_pow_pos b.order
    exact mem_bytes.2 ⟨by omega, by omega⟩
  have hend := mem_bytes.1 (h hlast)
  have hsize : 2 ^ b.order ≤ 2 ^ c.order := by omega
  exact (Nat.pow_le_pow_iff_right (by decide)).1 hsize

@[simp] theorem buddy_order (b : Block) : b.buddy.order = b.order := rfl

@[simp] theorem parent_order (b : Block) : b.parent.order = b.order + 1 := rfl

/-- Taking the buddy twice gives the block back. -/
@[simp] theorem buddy_buddy (b : Block) : b.buddy.buddy = b := by
  simp [buddy]

/-- The buddy of a block that starts a parent is the next block. -/
theorem buddy_addr_of_dvd {b : Block} (h : 2 ^ (b.order + 1) ∣ b.addr) :
    b.buddy.addr = b.addr + 2 ^ b.order := by
  obtain ⟨q, hq⟩ := h
  have heven : b.addr = (2 * q) <<< b.order := by rw [hq, Nat.shiftLeft_eq, pow_succ]; ring
  have hone : 2 ^ b.order = 1 <<< b.order := by rw [Nat.shiftLeft_eq, one_mul]
  change b.addr ^^^ 2 ^ b.order = _
  rw [heven, hone, ← Nat.shiftLeft_xor_distrib, Nat.xor_one_of_even (by simp),
    Nat.shiftLeft_eq, Nat.shiftLeft_eq, Nat.shiftLeft_eq]
  ring

/-- The buddy of a block that ends a parent is the previous block. -/
theorem buddy_addr_of_not_dvd {b : Block} (hb : b.Aligned) (h : ¬ 2 ^ (b.order + 1) ∣ b.addr) :
    b.buddy.addr + 2 ^ b.order = b.addr ∧ 2 ^ (b.order + 1) ∣ b.buddy.addr := by
  obtain ⟨q, hq⟩ := hb
  have hodd : Odd q := by
    rw [← Nat.not_even_iff_odd]
    intro hall
    obtain ⟨r, hr⟩ := hall
    exact h ⟨r, by rw [hq, hr, pow_succ]; ring⟩
  obtain ⟨r, hr⟩ := hodd
  have hshift : b.addr = q <<< b.order := by rw [hq, Nat.shiftLeft_eq, Nat.mul_comm]
  have hone : 2 ^ b.order = 1 <<< b.order := by rw [Nat.shiftLeft_eq, one_mul]
  have hbuddy : b.buddy.addr = 2 * r * 2 ^ b.order := by
    change b.addr ^^^ 2 ^ b.order = _
    rw [hshift, hone, ← Nat.shiftLeft_xor_distrib, Nat.xor_one_of_odd ⟨r, hr⟩, hr,
      Nat.add_sub_cancel, Nat.shiftLeft_eq, Nat.shiftLeft_eq, one_mul]
  refine ⟨?_, ⟨r, ?_⟩⟩
  · rw [hbuddy, hq, hr]
    ring
  · rw [hbuddy, pow_succ]
    ring

/-- The parent starts at the lower of the two buddies and both are aligned. -/
theorem parent_cases {b : Block} (hb : b.Aligned) :
    (b.parent.addr = b.addr ∧ b.buddy.addr = b.addr + 2 ^ b.order ∧ 2 ^ (b.order + 1) ∣ b.addr) ∨
      (b.parent.addr = b.buddy.addr ∧ b.addr = b.buddy.addr + 2 ^ b.order ∧
        2 ^ (b.order + 1) ∣ b.buddy.addr) := by
  by_cases hdvd : 2 ^ (b.order + 1) ∣ b.addr
  · have hbuddy := buddy_addr_of_dvd hdvd
    exact Or.inl ⟨min_eq_left (by omega), hbuddy, hdvd⟩
  · obtain ⟨hsum, hdvd'⟩ := buddy_addr_of_not_dvd hb hdvd
    exact Or.inr ⟨min_eq_right (by omega), hsum.symm, hdvd'⟩

/-- The parent of an aligned block is aligned. -/
theorem parent_aligned {b : Block} (hb : b.Aligned) : b.parent.Aligned := by
  unfold Aligned
  rcases parent_cases hb with ⟨haddr, -, hdvd⟩ | ⟨haddr, -, hdvd⟩ <;> rwa [haddr]

/-- The buddy of an aligned block is aligned. -/
theorem buddy_aligned {b : Block} (hb : b.Aligned) : b.buddy.Aligned := by
  unfold Aligned
  rcases parent_cases hb with ⟨-, hbuddy, -⟩ | ⟨-, -, hdvd⟩
  · rw [hbuddy]
    exact (Nat.dvd_add_right hb).2 dvd_rfl
  · exact (pow_dvd_pow 2 (Nat.le_succ _)).trans hdvd

/-- The parent consists of exactly the block and its buddy. -/
theorem mem_parent {b : Block} (hb : b.Aligned) {x : ℕ} :
    x ∈ b.parent.bytes ↔ x ∈ b.bytes ∨ x ∈ b.buddy.bytes := by
  rw [mem_bytes, mem_bytes, mem_bytes, parent_order, buddy_order, pow_succ]
  rcases parent_cases hb with ⟨haddr, hbuddy, -⟩ | ⟨haddr, hbuddy, -⟩ <;> omega

/-- A block and its buddy do not overlap. -/
theorem not_mem_buddy {b : Block} (hb : b.Aligned) {x : ℕ} (hx : x ∈ b.bytes) :
    x ∉ b.buddy.bytes := by
  rw [mem_bytes] at hx ⊢
  rw [buddy_order]
  rcases parent_cases hb with ⟨-, hbuddy, -⟩ | ⟨-, hbuddy, -⟩ <;> omega

/-- An aligned block is the lower half of its parent when it starts at a multiple of the
parent's size. -/
theorem parent_lower {a k : ℕ} (h : 2 ^ (k + 1) ∣ a) : parent ⟨a, k⟩ = ⟨a, k + 1⟩ := by
  have hbuddy := buddy_addr_of_dvd (b := ⟨a, k⟩) h
  simp only [parent, hbuddy, Nat.le_add_right, min_eq_left]

/-- The buddy of a lower half is the upper one. -/
theorem buddy_lower {a k : ℕ} (h : 2 ^ (k + 1) ∣ a) : buddy ⟨a, k⟩ = ⟨a + 2 ^ k, k⟩ := by
  have hbuddy := buddy_addr_of_dvd (b := ⟨a, k⟩) h
  simp only [buddy] at hbuddy ⊢
  rw [hbuddy]

end Block

/-! ## Extents -/

/-- How often each number is held, and how many numbers are held in all. -/
abbrev Extent := (ℕ → ℕ) × ℕ

/-- The extent of the `length` numbers from `first`. -/
def runExtent (first length : ℕ) : Extent :=
  (fun x => if first ≤ x ∧ x < first + length then 1 else 0, length)

/-- A run can be cut anywhere. -/
theorem runExtent_add (first left right : ℕ) :
    runExtent first (left + right) = runExtent first left + runExtent (first + left) right := by
  refine Prod.ext (funext fun x => ?_) rfl
  simp only [runExtent, Prod.fst_add, Pi.add_apply]
  split_ifs <;> omega

@[simp] theorem runExtent_zero (first : ℕ) : runExtent first 0 = 0 := by
  refine Prod.ext (funext fun x => ?_) rfl
  simp only [runExtent, Prod.fst_zero, Pi.zero_apply]
  split_ifs <;> omega

/-- The extent of one block. -/
def Block.extent (b : Block) : Extent := runExtent b.addr (2 ^ b.order)

/-- A block covers each of its bytes once. -/
theorem Block.extent_count (b : Block) (x : ℕ) :
    b.extent.1 x = if x ∈ b.bytes then 1 else 0 := by
  simp only [Block.extent, runExtent, Block.mem_bytes]

/-- A parent has the extents of its two halves together. -/
theorem Block.extent_parent {b : Block} (hb : b.Aligned) :
    b.parent.extent = b.extent + b.buddy.extent := by
  have hsize : 2 ^ (b.order + 1) = 2 ^ b.order + 2 ^ b.order := by rw [pow_succ, Nat.mul_two]
  rcases Block.parent_cases hb with ⟨haddr, hbuddy, -⟩ | ⟨haddr, hbuddy, -⟩
  · simp only [Block.extent, haddr, Block.parent_order, Block.buddy_order, hbuddy, hsize,
      runExtent_add]
  · rw [add_comm]
    simp only [Block.extent, haddr, Block.parent_order, Block.buddy_order, hsize,
      runExtent_add]
    rw [← hbuddy]

/-- The extent of a list of blocks, overlaps counted. -/
def extent (blocks : List Block) : Extent := (blocks.map Block.extent).sum

@[simp] theorem extent_nil : extent [] = 0 := rfl

@[simp] theorem extent_cons (b : Block) (blocks : List Block) :
    extent (b :: blocks) = b.extent + extent blocks := rfl

@[simp] theorem extent_append (left right : List Block) :
    extent (left ++ right) = extent left + extent right := by
  simp [extent]

/-- What blocks cover does not depend on their order. -/
theorem extent_perm {left right : List Block} (h : left.Perm right) :
    extent left = extent right :=
  (h.map _).sum_eq

/-- The size component adds up the sizes of the blocks. -/
theorem extent_size (blocks : List Block) :
    (extent blocks).2 = (blocks.map fun b => 2 ^ b.order).sum := by
  induction blocks with
  | nil => rfl
  | cons b blocks ih => simp [ih, Block.extent, runExtent]

/-- A byte is covered when a block has it. -/
theorem extent_count_pos {blocks : List Block} {x : ℕ} :
    0 < (extent blocks).1 x ↔ ∃ b ∈ blocks, x ∈ b.bytes := by
  induction blocks with
  | nil => simp
  | cons b blocks ih =>
    rw [extent_cons, Prod.fst_add, Pi.add_apply, Nat.add_pos_iff_pos_or_pos, ih, Block.extent_count]
    by_cases hx : x ∈ b.bytes <;> simp [hx]

/-- Counts of at most one mean that the listed blocks are pairwise disjoint. -/
theorem pairwise_disjoint_of_extent_le_one {blocks : List Block}
    (h : ∀ x, (extent blocks).1 x ≤ 1) :
    blocks.Pairwise fun b c => Disjoint b.bytes c.bytes := by
  induction blocks with
  | nil => exact List.Pairwise.nil
  | cons b blocks ih =>
    have hcons (x : ℕ) : (if x ∈ b.bytes then 1 else 0) + (extent blocks).1 x ≤ 1 := by
      have hx := h x
      rwa [extent_cons, Prod.fst_add, Pi.add_apply, Block.extent_count] at hx
    apply List.Pairwise.cons
    · intro c hc
      apply Set.disjoint_left.2
      intro x hxb hxc
      have hpos : 0 < (extent blocks).1 x := extent_count_pos.2 ⟨c, hc, hxc⟩
      have hx := hcons x
      rw [if_pos hxb] at hx
      omega
    · exact ih fun x => (Nat.le_add_left _ _).trans (hcons x)

/-! ## Families without two free buddies -/

/-- A family of aligned blocks that pairwise do not overlap, of orders from `low` to `high`. -/
structure DisjointFamily (low high : ℕ) (family : Set Block) : Prop where
  aligned : ∀ b ∈ family, b.Aligned
  order_mem : ∀ b ∈ family, low ≤ b.order ∧ b.order ≤ high
  eq_of_overlap : ∀ b ∈ family, ∀ c ∈ family, ∀ x, x ∈ b.bytes → x ∈ c.bytes → b = c

/-- The numbers covered by a family. -/
def covered (family : Set Block) : Set ℕ := {x | ∃ b ∈ family, x ∈ b.bytes}

/-- No block below the top order has its buddy in the family. -/
def Coalesced (high : ℕ) (family : Set Block) : Prop :=
  ∀ b ∈ family, b.order < high → b.buddy ∉ family

/-- No block is its own buddy. -/
theorem Block.buddy_ne {b : Block} (hb : b.Aligned) : b.buddy ≠ b := by
  intro h
  exact Block.not_mem_buddy hb b.addr_mem (h.symm ▸ b.addr_mem)

/-- Fewer blocks are coalesced, too. -/
theorem Coalesced.mono {high : ℕ} {family other : Set Block} (h : Coalesced high other)
    (hsub : family ⊆ other) : Coalesced high family :=
  fun b hb horder hbuddy => h b (hsub hb) horder (hsub hbuddy)

/-- A block may join if its buddy is absent, or if it has the top order. -/
theorem Coalesced.insert {high : ℕ} {family : Set Block} {b : Block} (h : Coalesced high family)
    (hb : b.Aligned) (hbuddy : b.order < high → b.buddy ∉ family) :
    Coalesced high (insert b family) := by
  intro c hc horder hcb
  cases hc with
  | inl heq =>
    subst heq
    cases hcb with
    | inl hcb =>
      exact Block.buddy_ne hb hcb
    | inr hcb =>
      exact hbuddy horder hcb
  | inr hc =>
    cases hcb with
    | inl hcb =>
      rw [← hcb] at hbuddy
      exact hbuddy horder (by rwa [Block.buddy_buddy])
    | inr hcb =>
      exact h c hc horder hcb

section Families

variable {low high : ℕ} {family other : Set Block}

/-- A covered aligned run lies inside one block of the family, or the family contains two
buddies of a smaller order. -/
theorem DisjointFamily.subset_block_or_buddies (hf : DisjointFamily low high family) (k : ℕ)
    (r : Block) (hr : r.Aligned) (hk : r.order = k) (hcov : r.bytes ⊆ covered family) :
    (∃ b ∈ family, r.bytes ⊆ b.bytes) ∨ ∃ b ∈ family, b.order < k ∧ b.buddy ∈ family := by
  induction k generalizing r with
  | zero =>
    obtain ⟨b, hb, hxb⟩ := hcov r.addr_mem
    exact Or.inl ⟨b, hb, Block.bytes_subset_of_mem hr (hf.aligned b hb) (by omega) r.addr_mem hxb⟩
  | succ k ih =>
    obtain ⟨a, order⟩ := r
    simp only at hk
    subst hk
    -- `l` and its buddy are the two halves of the run
    let l : Block := ⟨a, k⟩
    have hparent : l.parent = ⟨a, k + 1⟩ := Block.parent_lower hr
    have hl : l.Aligned := (pow_dvd_pow 2 (Nat.le_succ k)).trans hr
    have hhalves : ∀ {x}, x ∈ l.bytes ∨ x ∈ l.buddy.bytes → x ∈ (⟨a, k + 1⟩ : Block).bytes := by
      intro x hx
      rw [← hparent]
      exact (Block.mem_parent hl).2 hx
    have hwhole {b : Block} (hb : b ∈ family) (horder : k + 1 ≤ b.order) {x : ℕ}
        (hxr : x ∈ (⟨a, k + 1⟩ : Block).bytes) (hxb : x ∈ b.bytes) :
        ∃ b ∈ family, (⟨a, k + 1⟩ : Block).bytes ⊆ b.bytes :=
      ⟨b, hb, Block.bytes_subset_of_mem hr (hf.aligned b hb) horder hxr hxb⟩
    rcases ih l hl rfl (fun x hx => hcov (hhalves (Or.inl hx))) with ⟨b, hb, hlb⟩ | ⟨b, hb, hlt, hbuddy⟩
    · rcases ih l.buddy (Block.buddy_aligned hl) rfl (fun x hx => hcov (hhalves (Or.inr hx))) with
        ⟨c, hc, hlc⟩ | ⟨c, hc, hlt, hbuddy⟩
      · rcases Nat.lt_or_ge k b.order with hbig | hsmall
        · exact Or.inl (hwhole hb hbig (hhalves (Or.inl l.addr_mem)) (hlb l.addr_mem))
        rcases Nat.lt_or_ge k c.order with hbig | hsmall'
        · exact Or.inl (hwhole hc hbig (hhalves (Or.inr l.buddy.addr_mem)) (hlc l.buddy.addr_mem))
        -- both halves are themselves blocks of the family
        have hbl : b = l := (Block.eq_of_mem hl (hf.aligned b hb)
          (le_antisymm (Block.order_le_of_subset hlb) hsmall) l.addr_mem (hlb l.addr_mem)).symm
        have hcl : c = l.buddy := (Block.eq_of_mem (Block.buddy_aligned hl) (hf.aligned c hc)
          (le_antisymm (Block.order_le_of_subset hlc) hsmall') l.buddy.addr_mem
          (hlc l.buddy.addr_mem)).symm
        exact Or.inr ⟨l, hbl ▸ hb, Nat.lt_succ_self k, hcl ▸ hc⟩
      · exact Or.inr ⟨c, hc, hlt.trans (Nat.lt_succ_self k), hbuddy⟩
    · exact Or.inr ⟨b, hb, hlt.trans (Nat.lt_succ_self k), hbuddy⟩

/-- In a coalesced family every covered aligned run up to the top order lies inside one block. -/
theorem DisjointFamily.subset_block (hf : DisjointFamily low high family)
    (hc : Coalesced high family) {r : Block} (hr : r.Aligned) (horder : r.order ≤ high)
    (hcov : r.bytes ⊆ covered family) : ∃ b ∈ family, r.bytes ⊆ b.bytes := by
  rcases hf.subset_block_or_buddies r.order r hr rfl hcov with h | ⟨b, hb, hlt, hbuddy⟩
  · exact h
  · exact absurd hbuddy (hc b hb (hlt.trans_le horder))

/-- A family covers each of its blocks. -/
theorem subset_covered {b : Block} (hb : b ∈ family) : b.bytes ⊆ covered family :=
  fun _ hx => ⟨b, hb, hx⟩

/-- Coalesced families covering the same numbers are contained in each other. -/
theorem DisjointFamily.mem_of_covered_eq (hf : DisjointFamily low high family)
    (ho : DisjointFamily low high other) (hcf : Coalesced high family) (hco : Coalesced high other)
    (hcov : covered family = covered other) {b : Block} (hb : b ∈ family) : b ∈ other := by
  obtain ⟨c, hc, hbc⟩ := ho.subset_block hco (hf.aligned b hb) (hf.order_mem b hb).2
    (hcov ▸ subset_covered hb)
  obtain ⟨d, hd, hcd⟩ := hf.subset_block hcf (ho.aligned c hc) (ho.order_mem c hc).2
    (hcov ▸ subset_covered hc)
  have hdb : d = b := hf.eq_of_overlap d hd b hb b.addr (hcd (hbc b.addr_mem)) b.addr_mem
  have horder : c.order = b.order :=
    le_antisymm (hdb ▸ Block.order_le_of_subset hcd) (Block.order_le_of_subset hbc)
  exact Block.eq_of_mem (hf.aligned b hb) (ho.aligned c hc) horder.symm b.addr_mem
    (hbc b.addr_mem) ▸ hc

/-- A coalesced family is determined by the numbers it covers. -/
theorem DisjointFamily.eq_of_covered_eq (hf : DisjointFamily low high family)
    (ho : DisjointFamily low high other) (hcf : Coalesced high family) (hco : Coalesced high other)
    (hcov : covered family = covered other) : family = other :=
  Set.ext fun _ => ⟨hf.mem_of_covered_eq ho hcf hco hcov, ho.mem_of_covered_eq hf hco hcf hcov.symm⟩

end Families

end Orionis.Foundations
