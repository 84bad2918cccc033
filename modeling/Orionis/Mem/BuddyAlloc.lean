import Orionis.Mem.BuddySafety

/-!
# What `buddy_alloc` does to the free lists

Where the free lists are well formed, `buddy_alloc` takes the first block of the smallest
non-empty order and lists the upper halves it cuts off, one in each order below, or finds
all orders empty and changes nothing. A merge into null can put any number in a list head,
and `buddy_alloc` then hands out that number.
-/

namespace Orionis.Mem

open Orionis.Foundations

/-! ## The order of a request -/

/-- The block size is the power of the order, as far as 64 bits hold it. -/
private theorem le_of_getOrderLoop {size fuel order o : ℕ}
    (h : getOrderLoop size fuel order (2 ^ order % 2 ^ 64) = some o) : size ≤ 2 ^ o := by
  induction fuel generalizing order with
  | zero => cases h
  | succ fuel ih =>
    rw [getOrderLoop, Nat.mod_mul_mod, ← pow_succ] at h
    split at h
    · exact ih h
    · next hfits =>
      obtain rfl := Option.some.inj h
      exact (Nat.le_of_not_lt hfits).trans (Nat.mod_le _ _)

/-- Blocks of the order are large enough. -/
theorem le_of_getOrder {size o : ℕ} (h : getOrder size = some o) : size ≤ 2 ^ o :=
  @le_of_getOrderLoop size 64 minOrder o h

/-! ## The memory and the heads that splitting writes -/

/-- Splitting writes into the block only, and changes the heads of the orders below it. -/
theorem splitBlock_frame (block : ℕ) {order i : ℕ} (s : Buddy) (hlo : minOrder ≤ order)
    (hhi : i ≤ maxOrder) (hend : block + 2 ^ i ≤ 2 ^ 64) :
    (∀ x, ¬ (block ≤ x ∧ x < block + 2 ^ i) → (splitBlock block order i s).mem x = s.mem x) ∧
      ∀ k, minOrder ≤ k → k < order ∨ i ≤ k →
        (splitBlock block order i s).freeList (k - minOrder) = s.freeList (k - minOrder) := by
  induction i generalizing s with
  | zero => exact ⟨fun _ _ => rfl, fun _ _ _ => rfl⟩
  | succ i ih =>
    rw [splitBlock]
    split
    · next hlt =>
      have hdouble : 2 ^ (i + 1) = 2 ^ i + 2 ^ i := by rw [pow_succ]; omega
      have hroom : 2 ^ 3 ≤ 2 ^ i := Nat.pow_le_pow_right (by decide) (by simp [minOrder] at hlo; omega)
      have haddr : (block + sizeForOrder i) % 2 ^ 64 = block + 2 ^ i := by
        rw [sizeForOrder_eq (by omega), Nat.mod_eq_of_lt (by omega)]
      rw [haddr]
      obtain ⟨hmem, hheads⟩ := ih (s.insertBlock i (block + 2 ^ i)) (by omega) (by omega)
      constructor
      · intro x hx
        rw [hmem x (by omega)]
        exact storeLE_of_outside _ _ _ _ _ (by omega)
      · intro k hk hout
        rw [hheads k hk (by omega)]
        exact Function.update_of_ne (by omega) _ _
    · exact ⟨fun _ _ => rfl, fun _ _ _ => rfl⟩

/-! ## One allocation -/

/-- What taking the first block of order `i` and splitting it down to `order` changes. -/
structure Buddy.Splits (s : Buddy) (lists : ℕ → List ℕ) (order i block : ℕ) (post : List ℕ)
    (t : Buddy) : Prop where
  removed : lists i = block :: post
  block_ne : block ≠ 0
  aligned : 2 ^ order ∣ block
  lists_eq : t.Spells (splitLists block order i (Function.update lists i post))
  heads : ∀ k, minOrder ≤ k → k ≤ maxOrder → k < order ∨ i < k →
    t.freeList (k - minOrder) = s.freeList (k - minOrder)
  mem_eq : ∀ x, x ∉ (⟨block, i⟩ : Block).bytes → t.mem x = s.mem x
  used : t.buddyUsedPages = (s.buddyUsedPages + 2 ^ (order - minOrder)) % 2 ^ 64
  managed : t.buddyTotalManagedPages = s.buddyTotalManagedPages
  total : t.totalPhysicalPages = s.totalPhysicalPages

/-- What `buddy_alloc` does with a request of the given order. -/
structure Buddy.AllocExact (s : Buddy) (lists : ℕ → List ℕ) (size order : ℕ) : Prop where
  size_le : size ≤ 2 ^ order
  null_iff : (∃ t, buddyAlloc s size = some (0, t)) ↔
    ∀ k, order ≤ k → k ≤ maxOrder → lists k = []
  null_same : ∀ t, buddyAlloc s size = some (0, t) → t = s
  large : 2 ^ maxOrder < size → buddyAlloc s size = some (0, s)
  splits : ∀ i, order ≤ i → i ≤ maxOrder → lists i ≠ [] →
    (∀ k, order ≤ k → k < i → lists k = []) →
      ∃ block post t, buddyAlloc s size = some (block, t) ∧ s.Splits lists order i block post t

section Alloc

variable {map : StivaleMap} {s : Buddy} {lists : ℕ → List ℕ} {rest : Extent} {order size : ℕ}

/-- A list is empty just if its head is null. -/
theorem Tiled.head_eq_zero_iff (ht : Tiled map s lists rest) {k : ℕ} (hlo : minOrder ≤ k)
    (hhi : k ≤ maxOrder) : s.freeList (k - minOrder) = 0 ↔ lists k = [] := by
  constructor
  · exact ht.list_of_head_eq hlo hhi
  · intro hl
    have hlinks := ht.links k hlo hhi
    rwa [hl, links_nil] at hlinks

/-- Splitting the first block of a list touches nothing else. -/
theorem Tiled.splits (ht : Tiled map s lists rest) (hlo : minOrder ≤ order) {i : ℕ}
    (hle : order ≤ i) (hhi : i ≤ maxOrder) (hne : s.freeList (i - minOrder) ≠ 0) :
    let block := s.freeList (i - minOrder)
    let t := splitBlock block order i (s.write (.head i) (nextOf s.mem block))
    ∃ post, s.Splits lists order i block post
      { t with
        buddyUsedPages := (t.buddyUsedPages + sizeForOrder order / pageSize) % 2 ^ 64 } := by
  obtain ⟨post, hl, haligned, hend, hsplit, -⟩ := ht.splitFirst hlo hle hhi hne
  generalize s.freeList (i - minOrder) = block at *
  obtain ⟨htot, hused, hman⟩ := splitBlock_counters block order i
    (s := s.write (.head i) (nextOf s.mem block))
  obtain ⟨hbytes, hheads⟩ := splitBlock_frame block
    (s.write (.head i) (nextOf s.mem block)) hlo hhi hend
  refine ⟨post, hl, hne, (pow_dvd_pow 2 hle).trans haligned, hsplit.spells, ?_, ?_, ?_, hman, htot⟩
  · intro k hklo hkhi hout
    refine (hheads k hklo (by omega)).trans ?_
    exact Function.update_of_ne (by omega) _ _
  · intro x hx
    apply hbytes x
    intro hin
    exact hx (Block.mem_bytes.2 hin)
  · change (_ + sizeForOrder order / pageSize) % 2 ^ 64 = _
    rw [hused, sizeForOrder_eq (hle.trans hhi)]
    change (s.buddyUsedPages + 2 ^ order / 2 ^ minOrder) % 2 ^ 64 = _
    rw [Nat.pow_div hlo (by decide)]

/-- On well-formed free lists `buddy_alloc` splits exactly or changes nothing. -/
theorem Tiled.allocExact (ht : Tiled map s lists rest) (horder : getOrder size = some order) :
    s.AllocExact lists size order := by
  have hlo := (getOrder_bounds horder).1
  have hsize := le_of_getOrder horder
  have hrun : buddyAlloc s size = some (allocFrom order (maxOrder + 1 - order) order s) := by
    rw [buddyAlloc, horder]
    rfl
  have hempty (k : ℕ) (hk : order ≤ k) (hhi : k ≤ maxOrder) :
      s.freeList (k - minOrder) = 0 ↔ lists k = [] := ht.head_eq_zero_iff (hlo.trans hk) hhi
  rcases allocFrom_cases order (maxOrder + 1 - order) order s with
    ⟨hnull, heq⟩ | ⟨k, hk, hlt, hnull, hne, heq⟩
  · rw [heq] at hrun
    have hlists : ∀ k, order ≤ k → k ≤ maxOrder → lists k = [] := fun k hk hhi =>
      (hempty k hk hhi).1 (hnull k hk (by omega))
    refine ⟨hsize, ⟨fun _ => hlists, fun _ => ⟨s, hrun⟩⟩, ?_, fun _ => hrun, ?_⟩
    · intro t ht
      rw [hrun] at ht
      exact (Prod.mk.inj (Option.some.inj ht)).2.symm
    · intro i hi hhi hfull
      exact absurd (hlists i hi hhi) hfull
  · have hhi : k ≤ maxOrder := by omega
    obtain ⟨post, hsplits⟩ := ht.splits hlo hk hhi hne
    rw [heq] at hrun
    have hanswer {t : Buddy} (ht : buddyAlloc s size = some (0, t)) : False := by
      rw [hrun] at ht
      exact hne (Prod.mk.inj (Option.some.inj ht)).1
    have hfull : lists k ≠ [] := mt (hempty k hk hhi).2 hne
    refine ⟨hsize, ⟨?_, ?_⟩, fun t ht => (hanswer ht).elim, ?_, ?_⟩
    · intro ⟨t, ht⟩
      exact (hanswer ht).elim
    · intro hlists
      exact absurd (hlists k hk hhi) hfull
    · intro hlarge
      have hpow : 2 ^ order ≤ 2 ^ maxOrder := Nat.pow_le_pow_right (by decide) (hk.trans hhi)
      omega
    · intro i hi hihi hifull hbelow
      have hik : i = k := by
        rcases Nat.lt_trichotomy i k with hlt | heq | hgt
        · exact absurd ((hempty i hi hihi).1 (hnull i hi hlt)) hifull
        · exact heq
        · exact absurd (hbelow k hk hgt) hfull
      subst hik
      exact ⟨_, post, _, hrun, hsplits⟩

end Alloc

/-! ## Main results -/

/-- In every heap reached without merging into null, `buddy_alloc` splits exactly and fails
without a trace, for every size on which `get_order` returns. -/
theorem Heap.allocExact_of_run {map : StivaleMap} {s : Buddy} {calls : List Call} {h : Heap}
    (hrun : Run (guarded MergeAvoidsNull HeapStep) (Heap.start map s) calls h) :
    ∃ lists, h.buddy.Spells lists ∧
      ∀ size order, getOrder size = some order → h.buddy.AllocExact lists size order := by
  obtain ⟨lists, hi, -⟩ := Heap.inv_of_run hrun
  exact ⟨lists, hi.tiled.spells, fun size order horder => hi.tiled.allocExact horder⟩

/-- Two allocations and one free on a map from 1 MiB on. -/
theorem Heap.allocExact_of_run_highMap : ∃ h : Heap, h.out = [⟨0x101000, 100⟩] ∧
    ∃ lists, h.buddy.Spells lists ∧
      ∀ size order, getOrder size = some order → h.buddy.AllocExact lists size order := by
  obtain ⟨h, hrun, hout⟩ := highMap_run
  exact ⟨h, hout, Heap.allocExact_of_run hrun⟩

/-- A memory that holds something at null, as the interrupt vectors of the boot firmware. -/
def Buddy.vectors : Buddy := { Buddy.blank with mem := fun x => if x = 0 then 0x53 else 0 }

/-- After the page at `0x1000` has been given back, the word at null is handed out. -/
theorem Heap.not_allocExact_lowMap : ∃ h, Run HeapStep (Heap.start lowMap Buddy.vectors)
    [.alloc 4096, .free 0x1000 4096] h ∧ (∃ t, buddyAlloc h.buddy 4096 = some (0x53, t)) ∧
      ¬ ∃ lists, h.buddy.Spells lists ∧
        ∀ size order, getOrder size = some order → h.buddy.AllocExact lists size order := by
  have hcalls : ∃ h, execute (fun _ _ => True) (Heap.call 1) (Heap.start lowMap Buddy.vectors)
      [.alloc 4096, .free 0x1000 4096] = some h ∧ h.buddy.freeList 0 = 0x53 := ⟨_, rfl, by decide⟩
  obtain ⟨h, hcalls, hhead⟩ := hcalls
  have horder : getOrder 4096 = some minOrder := by decide
  refine ⟨h, Heap.run_of_calls hcalls, ?_, ?_⟩
  · rw [buddyAlloc, horder]
    change ∃ t, some (allocFrom minOrder 5 minOrder h.buddy) = some (0x53, t)
    rw [allocFrom]
    simp only [Nat.sub_self, hhead]
    exact ⟨_, rfl⟩
  · intro hall
    obtain ⟨lists, hspells, hexact⟩ := hall
    have hlinks := (hspells minOrder le_rfl (by decide)).1
    rw [Nat.sub_self, hhead] at hlinks
    have hfull : lists minOrder ≠ [] := by
      intro hl
      rw [hl, links_nil] at hlinks
      exact absurd hlinks (by decide)
    obtain ⟨block, post, t, -, hsplits⟩ := (hexact 4096 minOrder horder).splits minOrder le_rfl
      (by decide) hfull fun k hk hlt => absurd hlt (by omega)
    have haligned := hsplits.aligned
    rw [hsplits.removed, links_cons] at hlinks
    rw [← hlinks.1] at haligned
    exact absurd haligned (by decide)

end Orionis.Mem
