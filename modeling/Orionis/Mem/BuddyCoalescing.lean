import Orionis.Mem.BuddySafety

/-!
# The free lists are determined by the bytes that are free

Where no two usable regions abut, no two free blocks below the top order are ever buddies.
The free blocks are then the maximal aligned runs of free bytes, whatever calls led there:
the order of allocations and frees leaves no trace, freeing everything restores what
`buddy_init` built, and a request fails only when no aligned run of its size is free.
-/

namespace Orionis.Mem

open Orionis.Foundations

/-- The bytes the clients hold. -/
def Heap.outBytes (h : Heap) : Set ℕ := {x | ∃ b ∈ h.outBlocks, x ∈ b.bytes}

section Families

variable {map : StivaleMap} {h : Heap} {lists : ℕ → List ℕ}

/-- The free blocks do not overlap. -/
theorem Tiled.disjointFamily {s : Buddy} {rest : Extent} (ht : Tiled map s lists rest) :
    DisjointFamily minOrder maxOrder (freeBlocks lists) where
  aligned := ht.aligned
  order_mem _ hb := ⟨(mem_listedBlocks.1 hb).1, (mem_listedBlocks.1 hb).2.1⟩
  eq_of_overlap _ hb _ hc _ hxb hxc := ht.eq_of_mem hb hc hxb hxc

/-- They cover the usable bytes no client holds. -/
theorem Heap.Inv.covered_freeBlocks (hi : h.Inv map lists) :
    covered (freeBlocks lists) = map.usable \ h.outBytes := by
  have hsafe := hi.safe
  have hdisj := (List.pairwise_append.1 hsafe.disjoint).2.2
  apply Set.ext
  intro x
  constructor
  · intro ⟨b, hb, hx⟩
    refine ⟨(hsafe.covers x).1 ⟨b, List.mem_append_left _ hb, hx⟩, ?_⟩
    intro ⟨c, hc, hxc⟩
    exact Set.disjoint_left.1 (hdisj b hb c hc) hx hxc
  · intro ⟨huse, hout⟩
    obtain ⟨b, hb, hx⟩ := (hsafe.covers x).2 huse
    apply (List.mem_append.1 hb).elim
    · intro hb
      exact ⟨b, hb, hx⟩
    · intro hb
      exact absurd ⟨b, hb, hx⟩ hout

/-- Two heaps with the same bytes held have the same free blocks. -/
theorem Heap.Inv.freeBlocks_eq {h' : Heap} {lists' : ℕ → List ℕ} (hi : h.Inv map lists)
    (hi' : h'.Inv map lists') (hb : NoFreeBuddies lists) (hb' : NoFreeBuddies lists')
    (hout : h.outBytes = h'.outBytes) : freeBlocks lists = freeBlocks lists' := by
  apply hi.tiled.disjointFamily.eq_of_covered_eq hi'.tiled.disjointFamily hb hb'
  rw [hi.covered_freeBlocks, hi'.covered_freeBlocks, hout]

/-- The blocks on the lists of the code are those of the invariant. -/
theorem Heap.Inv.freeBlock_iff (hi : h.Inv map lists) {k a : ℕ} (hlo : minOrder ≤ k)
    (hhi : k ≤ maxOrder) : h.buddy.FreeBlock k a ↔ (⟨a, k⟩ : Block) ∈ freeBlocks lists := by
  rw [hi.tiled.freeBlock_iff hlo hhi]
  exact ⟨fun ha => mem_listedBlocks.2 ⟨hlo, hhi, ha⟩, fun ha => (mem_listedBlocks.1 ha).2.2⟩

end Families

/-! ## Failing requests -/

/-- A size up to that of the largest block gets an order up to the largest. -/
private theorem getOrderLoop_le_max {size fuel order o : ℕ} (hsize : size ≤ 2 ^ maxOrder)
    (horder : order ≤ maxOrder) (h : getOrderLoop size fuel order (2 ^ order) = some o) :
    o ≤ maxOrder := by
  induction fuel generalizing order with
  | zero => simp [getOrderLoop] at h
  | succ fuel ih =>
    rw [getOrderLoop] at h
    split at h
    · -- a block below the request is below the largest block
      next hlt =>
      have hlt' : order < maxOrder :=
        (Nat.pow_lt_pow_iff_right (by decide : 1 < 2)).1 (hlt.trans_le hsize)
      have hdouble : 2 ^ order * 2 % 2 ^ 64 = 2 ^ (order + 1) := by
        rw [← Nat.pow_succ]
        apply Nat.mod_eq_of_lt
        exact Nat.pow_lt_pow_right (by decide) (by simp only [maxOrder] at hlt'; omega)
      rw [hdouble] at h
      exact ih hlt' h
    · obtain rfl := Option.some.inj h
      exact horder

/-- Requests of at most 64 KiB fit a block the allocator manages. -/
theorem getOrder_le_max {size o : ℕ} (hsize : size ≤ 2 ^ maxOrder) (h : getOrder size = some o) :
    o ≤ maxOrder :=
  getOrderLoop_le_max hsize (by decide) h

/-- A request that finds nothing found every list from its order on empty. -/
theorem Tiled.lists_eq_nil_of_alloc {map : StivaleMap} {s b : Buddy} {lists : ℕ → List ℕ}
    {rest : Extent} (ht : Tiled map s lists rest) {size order : ℕ}
    (horder : getOrder size = some order) (hnull : buddyAlloc s size = some (0, b)) {k : ℕ}
    (hk : order ≤ k) (hhi : k ≤ maxOrder) : lists k = [] := by
  have hlo := (getOrder_bounds horder).1
  rw [buddyAlloc, horder, Option.map_some] at hnull
  rcases allocFrom_cases order (maxOrder + 1 - order) order s with ⟨hempty, -⟩ | ⟨k', -, -, -, hne, heq⟩
  · exact ht.list_of_head_eq (hlo.trans hk) hhi (hempty k hk (by omega))
  · rw [heq] at hnull
    exact absurd (Prod.mk.inj (Option.some.inj hnull)).1 hne

/-- A covered aligned run of free bytes makes the request succeed. -/
theorem Heap.Inv.not_free_run {map : StivaleMap} {h : Heap} {lists : ℕ → List ℕ}
    (hi : h.Inv map lists) (hb : NoFreeBuddies lists) {size order : ℕ} {b : Buddy}
    (hsize : size ≤ 2 ^ maxOrder) (horder : getOrder size = some order)
    (hnull : buddyAlloc h.buddy size = some (0, b)) {r : Block} (hr : r.Aligned)
    (hro : r.order = order) : ¬ r.bytes ⊆ map.usable \ h.outBytes := by
  intro hfree
  rw [← hi.covered_freeBlocks] at hfree
  have hmax := getOrder_le_max hsize horder
  obtain ⟨c, hc, hrc⟩ := hi.tiled.disjointFamily.subset_block hb hr (by omega) hfree
  obtain ⟨-, hhi, hmem⟩ := mem_listedBlocks.1 hc
  have hle : order ≤ c.order := hro ▸ Block.order_le_of_subset hrc
  rw [hi.tiled.lists_eq_nil_of_alloc horder hnull hle hhi] at hmem
  exact List.not_mem_nil hmem

/-! ## Main result -/

/-- What the bytes held determine, after a run that merged nowhere into null: the free
blocks of every order, those after start-up when nothing is held, and which requests
fail. -/
structure Heap.Coalesced (map : StivaleMap) (s : Buddy) (h : Heap) : Prop where
  order_independent : ∀ (s' : Buddy) (calls' : List Call) (h' : Heap),
    Run (guarded MergeAvoidsNull HeapStep) (Heap.start map s') calls' h' →
      h.outBytes = h'.outBytes → ∀ k, minOrder ≤ k → k ≤ maxOrder →
        ∀ a, h.buddy.FreeBlock k a ↔ h'.buddy.FreeBlock k a
  restored : h.out = [] → ∀ k, minOrder ≤ k → k ≤ maxOrder →
    ∀ a, h.buddy.FreeBlock k a ↔ (Heap.start map s).buddy.FreeBlock k a
  null_only_if : ∀ size order b, size ≤ 65536 → getOrder size = some order →
    buddyAlloc h.buddy size = some (0, b) →
      ¬ ∃ a, 2 ^ order ∣ a ∧ ∀ x, a ≤ x → x < a + 2 ^ order → x ∈ map.usable ∧ x ∉ h.outBytes

/-- Without abutting regions, merging is complete in every heap reached. -/
theorem Heap.coalesced_of_run {map : StivaleMap} (hmap : map.NoAbutting) {s : Buddy}
    {calls : List Call} {h : Heap}
    (hrun : Run (guarded MergeAvoidsNull HeapStep) (Heap.start map s) calls h) :
    h.Coalesced map s := by
  obtain ⟨lists, hi, hbuddies⟩ := Heap.inv_of_run hrun
  have hindep : ∀ (s' : Buddy) (calls' : List Call) (h' : Heap),
      Run (guarded MergeAvoidsNull HeapStep) (Heap.start map s') calls' h' →
        h.outBytes = h'.outBytes → ∀ k, minOrder ≤ k → k ≤ maxOrder →
          ∀ a, h.buddy.FreeBlock k a ↔ h'.buddy.FreeBlock k a := by
    intro s' calls' h' hrun' hout k hlo hhi a
    obtain ⟨lists', hi', hbuddies'⟩ := Heap.inv_of_run hrun'
    rw [hi.freeBlock_iff hlo hhi, hi'.freeBlock_iff hlo hhi,
      hi.freeBlocks_eq hi' (hbuddies hmap) (hbuddies' hmap) hout]
  refine ⟨hindep, ?_, ?_⟩
  · intro hout
    apply hindep s [] _ (.nil _)
    rw [outBytes, outBytes, outBlocks, hout]
    rfl
  · intro size order b hsize horder hnull hexists
    obtain ⟨a, ha, hfree⟩ := hexists
    apply hi.not_free_run (hbuddies hmap) hsize horder hnull (r := ⟨a, order⟩) ha rfl
    intro x hx
    obtain ⟨hax, hxa⟩ := Block.mem_bytes.1 hx
    exact hfree x hax hxa

/-- The same run has merged what it could. -/
theorem Heap.coalesced_of_run_highMap : ∃ h : Heap, h.out = [⟨0x101000, 100⟩] ∧
    h.Coalesced highMap Buddy.blank := by
  obtain ⟨h, hrun, hout⟩ := highMap_run
  exact ⟨h, hout, Heap.coalesced_of_run (by decide) hrun⟩

/-- With everything given back, the list of single pages is empty where start-up had put
the only page there is. -/
theorem Heap.not_coalesced_lowMap : lowMap.NoAbutting ∧
    ∃ h, Run HeapStep (Heap.start lowMap Buddy.blank) [.alloc 4096, .free 0x1000 4096] h ∧
      h.out = [] ∧ (Heap.start lowMap Buddy.blank).buddy.FreeBlock 12 0x1000 ∧
        ¬ h.buddy.FreeBlock 12 0x1000 := by
  obtain ⟨h, hrun, hout, hheads, -⟩ := lowMap_run
  refine ⟨by decide, h, hrun, hout, ⟨by decide, [], rfl, List.not_mem_nil⟩, ?_⟩
  intro ⟨_, pre, hlinks, hnull⟩
  rw [hheads _ (by decide)] at hlinks
  cases pre with
  | nil => exact absurd (links_nil.1 hlinks) (by decide)
  | cons a pre =>
    rw [← (links_cons.1 hlinks).1] at hnull
    exact hnull List.mem_cons_self

end Orionis.Mem
