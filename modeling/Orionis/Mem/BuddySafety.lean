import Orionis.Mem.BuddyHeap

/-!
# Safety and page accounting of the buddy allocator

In every heap a run reaches, the links in memory spell finite free lists, listed and held
blocks tile usable RAM, and the counters behind `meminfo` agree with the lists. This holds
while no merge reaches a block with a null buddy, and therefore without any condition on
a map whose usable RAM starts at 64 KiB or above. The map of a single page at `0x1000`
shows that the condition is needed: its only page is lost when it is given back.
-/

namespace Orionis.Mem

open Orionis.Foundations

/-- The links in memory lead from every list head through `lists` to null. -/
def Buddy.Spells (s : Buddy) (lists : ℕ → List ℕ) : Prop :=
  ∀ k, minOrder ≤ k → k ≤ maxOrder →
    Links (nextOf s.mem) (s.freeList (k - minOrder)) (lists k) 0 ∧ 0 ∉ lists k

/-- The free lists end without repetition, hold aligned blocks, and tile usable RAM
together with the blocks the clients hold. -/
structure Heap.Safe (map : StivaleMap) (h : Heap) (lists : ℕ → List ℕ) : Prop where
  spells : h.buddy.Spells lists
  nodup : ∀ k, minOrder ≤ k → k ≤ maxOrder → (lists k).Nodup
  aligned : ∀ k, minOrder ≤ k → k ≤ maxOrder → ∀ a ∈ lists k, 2 ^ k ∣ a
  disjoint : (listedBlocks lists ++ h.outBlocks).Pairwise fun b c => Disjoint b.bytes c.bytes
  covers : ∀ x, (∃ b ∈ listedBlocks lists ++ h.outBlocks, x ∈ b.bytes) ↔ x ∈ map.usable

/-- The sizes of the listed and of the held blocks are what the page counters say, and
none of the subtractions on the counters goes below zero. -/
structure Heap.Accounted (h : Heap) (lists : ℕ → List ℕ) : Prop where
  spells : h.buddy.Spells lists
  used : buddyGetUsedPages h.buddy * pageSize = (h.outBlocks.map fun b => 2 ^ b.order).sum
  free : buddyGetFreePages h.buddy * pageSize = ((listedBlocks lists).map fun b => 2 ^ b.order).sum
  total : buddyGetTotalPages h.buddy = buddyGetUsedPages h.buddy + buddyGetFreePages h.buddy
  used_le : h.buddy.buddyUsedPages ≤ h.buddy.buddyTotalManagedPages
  pages_le : ∀ r ∈ h.out, ∃ order, getOrder r.size = some order ∧
    sizeForOrder order / pageSize ≤ h.buddy.buddyUsedPages

section Invariant

variable {map : StivaleMap} {h : Heap} {lists : ℕ → List ℕ}

/-- The lists of a tiled state are those the memory spells. -/
theorem Tiled.spells {s : Buddy} {rest : Extent} (ht : Tiled map s lists rest) : s.Spells lists :=
  fun k hlo hhi => ⟨ht.links k hlo hhi, ht.zero_notMem hlo hhi⟩

/-- Listed and held blocks together have the extent of usable RAM. -/
theorem Heap.Inv.extent_append (hi : h.Inv map lists) :
    extent (listedBlocks lists ++ h.outBlocks) = map.extent := by
  rw [Foundations.extent_append]
  exact hi.tiled.extent_eq

/-- The invariant makes the heap safe. -/
theorem Heap.Inv.safe (hi : h.Inv map lists) : h.Safe map lists := by
  have hext := hi.extent_append
  refine ⟨hi.tiled.spells, fun k hlo hhi => hi.tiled.nodup hlo hhi, ?_, ?_, ?_⟩
  · intro k hlo hhi a ha
    exact hi.tiled.aligned ⟨a, k⟩ (mem_listedBlocks.2 ⟨hlo, hhi, ha⟩)
  · apply pairwise_disjoint_of_extent_le_one
    intro x
    rw [hext]
    exact map.extent_count_le_one x
  · intro x
    rw [← extent_count_pos, hext]
    exact StivaleMap.extent_count_pos

/-- It makes the counters exact. -/
theorem Heap.Inv.accounted (hi : h.Inv map lists) : h.Accounted lists := by
  have hused : h.buddy.buddyUsedPages * pageSize = (h.outBlocks.map fun b => 2 ^ b.order).sum := by
    rw [hi.used, extent_size]
  have hall : ((listedBlocks lists).map fun b => 2 ^ b.order).sum +
      h.buddy.buddyUsedPages * pageSize = h.buddy.buddyTotalManagedPages * pageSize := by
    have hsize := congrArg Prod.snd hi.tiled.extent_eq
    rw [Prod.snd_add, extent_size] at hsize
    rw [hi.used, hsize, hi.managed]
    exact map.pages_mul.symm
  have hle : h.buddy.buddyUsedPages ≤ h.buddy.buddyTotalManagedPages := by
    apply Nat.le_of_mul_le_mul_right (c := pageSize)
    · omega
    · decide
  have hfree : buddyGetFreePages h.buddy =
      h.buddy.buddyTotalManagedPages - h.buddy.buddyUsedPages := by
    have hlt : h.buddy.buddyTotalManagedPages < 2 ^ 64 := by
      rw [hi.managed]
      exact map.pages_lt
    rw [buddyGetFreePages, Nat.sub_add_comm hle, Nat.add_mod_right, Nat.mod_eq_of_lt (by omega)]
  refine ⟨hi.tiled.spells, hused, ?_, ?_, hle, ?_⟩
  · rw [hfree, Nat.sub_mul]
    omega
  · rw [buddyGetTotalPages, buddyGetUsedPages, hfree, hi.total, ← hi.managed]
    omega
  · intro r hr
    obtain ⟨order, hhi, horder, -⟩ := hi.requests r hr
    refine ⟨order, horder, ?_⟩
    -- the block of the request is one of those the used counter counts
    have hmem : 2 ^ order ∈ h.outBlocks.map fun b => 2 ^ b.order :=
      List.mem_map.2 ⟨_, List.mem_map_of_mem hr, by rw [Request.block_of_order horder]⟩
    have hone := List.single_le_sum (fun x _ => Nat.zero_le x) _ hmem
    have hpages := pages_mul_of_order (getOrder_bounds horder).1 hhi
    apply Nat.le_of_mul_le_mul_right (c := pageSize)
    · rw [hpages, hused]
      exact hone
    · decide

/-- Merging never reaches null where usable RAM starts at the size of the largest block. -/
theorem Tiled.not_climbsToNull {s : Buddy} {rest : Extent} (ht : Tiled map s lists rest)
    (hhigh : ∀ x ∈ map.usable, 2 ^ maxOrder ≤ x) {levels addr order : ℕ} (hlo : minOrder ≤ order)
    (hlevels : order + levels = maxOrder) (haddr : 2 ^ maxOrder ≤ addr) :
    ¬ ClimbsToNull s levels addr order := by
  induction levels generalizing addr order with
  | zero => exact id
  | succ levels ih =>
    intro hclimb
    rcases hclimb with hnull | ⟨hfree, hclimb⟩
    · -- a null buddy puts the block at its own size
      rw [getBuddy, sizeForOrder_eq (by omega), Nat.xor_eq_zero_iff] at hnull
      have hsize : 2 ^ order < 2 ^ maxOrder := Nat.pow_lt_pow_right (by decide) (by omega)
      omega
    · have hmem := (ht.freeBlock_iff hlo (by omega)).1 hfree
      have hlisted : (⟨getBuddy addr order, order⟩ : Block) ∈ listedBlocks lists :=
        mem_listedBlocks.2 ⟨hlo, by simp only; omega, hmem⟩
      have hbuddy := hhigh _ (ht.mem_usable hlisted (Block.addr_mem _))
      exact ih (by omega) (by omega) (le_min haddr hbuddy) hclimb

/-- No free of a held block merges into null there. -/
theorem Heap.Inv.freeAvoidsNull (hi : h.Inv map lists) (hhigh : ∀ x ∈ map.usable, 2 ^ maxOrder ≤ x)
    {addr size : ℕ} (hheld : ⟨addr, size⟩ ∈ h.out) : MergeAvoidsNull h (.free addr size) := by
  intro order horder
  obtain ⟨_, hhi, horder', -⟩ := hi.requests _ hheld
  obtain rfl := Option.some.inj (horder.symm.trans horder')
  have hout : (⟨addr, size⟩ : Request).block ∈ h.outBlocks := List.mem_map_of_mem hheld
  have hbyte := (hi.safe.covers addr).1
    ⟨_, List.mem_append_right _ hout, Block.addr_mem (Request.block ⟨addr, size⟩)⟩
  exact hi.tiled.not_climbsToNull hhigh (getOrder_bounds horder).1 (by omega) (hhigh _ hbyte)

/-- On a map far above zero no merge comes to a null block. -/
theorem Heap.Inv.mergeAvoidsNull (hi : h.Inv map lists)
    (hhigh : ∀ x ∈ map.usable, 2 ^ maxOrder ≤ x) {call : Call} {h' : Heap}
    (hstep : HeapStep h call h') : MergeAvoidsNull h call := by
  cases hstep with
  | alloc => trivial
  | write => trivial
  | free hheld => exact hi.freeAvoidsNull hhigh hheld

end Invariant

/-- Usable RAM from 64 KiB on needs no condition on the calls: every run is guarded. -/
theorem Heap.guarded_of_high {map : StivaleMap} (hhigh : ∀ x ∈ map.usable, 2 ^ maxOrder ≤ x)
    {s : Buddy} {calls : List Call} {h : Heap} (hrun : Run HeapStep (Heap.start map s) calls h) :
    Run (guarded MergeAvoidsNull HeapStep) (Heap.start map s) calls h := by
  induction hrun with
  | nil => exact .nil _
  | snoc _ hstep ih =>
    obtain ⟨lists, hi, -⟩ := Heap.inv_of_run ih
    exact .snoc ih ⟨hi.mergeAvoidsNull hhigh hstep, hstep⟩

/-! ## Example maps and runs -/

/-- One call, computed. -/
def Heap.call (fuel : ℕ) (h : Heap) : Call → Option Heap
  | .alloc size => (buddyAlloc h.buddy size).map fun r =>
      ⟨r.2, if r.1 = 0 then h.out else ⟨r.1, size⟩ :: h.out⟩
  | .free addr size =>
    if ⟨addr, size⟩ ∈ h.out then
      (buddyFree fuel h.buddy addr size).map fun b => ⟨b, h.out.erase ⟨addr, size⟩⟩
    else none
  | .write x value =>
    if ∃ b ∈ h.outBlocks, b.addr ≤ x ∧ x < b.addr + 2 ^ b.order then
      some ⟨{ h.buddy with mem := Function.update h.buddy.mem x value }, h.out⟩
    else none

/-- What the code computes is a step. -/
theorem Heap.step_of_call {fuel : ℕ} {h h' : Heap} {call : Call}
    (hcall : h.call fuel call = some h') : HeapStep h call h' := by
  cases call with
  | alloc size =>
    obtain ⟨r, hr, rfl⟩ := Option.map_eq_some_iff.1 hcall
    exact .alloc hr
  | free addr size =>
    obtain ⟨hheld, hfree⟩ := Option.ite_none_right_eq_some.1 hcall
    obtain ⟨b, hb, rfl⟩ := Option.map_eq_some_iff.1 hfree
    exact .free hheld hb
  | write x value =>
    obtain ⟨⟨b, hb, hx⟩, hwrite⟩ := Option.ite_none_right_eq_some.1 hcall
    obtain rfl := Option.some.inj hwrite
    exact .write ⟨b, hb, Block.mem_bytes.2 hx⟩

/-- What it computes call by call is a run. -/
theorem Heap.run_of_calls {fuel : ℕ} {calls : List Call} {h h' : Heap}
    (hcalls : execute (fun _ _ => True) (Heap.call fuel) h calls = some h') :
    Run HeapStep h calls h' :=
  (run_of_execute (fun _ _ _ => Heap.step_of_call) hcalls).mono fun _ _ _ hstep => hstep.2

/-- Memory and globals before `buddy_init`. -/
def Buddy.blank : Buddy := ⟨fun _ => 0, fun _ => 0, 0, 0, 0⟩

/-- Two pages at 1 MiB. -/
def highMap : StivaleMap := singleRegion 0x100000 2 (by decide) (by decide) (by decide)

/-- The page whose buddy is at null, and nothing else. -/
def lowMap : StivaleMap :=
  singleRegion 0x1000 1 secondPage_ne_zero secondPage_aligned (by decide)

/-- Splitting a block of two pages, writing into the lower one, and giving it back. -/
theorem highMap_run : ∃ h, Run (guarded MergeAvoidsNull HeapStep) (Heap.start highMap Buddy.blank)
    [.alloc 4096, .alloc 100, .write 0x100008 7, .free 0x100000 4096] h ∧
      h.out = [⟨0x101000, 100⟩] := by
  have hhigh : ∀ x ∈ highMap.usable, 2 ^ maxOrder ≤ x := by
    intro x hall
    obtain ⟨e, he, hx⟩ := hall
    obtain rfl := List.mem_singleton.1 he
    exact le_trans (by decide) (MmapEntry.mem_bytes.1 hx).1
  have hcalls : ∃ h, execute (fun _ _ => True) (Heap.call 1) (Heap.start highMap Buddy.blank)
      [.alloc 4096, .alloc 100, .write 0x100008 7, .free 0x100000 4096] = some h ∧
        h.out = [⟨0x101000, 100⟩] := ⟨_, rfl, by decide⟩
  obtain ⟨h, hcalls, hout⟩ := hcalls
  exact ⟨h, Heap.guarded_of_high hhigh (Heap.run_of_calls hcalls), hout⟩

/-- Giving the page at `0x1000` back loses it: no list holds it, and no client. -/
theorem lowMap_run : ∃ h, Run HeapStep (Heap.start lowMap Buddy.blank)
    [.alloc 4096, .free 0x1000 4096] h ∧ h.out = [] ∧
      (∀ i < 5, h.buddy.freeList i = 0) ∧ buddyGetFreePages h.buddy = 1 := by
  have hcalls : ∃ h, execute (fun _ _ => True) (Heap.call 1) (Heap.start lowMap Buddy.blank)
      [.alloc 4096, .free 0x1000 4096] = some h ∧ h.out = [] ∧
        (∀ i < 5, h.buddy.freeList i = 0) ∧ buddyGetFreePages h.buddy = 1 := ⟨_, rfl, by decide⟩
  obtain ⟨h, hcalls, hlost⟩ := hcalls
  exact ⟨h, Heap.run_of_calls hcalls, hlost⟩

/-- Where all heads are null, nothing is listed. -/
theorem Buddy.Spells.listedBlocks_eq_nil {s : Buddy} {lists : ℕ → List ℕ} (hs : s.Spells lists)
    (hheads : ∀ i < 5, s.freeList i = 0) : listedBlocks lists = [] := by
  apply List.eq_nil_iff_forall_not_mem.2
  intro b hb
  obtain ⟨hlo, hhi, hmem⟩ := mem_listedBlocks.1 hb
  obtain ⟨hlinks, hnull⟩ := hs b.order hlo hhi
  rw [hheads _ (by simp only [minOrder, maxOrder] at *; omega)] at hlinks
  cases hl : lists b.order with
  | nil => simp [hl] at hmem
  | cons a l =>
    rw [hl, links_cons] at hlinks
    rw [hl, ← hlinks.1] at hnull
    exact hnull List.mem_cons_self

/-! ## Main results -/

/-- In every heap reached without merging into null, the free lists are well formed and
tile usable RAM with the held blocks, and every such free returns. -/
theorem Heap.safe_of_run {map : StivaleMap} {s : Buddy} {calls : List Call} {h : Heap}
    (hrun : Run (guarded MergeAvoidsNull HeapStep) (Heap.start map s) calls h) :
    (∃ lists, h.Safe map lists) ∧
      ∀ r ∈ h.out, MergeAvoidsNull h (.free r.addr r.size) →
        ∃ fuel b, buddyFree fuel h.buddy r.addr r.size = some b := by
  obtain ⟨lists, hi, -⟩ := Heap.inv_of_run hrun
  refine ⟨⟨lists, hi.safe⟩, ?_⟩
  intro r hr hsafe
  obtain ⟨b, -, need, hreturns, -⟩ := hi.free hr hsafe
  exact ⟨need, b, by rw [hreturns, if_pos le_rfl]⟩

/-- A safe run on a map from 1 MiB on. -/
theorem Heap.safe_of_run_highMap : ∃ h : Heap, h.out = [⟨0x101000, 100⟩] ∧
    (∃ lists, h.Safe highMap lists) ∧
      ∀ r ∈ h.out, MergeAvoidsNull h (.free r.addr r.size) →
        ∃ fuel b, buddyFree fuel h.buddy r.addr r.size = some b := by
  obtain ⟨h, hrun, hout⟩ := highMap_run
  exact ⟨h, hout, Heap.safe_of_run hrun⟩

/-- One page at 0x1000, allocated and freed. -/
theorem Heap.not_safe_lowMap : ∃ h, Run HeapStep (Heap.start lowMap Buddy.blank)
    [.alloc 4096, .free 0x1000 4096] h ∧ ¬ ∃ lists, h.Safe lowMap lists := by
  obtain ⟨h, hrun, hout, hheads, -⟩ := lowMap_run
  refine ⟨h, hrun, ?_⟩
  intro ⟨lists, hsafe⟩
  have husable : 0x1000 ∈ lowMap.usable :=
    ⟨⟨0x1000, 0x1000, 1⟩, by decide, MmapEntry.mem_bytes.2 (by decide)⟩
  obtain ⟨b, hb, -⟩ := (hsafe.covers 0x1000).2 husable
  rw [hsafe.spells.listedBlocks_eq_nil hheads, Heap.outBlocks, hout] at hb
  simp at hb

/-- In every heap reached without merging into null, the page counters are exact. -/
theorem Heap.accounted_of_run {map : StivaleMap} {s : Buddy} {calls : List Call} {h : Heap}
    (hrun : Run (guarded MergeAvoidsNull HeapStep) (Heap.start map s) calls h) :
    ∃ lists, h.Accounted lists := by
  obtain ⟨lists, hi, -⟩ := Heap.inv_of_run hrun
  exact ⟨lists, hi.accounted⟩

/-- The counters of the first run. -/
theorem Heap.accounted_of_run_highMap : ∃ h : Heap, h.out = [⟨0x101000, 100⟩] ∧
    ∃ lists, h.Accounted lists := by
  obtain ⟨h, hrun, hout⟩ := highMap_run
  exact ⟨h, hout, Heap.accounted_of_run hrun⟩

/-- The counters of the second one. -/
theorem Heap.not_accounted_lowMap : ∃ h, Run HeapStep (Heap.start lowMap Buddy.blank)
    [.alloc 4096, .free 0x1000 4096] h ∧ ¬ ∃ lists, h.Accounted lists := by
  obtain ⟨h, hrun, -, hheads, hfree⟩ := lowMap_run
  refine ⟨h, hrun, ?_⟩
  intro ⟨lists, hacc⟩
  have hsum := hacc.free
  rw [hacc.spells.listedBlocks_eq_nil hheads, hfree] at hsum
  simp [pageSize] at hsum

end Orionis.Mem
