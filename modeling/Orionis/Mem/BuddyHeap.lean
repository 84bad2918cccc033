import Orionis.Foundations.Run
import Orionis.Mem.BuddyInit

/-!
# Runs of the buddy allocator and its clients

A heap is the allocator together with the requests its clients hold. Clients allocate,
give back a block they hold with the size they asked for, and write into their blocks.
The invariant of a heap says that the free lists and the held blocks tile usable RAM and
that the page counters agree with them.

It survives every call but one kind: a `buddy_free` whose merging reaches a block of order
below `MAX_ORDER` at the address equal to its size. The buddy of such a block has address
zero, and the null at the end of its list is taken for it.
-/

namespace Orionis.Mem

open Orionis.Foundations

/-- A block a client holds, with the size it was requested with. -/
structure Request where
  addr : ℕ
  size : ℕ
  deriving DecidableEq, Repr

/-- The block behind a request. -/
def Request.block (r : Request) : Block := ⟨r.addr, (getOrder r.size).getD 0⟩

/-- The allocator and the requests outstanding. -/
structure Heap where
  buddy : Buddy
  out : List Request

/-- The blocks the clients hold. -/
def Heap.outBlocks (h : Heap) : List Block := h.out.map Request.block

/-- What a client can do. -/
inductive Call
  | alloc (size : ℕ)
  | free (addr size : ℕ)
  | write (x : ℕ) (value : UInt8)

/-- One call of a client. A call whose loops do not end takes no step. -/
inductive HeapStep : Heap → Call → Heap → Prop
  | alloc {h : Heap} {size p : ℕ} {b : Buddy} (hcall : buddyAlloc h.buddy size = some (p, b)) :
      HeapStep h (.alloc size) ⟨b, if p = 0 then h.out else ⟨p, size⟩ :: h.out⟩
  | free {h : Heap} {addr size fuel : ℕ} {b : Buddy} (hheld : ⟨addr, size⟩ ∈ h.out)
      (hcall : buddyFree fuel h.buddy addr size = some b) :
      HeapStep h (.free addr size) ⟨b, h.out.erase ⟨addr, size⟩⟩
  | write {h : Heap} {x : ℕ} {value : UInt8} (hheld : ∃ b ∈ h.outBlocks, x ∈ b.bytes) :
      HeapStep h (.write x value)
        ⟨{ h.buddy with mem := Function.update h.buddy.mem x value }, h.out⟩

/-- The heap `buddy_init` leaves, whatever memory and the globals held before. -/
def Heap.start (map : StivaleMap) (s : Buddy) : Heap := ⟨buddyInit s map.entries, []⟩

/-- The merging of a freed block does not reach a block whose buddy address is null. -/
def MergeAvoidsNull (h : Heap) : Call → Prop
  | .free addr size =>
    ∀ order, getOrder size = some order → ¬ ClimbsToNull h.buddy (maxOrder - order) addr order
  | _ => True

/-- What holds of every heap reached without merging into null. -/
structure Heap.Inv (map : StivaleMap) (h : Heap) (lists : ℕ → List ℕ) : Prop where
  tiled : Tiled map h.buddy lists (extent h.outBlocks)
  requests : ∀ r ∈ h.out, ∃ order ≤ maxOrder, getOrder r.size = some order ∧ 2 ^ order ∣ r.addr
  used : h.buddy.buddyUsedPages * pageSize = (extent h.outBlocks).2
  managed : h.buddy.buddyTotalManagedPages = regionPages map.regions
  total : h.buddy.totalPhysicalPages = regionPages map.regions

/-- After `buddy_init` the invariant holds with nothing handed out. -/
theorem Heap.inv_start (map : StivaleMap) (s : Buddy) :
    ∃ lists, (Heap.start map s).Inv map lists ∧ (map.NoAbutting → NoFreeBuddies lists) := by
  obtain ⟨lists, ht, hman, htot, hused, hgreedy⟩ := buddyInit_tiled map s
  refine ⟨lists, ⟨ht, by simp [Heap.start], ?_, hman, htot⟩, fun hmap =>
    noFreeBuddies_of_greedy hmap ht hgreedy⟩
  change (buddyInit s map.entries).buddyUsedPages * pageSize = 0
  rw [hused, Nat.zero_mul]

section Steps

variable {map : StivaleMap} {h : Heap} {lists : ℕ → List ℕ}

/-- Pages of a block count its bytes. -/
theorem pages_mul_of_order {order : ℕ} (hlo : minOrder ≤ order) (hhi : order ≤ maxOrder) :
    sizeForOrder order / pageSize * pageSize = 2 ^ order := by
  rw [sizeForOrder_eq hhi]
  exact Nat.div_mul_cancel (pow_dvd_pow 2 hlo)

/-- Taking pages off the used counter, as the 64-bit code does it. -/
theorem used_sub {used pages rest : ℕ} (hused : used * pageSize = pages * pageSize + rest)
    (hrest : rest ≤ 2 ^ 64) : (used + 2 ^ 64 - pages) % 2 ^ 64 * pageSize = rest := by
  have hle : pages ≤ used := by
    apply Nat.le_of_mul_le_mul_right (c := pageSize)
    · omega
    · decide
  have hsub : (used - pages) * pageSize = rest := by
    rw [Nat.sub_mul]
    omega
  have hlt : used - pages < 2 ^ 64 := by
    simp only [pageSize] at hsub
    omega
  rw [Nat.sub_add_comm hle, Nat.add_mod_right, Nat.mod_eq_of_lt hlt, hsub]

/-- Adding pages to it. -/
theorem used_add {used pages rest : ℕ} (hused : used * pageSize = rest)
    (hrest : pages * pageSize + rest ≤ 2 ^ 64) :
    (used + pages) % 2 ^ 64 * pageSize = pages * pageSize + rest := by
  have hlt : used + pages < 2 ^ 64 := by
    simp only [pageSize] at hused hrest
    omega
  rw [Nat.mod_eq_of_lt hlt, Nat.add_mul, hused, Nat.add_comm]

/-- The block of a request has the order its size gets. -/
theorem Request.block_of_order {r : Request} {order : ℕ} (h : getOrder r.size = some order) :
    r.block = ⟨r.addr, order⟩ := by
  simp [Request.block, h]

/-- What is held outside the lists is no larger than the address space. -/
theorem Tiled.rest_size_le {s : Buddy} {rest : Extent} (ht : Tiled map s lists rest) :
    rest.2 ≤ 2 ^ 64 := by
  have hsize := congrArg Prod.snd ht.extent_eq
  have hle := map.extent_size_le
  simp only [Prod.snd_add] at hsize
  omega

/-- `buddy_alloc` hands out a listed block or leaves everything as it was. -/
theorem Heap.Inv.alloc (hi : h.Inv map lists) {size p : ℕ} {b : Buddy}
    (hcall : buddyAlloc h.buddy size = some (p, b)) :
    ∃ lists', Heap.Inv map ⟨b, if p = 0 then h.out else ⟨p, size⟩ :: h.out⟩ lists' ∧
      (NoFreeBuddies lists → NoFreeBuddies lists') := by
  obtain ⟨order, horder, hresult⟩ := Option.map_eq_some_iff.1 hcall
  have hlo := (getOrder_bounds horder).1
  rcases allocFrom_cases order (maxOrder + 1 - order) order h.buddy with
    ⟨-, heq⟩ | ⟨k, hk, hlt, -, hne, heq⟩
  · obtain ⟨rfl, rfl⟩ := Prod.mk.inj (heq.symm.trans hresult)
    rw [if_pos rfl]
    exact ⟨lists, hi, id⟩
  · have hhi : k ≤ maxOrder := by omega
    obtain ⟨post, -, haligned, -, hsplit, hbuddies⟩ := hi.tiled.splitFirst hlo hk hhi hne
    generalize h.buddy.freeList (k - minOrder) = block at *
    obtain ⟨htot, hused, hman⟩ := splitBlock_counters block order k
      (s := h.buddy.write (.head k) (nextOf h.buddy.mem block))
    obtain ⟨rfl, rfl⟩ := Prod.mk.inj (heq.symm.trans hresult)
    rw [if_neg hne]
    have hout : extent ((⟨block, size⟩ : Request).block :: h.outBlocks) =
        (⟨block, order⟩ : Block).extent + extent h.outBlocks := by
      rw [extent_cons, Request.block_of_order horder]
    refine ⟨_, ⟨?_, ?_, ?_, hman.trans hi.managed, htot.trans hi.total⟩, hbuddies⟩
    · change Tiled map _ _ (extent ((⟨block, size⟩ : Request).block :: h.outBlocks))
      rw [hout]
      exact hsplit.frame rfl fun _ _ _ _ => rfl
    · intro r hr
      cases List.mem_cons.1 hr with
      | inl heq =>
        subst heq
        exact ⟨order, by omega, horder, (pow_dvd_pow 2 hk).trans haligned⟩
      | inr hr =>
        exact hi.requests r hr
    · change (_ + sizeForOrder order / pageSize) % 2 ^ 64 * pageSize =
        (extent ((⟨block, size⟩ : Request).block :: h.outBlocks)).2
      have hsize : 2 ^ order + (extent h.outBlocks).2 ≤ 2 ^ 64 := hsplit.rest_size_le
      have hpages := pages_mul_of_order hlo (hk.trans hhi)
      have hold := hi.used
      rw [hout, hused]
      change (h.buddy.buddyUsedPages + _) % 2 ^ 64 * pageSize = 2 ^ order + (extent h.outBlocks).2
      rw [used_add hold (by omega), hpages]

/-- The list of requests with one of them in front. -/
private theorem extent_out_erase {addr size order : ℕ} (hheld : ⟨addr, size⟩ ∈ h.out)
    (horder : getOrder size = some order) :
    extent h.outBlocks =
      (⟨addr, order⟩ : Block).extent + extent ((h.out.erase ⟨addr, size⟩).map Request.block) := by
  have hperm := (List.perm_cons_erase hheld).map Request.block
  rw [List.map_cons, Request.block_of_order horder] at hperm
  exact extent_perm hperm

/-- `buddy_free` before its merging loop. -/
def Buddy.uncount (s : Buddy) (order : ℕ) : Buddy :=
  { s with
    buddyUsedPages := (s.buddyUsedPages + 2 ^ 64 - sizeForOrder order / pageSize) % 2 ^ 64 }

/-- Only the used counter changes. -/
theorem Buddy.uncount_frame (s : Buddy) (order : ℕ) :
    (s.uncount order).freeList = s.freeList ∧ (s.uncount order).mem = s.mem ∧
      (s.uncount order).totalPhysicalPages = s.totalPhysicalPages ∧
      (s.uncount order).buddyTotalManagedPages = s.buddyTotalManagedPages := by
  unfold Buddy.uncount
  exact ⟨rfl, rfl, rfl, rfl⟩

/-- The pages of a block are taken off the used ones. -/
theorem Buddy.uncount_used (s : Buddy) (order : ℕ) : (s.uncount order).buddyUsedPages =
    (s.buddyUsedPages + 2 ^ 64 - sizeForOrder order / pageSize) % 2 ^ 64 := by
  unfold Buddy.uncount
  rfl

/-- `buddy_free` is its loop over the orders. -/
theorem buddyFree_eq {s : Buddy} {fuel addr size order : ℕ} (horder : getOrder size = some order) :
    buddyFree fuel s addr size =
      mergeLoop fuel (maxOrder - order) addr order (s.uncount order) := by
  have hbyte : order % 2 ^ 8 = order := Nat.mod_eq_of_lt (getOrder_bounds horder).2
  have heq : buddyFree fuel s addr size = mergeLoop fuel (maxOrder - order % 2 ^ 8) addr
      (order % 2 ^ 8) (s.uncount (order % 2 ^ 8)) := by
    unfold buddyFree Buddy.uncount
    rw [horder]
    rfl
  rw [heq, hbyte]

/-- `buddy_free` of a held block whose merging avoids null returns, with one result, and
takes the block off the held ones. -/
theorem Heap.Inv.free (hi : h.Inv map lists) {addr size : ℕ} (hheld : ⟨addr, size⟩ ∈ h.out)
    (hsafe : MergeAvoidsNull h (.free addr size)) :
    ∃ b lists' need,
      (∀ fuel, buddyFree fuel h.buddy addr size = if need ≤ fuel then some b else none) ∧
        Heap.Inv map ⟨b, h.out.erase ⟨addr, size⟩⟩ lists' ∧
        (NoFreeBuddies lists → NoFreeBuddies lists') := by
  obtain ⟨order, hhi, horder, hdvd⟩ := hi.requests _ hheld
  have hlo := (getOrder_bounds horder).1
  have hout := extent_out_erase hheld horder
  obtain ⟨hfreeList, hmem, htotal, hmanaged⟩ := h.buddy.uncount_frame order
  have hpaid := h.buddy.uncount_used order
  have hrunEq := fun fuel : ℕ => @buddyFree_eq h.buddy fuel addr size order horder
  generalize h.buddy.uncount order = s at hfreeList hmem htotal hmanaged hpaid hrunEq
  have ht : Tiled map s lists ((⟨addr, order⟩ : Block).extent +
      extent ((h.out.erase ⟨addr, size⟩).map Request.block)) := by
    rw [← hout]
    exact hi.tiled.frame hfreeList fun _ _ _ _ => congrFun hmem _
  have hclimb : ¬ ClimbsToNull s (maxOrder - order) addr order := by
    intro hc
    apply hsafe order horder
    refine (climbsToNull_congr fun k _ _ a => ?_).1 hc
    rw [ht.freeBlock_iff (by omega) (by omega), hi.tiled.freeBlock_iff (by omega) (by omega)]
  obtain ⟨b, lists', need, hrun, htiled, ⟨htot, hused, hman⟩, hbuddies⟩ :=
    ht.mergeLoop_spec hdvd hlo (by omega) hclimb
  refine ⟨b, lists', need, fun fuel => (hrunEq fuel).trans (hrun fuel), ⟨htiled, ?_, ?_,
    hman.trans (hmanaged.trans hi.managed), htot.trans (htotal.trans hi.total)⟩, hbuddies⟩
  · intro r hr
    exact hi.requests r (List.mem_of_mem_erase hr)
  · have hsize : 2 ^ order + (extent ((h.out.erase ⟨addr, size⟩).map Request.block)).2 ≤ 2 ^ 64 :=
      ht.rest_size_le
    have hpages := pages_mul_of_order hlo hhi
    have hold := hi.used
    rw [hout] at hold
    change _ = 2 ^ order + _ at hold
    change b.buddyUsedPages * pageSize = (extent ((h.out.erase ⟨addr, size⟩).map Request.block)).2
    rw [hused, hpaid]
    exact used_sub (by rw [hpages, hold]) (by omega)

/-- A client writing into a block it holds does not touch the free lists. -/
theorem Heap.Inv.write (hi : h.Inv map lists) {x : ℕ} {value : UInt8}
    (hheld : ∃ b ∈ h.outBlocks, x ∈ b.bytes) :
    Heap.Inv map ⟨{ h.buddy with mem := Function.update h.buddy.mem x value }, h.out⟩ lists := by
  refine ⟨hi.tiled.frame rfl fun b hb y hy => ?_, hi.requests, hi.used, hi.managed, hi.total⟩
  apply Function.update_of_ne
  intro heq
  subst heq
  obtain ⟨c, hc, hyc⟩ := hheld
  have ht := hi.tiled
  rw [extent_perm (List.perm_cons_erase hc), extent_cons] at ht
  exact ht.not_mem_held hb hyc hy

/-- Every guarded call keeps the invariant, and never makes two buddies free together. -/
theorem Heap.Inv.step (hi : h.Inv map lists) {call : Call} {h' : Heap}
    (hstep : guarded MergeAvoidsNull HeapStep h call h') :
    ∃ lists', h'.Inv map lists' ∧ (NoFreeBuddies lists → NoFreeBuddies lists') := by
  obtain ⟨hsafe, hstep⟩ := hstep
  cases hstep with
  | alloc hcall => exact hi.alloc hcall
  | free hheld hcall =>
    obtain ⟨b, lists', need, hrun, hinv, hbuddies⟩ := hi.free hheld hsafe
    rw [hrun] at hcall
    obtain ⟨-, hb⟩ := Option.ite_none_right_eq_some.1 hcall
    obtain rfl := Option.some.inj hb
    exact ⟨lists', hinv, hbuddies⟩
  | write hheld => exact ⟨lists, hi.write hheld, id⟩

end Steps

/-- Every run from `buddy_init` whose merges avoid null keeps the invariant. -/
theorem Heap.inv_of_run {map : StivaleMap} {s : Buddy} {calls : List Call} {h : Heap}
    (hrun : Run (guarded MergeAvoidsNull HeapStep) (Heap.start map s) calls h) :
    ∃ lists, h.Inv map lists ∧ (map.NoAbutting → NoFreeBuddies lists) := by
  refine hrun.invariant
    (I := fun h => ∃ lists, h.Inv map lists ∧ (map.NoAbutting → NoFreeBuddies lists))
    (Heap.inv_start map s) ?_
  intro t call u hall hstep
  obtain ⟨lists, hi, hbuddies⟩ := hall
  obtain ⟨lists', hi', hkeep⟩ := hi.step hstep
  exact ⟨lists', hi', fun hmap => hkeep (hbuddies hmap)⟩

end Orionis.Mem
