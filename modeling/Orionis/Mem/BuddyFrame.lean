import Orionis.Mem.BuddyAlloc
import Orionis.Mem.BuddySafety

/-!
# Memory the buddy allocator never writes

The links of the free lists are kept in the free blocks themselves. Each of them lies in usable
memory, so that no call, and no client writing to what it holds, changes a byte anywhere else.
-/

namespace Orionis.Mem

open Orionis.Foundations

/-- Only bytes of usable memory have changed. -/
def Untouched (map : StivaleMap) (s t : Buddy) : Prop := ∀ x, x ∉ map.usable → t.mem x = s.mem x

variable {map : StivaleMap} {s t u : Buddy} {lists : ℕ → List ℕ} {rest : Extent}

/-- Nothing was touched. -/
theorem Untouched.refl (s : Buddy) : Untouched map s s := fun _ _ => rfl

/-- Calls one after the other. -/
theorem Untouched.trans (h : Untouched map s t) (h' : Untouched map t u) : Untouched map s u :=
  fun x hx => (h' x hx).trans (h x hx)

/-- A call that writes no memory. -/
theorem Untouched.of_mem (h : t.mem = s.mem) : Untouched map s t := fun x _ => congrFun h x

/-- A link has room in a block of a page. -/
theorem Block.link_mem {b : Block} {x : ℕ} (hlo : minOrder ≤ b.order) (hx : b.addr ≤ x)
    (hxlt : x < b.addr + 8) : x ∈ b.bytes := by
  have hsize : 2 ^ 12 ≤ 2 ^ b.order := Nat.pow_le_pow_right (by decide) hlo
  exact Block.mem_bytes.2 ⟨hx, by omega⟩

/-- A store to the link of a usable block. -/
theorem untouched_of_link {b : Block} {v : ℕ} (hlo : minOrder ≤ b.order)
    (husable : ∀ x ∈ b.bytes, x ∈ map.usable) (hmem : t.mem = storeLE s.mem 8 b.addr v) :
    Untouched map s t := by
  intro x hx
  rw [hmem]
  apply storeLE_of_outside
  by_contra hin
  exact hx (husable x (Block.link_mem hlo (by omega) (by omega)))

/-- A block is linked inside itself. -/
theorem Tiled.insertBlock_untouched {b : Block} (ht : Tiled map s lists (b.extent + rest))
    (hlo : minOrder ≤ b.order) : Untouched map s (s.insertBlock b.order b.addr) :=
  untouched_of_link hlo (fun _ hx => ht.held_usable hx) rfl

/-- Unlinking writes a list head or the link of a listed block. -/
theorem Tiled.unlink_untouched {k v : ℕ} {pre post : List ℕ} (ht : Tiled map s lists rest)
    (hlo : minOrder ≤ k) (hhi : k ≤ maxOrder) (hl : lists k = pre ++ post) :
    Untouched map s (s.write (linkAfter (.head k) pre) v) := by
  rcases List.eq_nil_or_concat' pre with rfl | ⟨pre, p, rfl⟩
  · exact .of_mem rfl
  · rw [linkAfter_concat]
    have hmem : (⟨p, k⟩ : Block) ∈ listedBlocks lists :=
      mem_listedBlocks.2 ⟨hlo, hhi, by simp [hl]⟩
    exact @untouched_of_link map s _ ⟨p, k⟩ v hlo (fun _ hx => ht.mem_usable hmem hx) rfl

/-- Merging, by its rounds. -/
theorem Tiled.mergeLoop_untouched {fuel levels addr order : ℕ}
    (ht : Tiled map s lists ((⟨addr, order⟩ : Block).extent + rest)) (haddr : 2 ^ order ∣ addr)
    (hlo : minOrder ≤ order) (hlevels : order + levels = maxOrder)
    (hsafe : ¬ ClimbsToNull s levels addr order)
    (hrun : mergeLoop fuel levels addr order s = some t) : Untouched map s t := by
  induction levels generalizing s lists addr order with
  | zero =>
    obtain rfl : order = maxOrder := by omega
    obtain rfl := Option.some.inj hrun
    exact ht.insertBlock_untouched hlo
  | succ levels ih =>
    have hhi : order ≤ maxOrder := by omega
    rw [ClimbsToNull, not_or, not_and] at hsafe
    obtain ⟨hnull, hclimb⟩ := hsafe
    by_cases hmem : getBuddy addr order ∈ lists order
    · obtain ⟨pre, post, hl⟩ := List.append_of_mem hmem
      have hsafe' := hclimb ((ht.freeBlock_iff hlo hhi).2 hmem)
      rw [ht.climbsToNull_unlink hlo hlevels hl] at hsafe'
      rw [ht.mergeLoop_found hlo hhi hl] at hrun
      obtain ⟨-, hrun⟩ := Option.ite_none_right_eq_some.1 hrun
      have haddr' : 2 ^ (order + 1) ∣ min addr (getBuddy addr order) := by
        rw [getBuddy_eq hhi]
        exact @Block.parent_aligned ⟨addr, order⟩ haddr
      have hrest := ih (ht.mergeLoop_parent haddr hlo hhi hl) haddr' (by omega) (by omega) hsafe' hrun
      exact (ht.unlink_untouched hlo hhi hl).trans hrest
    · rw [ht.mergeLoop_absent hlo hhi hnull hmem] at hrun
      obtain ⟨-, ht'⟩ := Option.ite_none_right_eq_some.1 hrun
      obtain rfl := Option.some.inj ht'
      exact ht.insertBlock_untouched hlo

/-! ## Start-up -/

/-- Carving a region writes into it only. -/
theorem carveRegion_frame {rounds current remaining : ℕ} (hcur : pageSize ∣ current)
    (hend : current + remaining < 2 ^ 64) (x : ℕ) (hx : ¬ (current ≤ x ∧ x < current + remaining)) :
    (carveRegion rounds current remaining s).mem x = s.mem x := by
  induction rounds generalizing s current remaining with
  | zero => rfl
  | succ rounds ih =>
    rw [carveRegion]
    split
    · next hfit =>
      obtain ⟨hlo, -, hsize, -, -⟩ := carveOrder_spec hcur hfit maxOrder (by decide)
      generalize carveOrder current remaining maxOrder = order at hlo hsize
      have hpage : pageSize ∣ 2 ^ order := pow_dvd_pow 2 hlo
      have hroom : 2 ^ 12 ≤ 2 ^ order := Nat.pow_le_pow_right (by decide) hlo
      simp only [if_neg (not_lt.2 hlo), Nat.mod_eq_of_lt (show current + 2 ^ order < 2 ^ 64 by omega)]
      rw [ih ((Nat.dvd_add_right hcur).2 hpage) (by omega) (by omega)]
      exact storeLE_of_outside _ _ _ _ _ (by omega)
    · rfl

/-- Carving up the entries writes inside them. -/
theorem carveEntries_untouched (entries : List MmapEntry)
    (hentries : ∀ e ∈ entries, e.Usable →
      pageSize ∣ e.base ∧ e.base + e.length < 2 ^ 64 ∧ e.bytes ⊆ map.usable) :
    Untouched map s (entries.foldl carveEntry s) := by
  induction entries generalizing s with
  | nil => exact .refl s
  | cons e entries ih =>
    refine Untouched.trans (fun x hx => ?_) (ih fun f hf => hentries f (List.mem_cons_of_mem _ hf))
    by_cases huse : e.Usable
    · obtain ⟨hbase, hend, hsub⟩ := hentries e List.mem_cons_self huse
      rw [show carveEntry s e = carveRegion (e.length / pageSize) e.base e.length s from
        if_neg (not_not.2 huse)]
      exact carveRegion_frame hbase hend x fun hin => hx (hsub (MmapEntry.mem_bytes.2 hin))
    · rw [show carveEntry s e = s from if_pos huse]

/-- `buddy_init` writes to usable memory only. -/
theorem buddyInit_untouched (map : StivaleMap) (s : Buddy) :
    Untouched map s (buddyInit s map.entries) := by
  refine Untouched.trans (.of_mem rfl) (carveEntries_untouched map.entries fun e he huse => ?_)
  refine ⟨(map.aligned e he huse).1, map.top_lt e he huse, fun x hx => ?_⟩
  exact ⟨e, StivaleMap.mem_regions.2 ⟨he, huse⟩, hx⟩

/-! ## Runs -/

variable {h h' : Heap}

/-- Allocating writes into the block taken apart. -/
theorem Heap.Inv.alloc_untouched (hi : h.Inv map lists) {size p : ℕ} {b : Buddy}
    (hcall : buddyAlloc h.buddy size = some (p, b)) : Untouched map h.buddy b := by
  obtain ⟨order, horder, hresult⟩ := Option.map_eq_some_iff.1 hcall
  have hlo := (getOrder_bounds horder).1
  rcases allocFrom_cases order (maxOrder + 1 - order) order h.buddy with
    ⟨-, heq⟩ | ⟨k, hk, hlt, -, hne, heq⟩
  · obtain ⟨rfl, rfl⟩ := Prod.mk.inj (heq.symm.trans hresult)
    exact .refl _
  · have hhi : k ≤ maxOrder := by omega
    obtain ⟨post, hl⟩ := hi.tiled.list_of_head_ne (hlo.trans hk) hhi hne
    generalize h.buddy.freeList (k - minOrder) = block at hl heq
    have hmem : (⟨block, k⟩ : Block) ∈ listedBlocks lists :=
      mem_listedBlocks.2 ⟨hlo.trans hk, hhi, by simp [hl]⟩
    obtain ⟨rfl, rfl⟩ := Prod.mk.inj (heq.symm.trans hresult)
    intro x hx
    have hframe := (splitBlock_frame block (h.buddy.write (.head k) (nextOf h.buddy.mem block)) hlo hhi
      (hi.tiled.bounds hmem).2).1 x
    exact hframe fun hin => hx (hi.tiled.mem_usable hmem (Block.mem_bytes.2 hin))

/-- Freeing a held request writes to usable memory only. -/
theorem Heap.Inv.free_untouched (hi : h.Inv map lists) {addr size fuel : ℕ} {b : Buddy}
    (hheld : ⟨addr, size⟩ ∈ h.out) (hsafe : MergeAvoidsNull h (.free addr size))
    (hcall : buddyFree fuel h.buddy addr size = some b) : Untouched map h.buddy b := by
  obtain ⟨order, hhi, horder, hdvd⟩ := hi.requests _ hheld
  obtain ⟨hheads, hmem, -, -⟩ := h.buddy.uncount_frame order
  have hperm := (List.perm_cons_erase hheld).map Request.block
  rw [List.map_cons, Request.block_of_order horder] at hperm
  have ht : Tiled map (h.buddy.uncount order) lists ((⟨addr, order⟩ : Block).extent +
      extent ((h.out.erase ⟨addr, size⟩).map Request.block)) := by
    rw [← extent_cons, ← extent_perm hperm]
    exact hi.tiled.frame hheads fun _ _ _ _ => congrFun hmem _
  have hclimb : ¬ ClimbsToNull (h.buddy.uncount order) (maxOrder - order) addr order := by
    intro hc
    apply hsafe order horder
    refine (climbsToNull_congr fun k hk hlt a => ?_).1 hc
    have hlo := (getOrder_bounds horder).1
    rw [ht.freeBlock_iff (by omega) (by omega), hi.tiled.freeBlock_iff (by omega) (by omega)]
  rw [buddyFree_eq horder] at hcall
  exact (Untouched.of_mem hmem).trans
    (ht.mergeLoop_untouched hdvd (getOrder_bounds horder).1 (by omega) hclimb hcall)

/-- No call changes memory that is not usable. -/
theorem Heap.Inv.step_untouched (hi : h.Inv map lists) {call : Call}
    (hstep : guarded MergeAvoidsNull HeapStep h call h') : Untouched map h.buddy h'.buddy := by
  obtain ⟨hsafe, hstep⟩ := hstep
  cases hstep with
  | alloc hcall => exact hi.alloc_untouched hcall
  | free hheld hcall => exact hi.free_untouched hheld hsafe hcall
  | write hheld =>
    obtain ⟨b, hb, hxb⟩ := hheld
    intro y hy
    apply Function.update_of_ne
    rintro rfl
    have ht := hi.tiled
    rw [extent_perm (List.perm_cons_erase hb), extent_cons] at ht
    exact hy (ht.held_usable hxb)

/-- In every run, from `buddy_init` on, memory that is not usable keeps what it held. -/
theorem Heap.untouched_of_run {calls : List Call}
    (hrun : Run (guarded MergeAvoidsNull HeapStep) (Heap.start map s) calls h) :
    Untouched map s h.buddy := by
  refine (hrun.invariant (I := fun h => (∃ lists, h.Inv map lists) ∧ Untouched map s h.buddy)
    ?_ ?_).2
  · obtain ⟨lists, hi, -⟩ := Heap.inv_start map s
    exact ⟨⟨lists, hi⟩, buddyInit_untouched map s⟩
  · rintro h call h' ⟨⟨lists, hi⟩, hframe⟩ hstep
    obtain ⟨lists', hi', -⟩ := hi.step hstep
    exact ⟨⟨lists', hi'⟩, hframe.trans (hi.step_untouched hstep)⟩

end Orionis.Mem
