import Mathlib.Data.List.Flatten
import Mathlib.Data.List.Nodup
import Mathlib.Data.List.Pairwise
import Orionis.Foundations.Links
import Orionis.Mem.Buddy

/-!
# Free lists that tile memory

The abstract view of the allocator: for every order the list of its free blocks. `Tiled`
connects it to a state of the code, whose links in memory must spell these lists, and to
the memory map: the listed blocks together with a `rest` held elsewhere make up usable
RAM exactly. The three things the code ever does to a list, putting a block in front,
unlinking one from anywhere, and leaving the list alone while other memory is written,
keep the relation; blocks only move between the lists and the rest.
-/

namespace Orionis.Mem

open Orionis.Foundations

/-- The blocks on the lists of all orders. -/
def listedBlocks (lists : ℕ → List ℕ) : List Block :=
  (List.range' minOrder (maxOrder + 1 - minOrder)).flatMap fun k => (lists k).map (Block.mk · k)

/-- The blocks of all lists. -/
theorem mem_listedBlocks {lists : ℕ → List ℕ} {b : Block} :
    b ∈ listedBlocks lists ↔ minOrder ≤ b.order ∧ b.order ≤ maxOrder ∧ b.addr ∈ lists b.order := by
  obtain ⟨addr, order⟩ := b
  simp only [listedBlocks, List.mem_flatMap, List.mem_range'_1, List.mem_map, Block.mk.injEq,
    minOrder, maxOrder]
  constructor
  · intro hall
    obtain ⟨k, hk, a, ha, rfl, rfl⟩ := hall
    exact ⟨by omega, by omega, ha⟩
  · intro hall
    obtain ⟨hlo, hhi, ha⟩ := hall
    exact ⟨order, by omega, addr, ha, rfl, rfl⟩

/-- Taking one entry out of one list takes one block out of the listed ones. -/
private theorem flatMap_perm_update {lists : ℕ → List ℕ} {k a : ℕ} {l : List ℕ}
    (h : (lists k).Perm (a :: l)) (orders : List ℕ) (hnodup : orders.Nodup) (hk : k ∈ orders) :
    (orders.flatMap fun j => (lists j).map (Block.mk · j)).Perm
      (⟨a, k⟩ :: orders.flatMap fun j => ((Function.update lists k l) j).map (Block.mk · j)) := by
  induction orders with
  | nil => simp at hk
  | cons j orders ih =>
    obtain ⟨hj, hnodup⟩ := List.nodup_cons.1 hnodup
    rw [List.flatMap_cons, List.flatMap_cons]
    by_cases hjk : j = k
    · subst hjk
      have htail : (orders.flatMap fun i => ((Function.update lists j l) i).map (Block.mk · i)) =
          orders.flatMap fun i => (lists i).map (Block.mk · i) := by
        apply List.flatMap_congr
        intro i hi
        rw [Function.update_of_ne (by intro heq; subst heq; exact hj hi)]
      rw [htail, Function.update_self, ← List.cons_append]
      exact (h.map _).append_right _
    · rw [Function.update_of_ne hjk]
      have hk : k ∈ orders := (List.mem_cons.1 hk).resolve_left (Ne.symm hjk)
      exact ((ih hnodup hk).append_left _).trans List.perm_middle

/-- The blocks of a list and those of the others. -/
theorem listedBlocks_perm {lists : ℕ → List ℕ} {k a : ℕ} {l : List ℕ} (hlo : minOrder ≤ k)
    (hhi : k ≤ maxOrder) (h : (lists k).Perm (a :: l)) :
    (listedBlocks lists).Perm (⟨a, k⟩ :: listedBlocks (Function.update lists k l)) :=
  flatMap_perm_update h _ List.nodup_range' (by
    rw [List.mem_range'_1]
    simp only [minOrder, maxOrder] at *
    omega)

/-- Putting one entry in front of one list adds one block to the listed ones. -/
theorem listedBlocks_cons (lists : ℕ → List ℕ) {k : ℕ} (a : ℕ) (hlo : minOrder ≤ k)
    (hhi : k ≤ maxOrder) :
    (listedBlocks (Function.update lists k (a :: lists k))).Perm (⟨a, k⟩ :: listedBlocks lists) := by
  have hk : (Function.update lists k (a :: lists k) k).Perm (a :: lists k) := by
    rw [Function.update_self]
  have h := listedBlocks_perm hlo hhi hk
  rwa [Function.update_idem, Function.update_eq_self] at h

/-- The list heads and links of `s` spell `lists`, and the listed blocks together with
`rest` are usable RAM. -/
structure Tiled (map : StivaleMap) (s : Buddy) (lists : ℕ → List ℕ) (rest : Extent) : Prop where
  links : ∀ k, minOrder ≤ k → k ≤ maxOrder →
    Links (nextOf s.mem) (s.freeList (k - minOrder)) (lists k) 0
  aligned : ∀ b ∈ listedBlocks lists, b.Aligned
  extent_eq : extent (listedBlocks lists) + rest = map.extent

/-! ## What a tiling says about single blocks -/

section Facts

variable {map : StivaleMap} {s : Buddy} {lists : ℕ → List ℕ} {rest : Extent} {b c : Block} {x : ℕ}

/-- Bytes of listed blocks are usable. -/
theorem Tiled.mem_usable (ht : Tiled map s lists rest) (hb : b ∈ listedBlocks lists)
    (hx : x ∈ b.bytes) : x ∈ map.usable := by
  have hpos : 0 < (extent (listedBlocks lists)).1 x := extent_count_pos.2 ⟨b, hb, hx⟩
  rw [← StivaleMap.extent_count_pos, ← ht.extent_eq, Prod.fst_add, Pi.add_apply]
  omega

/-- Bytes of a block held outside the lists are usable. -/
theorem Tiled.held_usable (ht : Tiled map s lists (b.extent + rest)) (hx : x ∈ b.bytes) :
    x ∈ map.usable := by
  rw [← StivaleMap.extent_count_pos, ← ht.extent_eq]
  simp only [Prod.fst_add, Pi.add_apply, Block.extent_count, if_pos hx]
  omega

/-- A listed block does not overlap a block held outside the lists. -/
theorem Tiled.not_mem_held (ht : Tiled map s lists (b.extent + rest))
    (hc : c ∈ listedBlocks lists) (hxb : x ∈ b.bytes) : x ∉ c.bytes := by
  intro hxc
  have hpos : 0 < (extent (listedBlocks lists)).1 x := extent_count_pos.2 ⟨c, hc, hxc⟩
  have hle := map.extent_count_le_one x
  rw [← ht.extent_eq] at hle
  simp only [Prod.fst_add, Pi.add_apply, Block.extent_count, if_pos hxb] at hle
  omega

/-- Listed blocks do not overlap. -/
theorem Tiled.pairwise_disjoint (ht : Tiled map s lists rest) :
    (listedBlocks lists).Pairwise fun b c => Disjoint b.bytes c.bytes := by
  apply pairwise_disjoint_of_extent_le_one
  intro x
  have hle := map.extent_count_le_one x
  rw [← ht.extent_eq, Prod.fst_add, Pi.add_apply] at hle
  omega

/-- Overlapping listed blocks are the same block. -/
theorem Tiled.eq_of_mem (ht : Tiled map s lists rest) (hb : b ∈ listedBlocks lists)
    (hc : c ∈ listedBlocks lists) (hxb : x ∈ b.bytes) (hxc : x ∈ c.bytes) : b = c := by
  by_contra hne
  have : Std.Symm fun b c : Block => Disjoint b.bytes c.bytes := ⟨fun _ _ h => h.symm⟩
  have hdisj := ht.pairwise_disjoint.forall hb hc hne
  exact Set.disjoint_left.1 hdisj hxb hxc

/-- No block is on a list twice. -/
theorem Tiled.nodup (ht : Tiled map s lists rest) {k : ℕ} (hlo : minOrder ≤ k)
    (hhi : k ≤ maxOrder) : (lists k).Nodup := by
  have hlisted : (listedBlocks lists).Nodup := by
    apply ht.pairwise_disjoint.imp
    intro b c hdisj hbc
    exact Set.disjoint_left.1 hdisj b.addr_mem (hbc ▸ b.addr_mem)
  have hk : k ∈ List.range' minOrder (maxOrder + 1 - minOrder) := by
    rw [List.mem_range'_1]
    simp only [minOrder, maxOrder] at *
    omega
  exact ((List.nodup_flatMap.1 hlisted).1 k hk).of_map

/-- A usable block of at least one page starts at a page, not at zero, and ends below
`2 ^ 64`. -/
private theorem bounds_of_usable (h : ∀ x ∈ b.bytes, x ∈ map.usable) :
    pageSize ≤ b.addr ∧ b.addr + 2 ^ b.order ≤ 2 ^ 64 := by
  have hpos := Nat.two_pow_pos b.order
  have hfirst := StivaleMap.bounds_of_mem_usable (h _ b.addr_mem)
  have hlast := StivaleMap.bounds_of_mem_usable
    (h (b.addr + 2 ^ b.order - 1) (Block.mem_bytes.2 ⟨by omega, by omega⟩))
  omega

/-- Listed blocks begin above the first page and do not wrap. -/
theorem Tiled.bounds (ht : Tiled map s lists rest) (hb : b ∈ listedBlocks lists) :
    pageSize ≤ b.addr ∧ b.addr + 2 ^ b.order ≤ 2 ^ 64 :=
  bounds_of_usable fun _ hx => ht.mem_usable hb hx

/-- So does a block that is held. -/
theorem Tiled.held_bounds (ht : Tiled map s lists (b.extent + rest)) :
    pageSize ≤ b.addr ∧ b.addr + 2 ^ b.order ≤ 2 ^ 64 :=
  bounds_of_usable fun _ hx => ht.held_usable hx

/-- Null is on no list. -/
theorem Tiled.zero_notMem (ht : Tiled map s lists rest) {k : ℕ} (hlo : minOrder ≤ k)
    (hhi : k ≤ maxOrder) : 0 ∉ lists k := by
  intro hzero
  have hb := ht.bounds (mem_listedBlocks (b := ⟨0, k⟩).2 ⟨hlo, hhi, hzero⟩)
  simp only [pageSize] at hb
  omega

/-- Blocks of at least one page start at page boundaries. -/
theorem page_dvd_of_aligned (hb : b.Aligned) (horder : minOrder ≤ b.order) : pageSize ∣ b.addr :=
  (pow_dvd_pow 2 horder).trans hb

/-- Listed blocks begin a page. -/
theorem Tiled.page_dvd (ht : Tiled map s lists rest) (hb : b ∈ listedBlocks lists) :
    pageSize ∣ b.addr :=
  page_dvd_of_aligned (ht.aligned b hb) (mem_listedBlocks.1 hb).1

/-- A list head is null or the first listed block, hence a 64-bit address. -/
theorem Tiled.head_lt (ht : Tiled map s lists rest) {k : ℕ} (hlo : minOrder ≤ k)
    (hhi : k ≤ maxOrder) : s.freeList (k - minOrder) < 2 ^ 64 := by
  have hlinks := ht.links k hlo hhi
  cases hl : lists k with
  | nil =>
    rw [hl, links_nil] at hlinks
    rw [hlinks]
    exact Nat.two_pow_pos 64
  | cons a l =>
    rw [hl, links_cons] at hlinks
    have hb := ht.bounds (mem_listedBlocks (b := ⟨a, k⟩).2 ⟨hlo, hhi, by simp [hl]⟩)
    have hpos := Nat.two_pow_pos k
    simp only at hb
    omega

end Facts

/-! ## Links and stores -/

/-- A link has 64 bits. -/
theorem nextOf_lt (m : Memory) (a : ℕ) : nextOf m a < 2 ^ 64 := loadLE_lt m 8 a

/-- A link that was written. -/
theorem nextOf_store_same (m : Memory) {a v : ℕ} (hv : v < 2 ^ 64) :
    nextOf (storeLE m 8 a v) a = v := by
  rw [nextOf, loadLE_storeLE_same]
  exact Nat.mod_eq_of_lt hv

/-- A store to one page's link leaves the links of other pages alone. -/
theorem nextOf_store_of_ne (m : Memory) {a b v : ℕ} (ha : pageSize ∣ a) (hb : pageSize ∣ b)
    (hne : a ≠ b) : nextOf (storeLE m 8 a v) b = nextOf m b := by
  apply loadLE_storeLE_of_disjoint
  obtain ⟨p, hp⟩ := ha
  obtain ⟨q, hq⟩ := hb
  simp only [pageSize] at hp hq
  omega

/-- The link through which a walk reaches the end of the given prefix. -/
def linkAfter : Link → List ℕ → Link
  | cur, [] => cur
  | _, a :: l => linkAfter (.next a) l

/-- Behind the last block stands its own link. -/
theorem linkAfter_concat (cur : Link) (l : List ℕ) (a : ℕ) :
    linkAfter cur (l ++ [a]) = .next a := by
  induction l generalizing cur with
  | nil => rfl
  | cons x l ih => exact ih _

section Moves

variable {map : StivaleMap} {s : Buddy} {lists : ℕ → List ℕ} {rest : Extent}

/-- Putting a held block in front of its list. -/
theorem Tiled.insertBlock {b : Block} (ht : Tiled map s lists (b.extent + rest)) (hb : b.Aligned)
    (hlo : minOrder ≤ b.order) (hhi : b.order ≤ maxOrder) :
    Tiled map (s.insertBlock b.order b.addr)
      (Function.update lists b.order (b.addr :: lists b.order)) rest := by
  have hperm := listedBlocks_cons lists b.addr hlo hhi
  refine ⟨?_, ?_, ?_⟩
  · intro k hklo hkhi
    -- the store to the new block is off every list
    have hold : Links (nextOf (storeLE s.mem 8 b.addr (s.freeList (b.order - minOrder))))
        (s.freeList (k - minOrder)) (lists k) 0 := by
      apply (ht.links k hklo hkhi).congr
      intro a ha
      have hmem : (⟨a, k⟩ : Block) ∈ listedBlocks lists := mem_listedBlocks.2 ⟨hklo, hkhi, ha⟩
      apply nextOf_store_of_ne _ (page_dvd_of_aligned hb hlo) (ht.page_dvd hmem)
      intro heq
      subst heq
      exact ht.not_mem_held hmem b.addr_mem (Block.addr_mem _)
    by_cases hk : k = b.order
    · subst hk
      simp only [Buddy.insertBlock, Function.update_self, links_cons, true_and]
      rwa [nextOf_store_same _ (ht.head_lt hklo hkhi)]
    · have hslot : k - minOrder ≠ b.order - minOrder := by omega
      simpa only [Buddy.insertBlock, Function.update_of_ne hk, Function.update_of_ne hslot]
        using hold
  · intro c hc
    cases List.mem_cons.1 (hperm.mem_iff.1 hc) with
    | inl heq =>
      subst heq
      exact hb
    | inr hc =>
      exact ht.aligned c hc
  · rw [extent_perm hperm, extent_cons, ← ht.extent_eq, add_assoc]
    exact add_left_comm _ _ _

/-- Unlinking a block from anywhere in its list. -/
theorem Tiled.unlink {k a : ℕ} {pre post : List ℕ} (ht : Tiled map s lists rest)
    (hlo : minOrder ≤ k) (hhi : k ≤ maxOrder) (hl : lists k = pre ++ a :: post) :
    Tiled map (s.write (linkAfter (.head k) pre) (nextOf s.mem a))
      (Function.update lists k (pre ++ post)) ((⟨a, k⟩ : Block).extent + rest) := by
  have hperm := listedBlocks_perm (l := pre ++ post) hlo hhi (hl ▸ List.perm_middle)
  have hnodup := hl ▸ ht.nodup hlo hhi
  obtain ⟨hhead, htail⟩ := links_split.1 (hl ▸ ht.links k hlo hhi)
  refine ⟨?_, ?_, ?_⟩
  · intro j hjlo hjhi
    rcases List.eq_nil_or_concat' pre with rfl | ⟨pre, p, rfl⟩
    · -- the block is first in its list
      by_cases hj : j = k
      · subst hj
        simpa [linkAfter, Buddy.write] using htail
      · have hslot : j - minOrder ≠ k - minOrder := by omega
        simpa only [linkAfter, Buddy.write, Function.update_of_ne hj, Function.update_of_ne hslot]
          using ht.links j hjlo hjhi
    · -- the block has a predecessor `p`, whose link changes
      have hpk : (⟨p, k⟩ : Block) ∈ listedBlocks lists :=
        mem_listedBlocks.2 ⟨hlo, hhi, by simp [hl]⟩
      have hother {i c : ℕ} (hilo : minOrder ≤ i) (hihi : i ≤ maxOrder) (hc : c ∈ lists i)
          (hne : c = p → i ≠ k) : nextOf (storeLE s.mem 8 p (nextOf s.mem a)) c = nextOf s.mem c := by
        have hci : (⟨c, i⟩ : Block) ∈ listedBlocks lists := mem_listedBlocks.2 ⟨hilo, hihi, hc⟩
        apply nextOf_store_of_ne _ (ht.page_dvd hpk) (ht.page_dvd hci)
        intro heq
        subst heq
        have heq := ht.eq_of_mem hpk hci (Block.addr_mem _) (Block.addr_mem _)
        exact hne rfl (Block.mk.inj heq).2.symm
      rw [linkAfter_concat]
      by_cases hj : j = k
      · subst hj
        have hoff : p ∉ pre ∧ p ∉ post := by
          simp only [List.append_assoc, List.nodup_append, List.nodup_cons] at hnodup
          grind
        obtain ⟨hpre, hp⟩ := links_split.1 hhead
        simp only [Buddy.write, Function.update_self, List.append_assoc, List.singleton_append]
        refine links_split.2 ⟨hpre.congr ?_, ?_⟩
        · intro c hc
          exact hother hlo hhi (by simp [hl, hc]) fun h => absurd (h ▸ hc) hoff.1
        · rw [nextOf_store_same _ (nextOf_lt _ _)]
          apply htail.congr
          intro c hc
          exact hother hlo hhi (by simp [hl, hc]) fun h => absurd (h ▸ hc) hoff.2
      · simp only [Buddy.write, Function.update_of_ne hj]
        apply (ht.links j hjlo hjhi).congr
        intro c hc
        exact hother hjlo hjhi hc fun _ => hj
  · intro b hb
    exact ht.aligned b (hperm.mem_iff.2 (List.mem_cons_of_mem _ hb))
  · rw [← ht.extent_eq, extent_perm hperm, extent_cons, add_assoc]
    exact add_left_comm _ _ _

/-- Writes outside the listed blocks, and to the counters, do not matter. -/
theorem Tiled.frame {s' : Buddy} (ht : Tiled map s lists rest) (hheads : s'.freeList = s.freeList)
    (hmem : ∀ b ∈ listedBlocks lists, ∀ x ∈ b.bytes, s'.mem x = s.mem x) :
    Tiled map s' lists rest := by
  refine ⟨?_, ht.aligned, ht.extent_eq⟩
  intro k hlo hhi
  rw [hheads]
  apply (ht.links k hlo hhi).congr
  intro a ha
  have hb : (⟨a, k⟩ : Block) ∈ listedBlocks lists := mem_listedBlocks.2 ⟨hlo, hhi, ha⟩
  have hsize : 2 ^ 12 ≤ 2 ^ k := Nat.pow_le_pow_right (by decide) hlo
  apply loadLE_congr
  intro x hx hxlt
  exact hmem _ hb x (Block.mem_bytes.2 ⟨hx, by simp only; omega⟩)

end Moves

end Orionis.Mem
