import Orionis.Mem.BuddyTiling

/-!
# What the allocator's loops do to the free lists

One lemma for each loop of the source: splitting, the search over the orders, the walk
along a list, merging, and the carving of a region at start-up. Each says which lists
the loop leaves behind, that they still tile memory, and that no two buddies become free
together; the callers only use these lemmas.
-/

namespace Orionis.Mem

open Orionis.Foundations

/-- The blocks on the free lists, as a family. -/
def freeBlocks (lists : ℕ → List ℕ) : Set Block := {b | b ∈ listedBlocks lists}

/-- No two free blocks below the top order are buddies. -/
abbrev NoFreeBuddies (lists : ℕ → List ℕ) : Prop := Coalesced maxOrder (freeBlocks lists)

/-- Up to the largest order the shift does not overflow. -/
theorem sizeForOrder_eq {order : ℕ} (h : order ≤ maxOrder) : sizeForOrder order = 2 ^ order := by
  simp only [maxOrder] at h
  rw [sizeForOrder, Nat.mod_eq_of_lt (by omega), if_pos (by omega)]

/-- `get_buddy` is the address of the buddy. -/
theorem getBuddy_eq {addr order : ℕ} (h : order ≤ maxOrder) :
    getBuddy addr order = (Block.mk addr order).buddy.addr := by
  rw [getBuddy, sizeForOrder_eq h]
  rfl

/-- The loop counts up from the order it is given. -/
private theorem getOrderLoop_bounds {size fuel order blockSize o : ℕ}
    (h : getOrderLoop size fuel order blockSize = some o) : order ≤ o ∧ o < order + fuel := by
  induction fuel generalizing order blockSize with
  | zero => simp [getOrderLoop] at h
  | succ fuel ih =>
    rw [getOrderLoop] at h
    split at h
    · have := ih h
      omega
    · simp only [Option.some.injEq] at h
      omega

/-- Requests are rounded up to at least a page, to an order that fits eight bits. -/
theorem getOrder_bounds {size o : ℕ} (h : getOrder size = some o) : minOrder ≤ o ∧ o < 2 ^ 8 := by
  have := getOrderLoop_bounds h
  simp only [minOrder] at *
  omega

variable {map : StivaleMap} {s : Buddy} {lists : ℕ → List ℕ} {rest : Extent}

/-- A block put on a list is free. -/
theorem freeBlocks_cons {k a : ℕ} (hlo : minOrder ≤ k) (hhi : k ≤ maxOrder) :
    freeBlocks (Function.update lists k (a :: lists k)) = insert ⟨a, k⟩ (freeBlocks lists) := by
  ext b
  exact (listedBlocks_cons lists a hlo hhi).mem_iff.trans List.mem_cons

/-- Taking a block off a list frees no other one. -/
theorem freeBlocks_unlink {k a : ℕ} {pre post : List ℕ} (hlo : minOrder ≤ k) (hhi : k ≤ maxOrder)
    (hl : lists k = pre ++ a :: post) :
    freeBlocks (Function.update lists k (pre ++ post)) ⊆ freeBlocks lists := by
  intro b hb
  exact (listedBlocks_perm hlo hhi (hl ▸ List.perm_middle)).mem_iff.2 (List.mem_cons_of_mem _ hb)

/-! ## Splitting -/

/-- The lists after a block of order `i` has been split down to `order`: each order in
between has gained the upper half cut off there. -/
def splitLists (block order i : ℕ) (lists : ℕ → List ℕ) : ℕ → List ℕ :=
  fun k => if order ≤ k ∧ k < i then (block + 2 ^ k) :: lists k else lists k

/-- Without a split the lists are as they were. -/
theorem splitLists_self (block order : ℕ) : splitLists block order order lists = lists := by
  funext k
  exact if_neg (by omega)

/-- One more split puts one more upper half on its list. -/
theorem splitLists_succ (block : ℕ) {order i : ℕ} (h : order ≤ i) :
    splitLists block order i (Function.update lists i ((block + 2 ^ i) :: lists i)) =
      splitLists block order (i + 1) lists := by
  funext k
  rcases Nat.lt_trichotomy k i with hk | rfl | hk
  · simp only [splitLists, Function.update_of_ne hk.ne]
    exact if_congr (by omega) rfl rfl
  · simp [splitLists, h]
  · simp only [splitLists, Function.update_of_ne hk.ne']
    exact if_congr (by omega) rfl rfl

/-- The counters are not touched while lists are rearranged. -/
def SameCounters (s t : Buddy) : Prop :=
  t.totalPhysicalPages = s.totalPhysicalPages ∧ t.buddyUsedPages = s.buddyUsedPages ∧
    t.buddyTotalManagedPages = s.buddyTotalManagedPages

/-- Splitting counts nothing. -/
theorem splitBlock_counters (block order i : ℕ) : SameCounters s (splitBlock block order i s) := by
  induction i generalizing s with
  | zero => exact ⟨rfl, rfl, rfl⟩
  | succ i ih =>
    rw [splitBlock]
    split
    · exact ih
    · exact ⟨rfl, rfl, rfl⟩

/-- Splitting keeps the requested part of the block and lists every upper half. -/
theorem Tiled.splitBlock_spec {block order i : ℕ}
    (ht : Tiled map s lists ((⟨block, i⟩ : Block).extent + rest)) (hblock : 2 ^ i ∣ block)
    (hlo : minOrder ≤ order) (hle : order ≤ i) (hhi : i ≤ maxOrder) :
    Tiled map (splitBlock block order i s) (splitLists block order i lists)
        ((⟨block, order⟩ : Block).extent + rest) ∧
      (NoFreeBuddies lists → NoFreeBuddies (splitLists block order i lists)) := by
  induction i generalizing s lists with
  | zero => simp [minOrder] at *; omega
  | succ i ih =>
    rw [splitBlock]
    split
    · -- `lower` and `upper` are the halves of the block
      let lower : Block := ⟨block, i⟩
      let upper : Block := ⟨block + 2 ^ i, i⟩
      have hlower : lower.Aligned := (pow_dvd_pow 2 (Nat.le_succ i)).trans hblock
      have hupper : upper = lower.buddy := (Block.buddy_lower hblock).symm
      have hsplit : (⟨block, i + 1⟩ : Block).extent = upper.extent + lower.extent := by
        rw [← Block.parent_lower hblock, Block.extent_parent hlower, hupper, add_comm]
      have ht' : Tiled map s lists (upper.extent + (lower.extent + rest)) := by
        rwa [← add_assoc, ← hsplit]
      have haddr : (block + sizeForOrder i) % 2 ^ 64 = upper.addr := by
        have hend := ht.held_bounds.2
        have hpos := Nat.two_pow_pos i
        simp only [pow_succ 2 i] at hend
        rw [sizeForOrder_eq (by omega), Nat.mod_eq_of_lt (by omega)]
      have hupperAligned : upper.Aligned := hupper ▸ Block.buddy_aligned hlower
      have hilo : minOrder ≤ i := by omega
      have hihi : i ≤ maxOrder := by omega
      have hinsert := ht'.insertBlock hupperAligned hilo hihi
      rw [haddr, ← splitLists_succ block (by omega)]
      obtain ⟨htiled, hbuddies⟩ := ih hinsert ((pow_dvd_pow 2 (Nat.le_succ i)).trans hblock)
        (by omega) (by omega)
      refine ⟨htiled, fun h => hbuddies ?_⟩
      rw [NoFreeBuddies, freeBlocks_cons hilo hihi]
      apply h.insert hupperAligned
      intro _ hmem
      have hmem : lower ∈ listedBlocks lists := by
        rwa [show upper.buddy = lower by rw [hupper, Block.buddy_buddy]] at hmem
      have hheld : Tiled map s lists (lower.extent + (upper.extent + rest)) := by
        rwa [add_left_comm] at ht'
      exact hheld.not_mem_held hmem lower.addr_mem lower.addr_mem
    · have horder : order = i + 1 := by omega
      subst horder
      rw [splitLists_self]
      exact ⟨ht, id⟩

/-! ## Searching the orders -/

/-- The search either finds every list empty and changes nothing, or takes the first block
of the smallest non-empty order and splits it. -/
theorem allocFrom_cases (order count i : ℕ) (s : Buddy) :
    ((∀ k, i ≤ k → k < i + count → s.freeList (k - minOrder) = 0) ∧
        allocFrom order count i s = (0, s)) ∨
      ∃ k, i ≤ k ∧ k < i + count ∧ (∀ j, i ≤ j → j < k → s.freeList (j - minOrder) = 0) ∧
        s.freeList (k - minOrder) ≠ 0 ∧
        allocFrom order count i s =
          let block := s.freeList (k - minOrder)
          let t := splitBlock block order k (s.write (.head k) (nextOf s.mem block))
          (block, { t with
            buddyUsedPages := (t.buddyUsedPages + sizeForOrder order / pageSize) % 2 ^ 64 }) := by
  induction count generalizing i with
  | zero => exact Or.inl ⟨by omega, rfl⟩
  | succ count ih =>
    rw [allocFrom]
    by_cases hblock : s.freeList (i - minOrder) = 0
    · rw [if_neg (not_not.2 hblock)]
      rcases ih (i + 1) with ⟨hempty, heq⟩ | ⟨k, hk, hlt, hempty, hne, heq⟩
      · refine Or.inl ⟨fun k hk hlt => ?_, heq⟩
        cases Nat.eq_or_lt_of_le hk with
        | inl heq =>
          subst heq
          exact hblock
        | inr hk =>
          exact hempty k hk (by omega)
      · refine Or.inr ⟨k, by omega, by omega, fun j hj hjk => ?_, hne, heq⟩
        cases Nat.eq_or_lt_of_le hj with
        | inl heq =>
          subst heq
          exact hblock
        | inr hj =>
          exact hempty j hj hjk
    · rw [if_pos hblock]
      exact Or.inr ⟨i, le_rfl, by omega, by omega, hblock, rfl⟩

/-- An allocation that fails leaves the allocator as it was. -/
theorem eq_of_buddyAlloc_null {s b : Buddy} {size : ℕ} (h : buddyAlloc s size = some (0, b)) :
    b = s := by
  obtain ⟨order, -, hresult⟩ := Option.map_eq_some_iff.1 h
  rcases allocFrom_cases order (maxOrder + 1 - order) order s with ⟨-, heq⟩ | ⟨k, -, -, -, hne, heq⟩
  · exact (congrArg Prod.snd (heq.symm.trans hresult)).symm
  · exact absurd (congrArg Prod.fst (heq.symm.trans hresult)) hne

/-- A non-null list head is the first entry of its list. -/
theorem Tiled.list_of_head_ne (ht : Tiled map s lists rest) {k : ℕ} (hlo : minOrder ≤ k)
    (hhi : k ≤ maxOrder) (hne : s.freeList (k - minOrder) ≠ 0) :
    ∃ post, lists k = s.freeList (k - minOrder) :: post := by
  have hlinks := ht.links k hlo hhi
  cases hl : lists k with
  | nil => exact absurd (by rwa [hl] at hlinks) hne
  | cons a post =>
    rw [hl] at hlinks
    exact ⟨post, by rw [hlinks.1]⟩

/-- A null list head means an empty list. -/
theorem Tiled.list_of_head_eq (ht : Tiled map s lists rest) {k : ℕ} (hlo : minOrder ≤ k)
    (hhi : k ≤ maxOrder) (hzero : s.freeList (k - minOrder) = 0) : lists k = [] := by
  have hlinks := ht.links k hlo hhi
  cases hl : lists k with
  | nil => rfl
  | cons a post =>
    rw [hl] at hlinks
    have ha : a = 0 := by rw [← hlinks.1, hzero]
    exact absurd (by simp [hl, ha]) (ht.zero_notMem hlo hhi)

/-- Taking the first block of a list and splitting it. -/
theorem Tiled.splitFirst (ht : Tiled map s lists rest) {order i : ℕ} (hlo : minOrder ≤ order)
    (hle : order ≤ i) (hhi : i ≤ maxOrder) (hne : s.freeList (i - minOrder) ≠ 0) :
    let block := s.freeList (i - minOrder)
    ∃ post, lists i = block :: post ∧ 2 ^ i ∣ block ∧ block + 2 ^ i ≤ 2 ^ 64 ∧
      Tiled map (splitBlock block order i (s.write (.head i) (nextOf s.mem block)))
        (splitLists block order i (Function.update lists i post))
        ((⟨block, order⟩ : Block).extent + rest) ∧
      (NoFreeBuddies lists →
        NoFreeBuddies (splitLists block order i (Function.update lists i post))) := by
  obtain ⟨post, hl⟩ := ht.list_of_head_ne (hlo.trans hle) hhi hne
  generalize s.freeList (i - minOrder) = block at hl
  have hmem : (⟨block, i⟩ : Block) ∈ listedBlocks lists :=
    mem_listedBlocks.2 ⟨hlo.trans hle, hhi, by simp [hl]⟩
  have haligned := ht.aligned _ hmem
  have hfirst : lists i = [] ++ block :: post := hl
  have hunlink := ht.unlink (hlo.trans hle) hhi hfirst
  obtain ⟨hsplit, hbuddies⟩ := hunlink.splitBlock_spec haligned hlo hle hhi
  exact ⟨post, hl, haligned, (ht.bounds hmem).2, hsplit, fun hfree =>
    hbuddies (hfree.mono (freeBlocks_unlink (hlo.trans hle) hhi hfirst))⟩

/-! ## Walking a list -/

/-- The walk stops at the link to the wanted block, or at the last link of the list; it
needs one unit of fuel for each link it looks at. -/
theorem findLink_eq {cur : Link} {l : List ℕ} (h : Links (nextOf s.mem) (s.read cur) l 0)
    (hzero : 0 ∉ l) (buddy fuel : ℕ) :
    findLink s buddy fuel cur =
      if (l.takeWhile (· ≠ buddy)).length + 1 ≤ fuel then
        some (linkAfter cur (l.takeWhile (· ≠ buddy)))
      else none := by
  induction l generalizing fuel cur with
  | nil =>
    cases fuel with
    | zero => rfl
    | succ fuel => simp [findLink, links_nil.1 h, linkAfter]
  | cons a l ih =>
    obtain ⟨hcur, hl⟩ := h
    have ha : a ≠ 0 := fun ha => hzero (by simp [ha])
    have hl : Links (nextOf s.mem) (s.read (.next a)) l 0 := hl
    cases fuel with
    | zero => rfl
    | succ fuel =>
      rw [findLink, hcur]
      by_cases hab : a = buddy
      · simp [hab, linkAfter]
      · rw [if_pos ⟨ha, hab⟩]
        have htail := ih hl (fun h => hzero (by simp [h])) fuel
        simpa [hab, linkAfter, Nat.succ_le_succ_iff] using htail

/-- What is stored in the link a walk stops at. -/
theorem read_linkAfter {cur : Link} (pre : List ℕ) {l : List ℕ} {e : ℕ}
    (h : Links (nextOf s.mem) (s.read cur) (pre ++ l) e) :
    Links (nextOf s.mem) (s.read (linkAfter cur pre)) l e := by
  induction pre generalizing cur with
  | nil => exact h
  | cons a pre ih => exact ih h.2

/-! ## Merging -/

/-- The block is met on the way along its free list before the list ends. -/
def Buddy.FreeBlock (s : Buddy) (order addr : ℕ) : Prop :=
  addr ≠ 0 ∧ ∃ pre, Links (nextOf s.mem) (s.freeList (order - minOrder)) pre addr ∧ 0 ∉ pre

/-- Starting from the block at `addr`, merging reaches a block whose buddy address is null:
every buddy before it is free. At that block the end of the list is taken for the buddy. -/
def ClimbsToNull (s : Buddy) : (levels addr order : ℕ) → Prop
  | 0, _, _ => False
  | levels + 1, addr, order =>
    getBuddy addr order = 0 ∨
      s.FreeBlock order (getBuddy addr order) ∧
        ClimbsToNull s levels (min addr (getBuddy addr order)) (order + 1)

/-- The blocks on the lists of the code are those spelled. -/
theorem Tiled.freeBlock_iff (ht : Tiled map s lists rest) {k a : ℕ} (hlo : minOrder ≤ k)
    (hhi : k ≤ maxOrder) : s.FreeBlock k a ↔ a ∈ lists k := by
  have hlinks := ht.links k hlo hhi
  have hzero := ht.zero_notMem hlo hhi
  constructor
  · intro hall
    obtain ⟨hne, pre, hpre, hnull⟩ := hall
    exact hlinks.mem_of_prefix hpre hnull hne
  · intro ha
    obtain ⟨pre, post, hl⟩ := List.append_of_mem ha
    rw [hl] at hlinks hzero
    refine ⟨fun h => hzero (by simp [h]), pre, (links_split.1 hlinks).1, fun h => hzero (by simp [h])⟩

/-- Only the lists of the orders still to be climbed matter. -/
theorem climbsToNull_congr {s t : Buddy} {levels addr order : ℕ}
    (h : ∀ k, order ≤ k → k < order + levels → ∀ a, s.FreeBlock k a ↔ t.FreeBlock k a) :
    ClimbsToNull s levels addr order ↔ ClimbsToNull t levels addr order := by
  induction levels generalizing addr order with
  | zero => exact Iff.rfl
  | succ levels ih =>
    rw [ClimbsToNull, ClimbsToNull, h order le_rfl (by omega),
      ih fun k hk hlt => h k (by omega) (by omega)]

/-- One round of the merging loop where the buddy is free: it is unlinked and the lower of
the two addresses goes on. -/
theorem Tiled.mergeLoop_found (ht : Tiled map s lists rest) {addr order : ℕ} {pre post : List ℕ}
    (hlo : minOrder ≤ order) (hhi : order ≤ maxOrder)
    (hl : lists order = pre ++ getBuddy addr order :: post) (fuel levels : ℕ) :
    mergeLoop fuel (levels + 1) addr order s =
      if pre.length + 1 ≤ fuel then
        mergeLoop fuel levels (min addr (getBuddy addr order)) (order + 1)
          (s.write (linkAfter (.head order) pre) (nextOf s.mem (getBuddy addr order)))
      else none := by
  have hlinks : Links (nextOf s.mem) (s.read (.head order))
      (pre ++ getBuddy addr order :: post) 0 := hl ▸ ht.links order hlo hhi
  have hwalk : (pre ++ getBuddy addr order :: post).takeWhile (· ≠ getBuddy addr order) = pre := by
    have hnodup := hl ▸ ht.nodup hlo hhi
    rw [List.takeWhile_append_of_pos (by grind)]
    simp
  have hread : s.read (linkAfter (.head order) pre) = getBuddy addr order :=
    (links_cons.1 (read_linkAfter pre hlinks)).1
  have hmin : (if getBuddy addr order < addr then getBuddy addr order else addr) =
      min addr (getBuddy addr order) := by
    split_ifs <;> omega
  have hfind := findLink_eq hlinks (hl ▸ ht.zero_notMem hlo hhi) (getBuddy addr order) fuel
  rw [hwalk] at hfind
  rw [mergeLoop, hfind]
  by_cases hfuel : pre.length + 1 ≤ fuel
  · rw [if_pos hfuel, if_pos hfuel]
    simp only [Option.bind_eq_bind, Option.bind_some, hread, ne_eq, not_true_eq_false, if_false,
      hmin]
  · rw [if_neg hfuel, if_neg hfuel]
    rfl

/-- The last round of the merging loop, where the buddy is not free. -/
theorem Tiled.mergeLoop_absent (ht : Tiled map s lists rest) {addr order : ℕ}
    (hlo : minOrder ≤ order) (hhi : order ≤ maxOrder) (hnull : getBuddy addr order ≠ 0)
    (hmem : getBuddy addr order ∉ lists order) (fuel levels : ℕ) :
    mergeLoop fuel (levels + 1) addr order s =
      if (lists order).length + 1 ≤ fuel then some (s.insertBlock order addr) else none := by
  have hlinks : Links (nextOf s.mem) (s.read (.head order)) (lists order) 0 :=
    ht.links order hlo hhi
  have hwalk : (lists order).takeWhile (· ≠ getBuddy addr order) = lists order := by
    rw [← List.append_nil ((lists order).takeWhile _), ← List.append_nil (lists order),
      List.takeWhile_append_of_pos (by grind)]
    simp
  have hread : s.read (linkAfter (.head order) (lists order)) = 0 :=
    read_linkAfter (lists order) (l := []) (by rwa [List.append_nil])
  have hfind := findLink_eq hlinks (ht.zero_notMem hlo hhi) (getBuddy addr order) fuel
  rw [hwalk] at hfind
  rw [mergeLoop, hfind]
  by_cases hfuel : (lists order).length + 1 ≤ fuel
  · rw [if_pos hfuel, if_pos hfuel]
    simp only [Option.bind_eq_bind, Option.bind_some, hread, ne_eq, hnull.symm, not_false_eq_true,
      if_true]
  · rw [if_neg hfuel, if_neg hfuel]
    rfl

/-- Writing a link counts nothing. -/
theorem write_counters (s : Buddy) (cur : Link) (value : ℕ) :
    SameCounters s (s.write cur value) := by
  cases cur <;> exact ⟨rfl, rfl, rfl⟩

/-- With the buddy unlinked the parent is held. -/
theorem Tiled.mergeLoop_parent {addr order : ℕ} {pre post : List ℕ}
    (ht : Tiled map s lists ((⟨addr, order⟩ : Block).extent + rest)) (haddr : 2 ^ order ∣ addr)
    (hlo : minOrder ≤ order) (hhi : order ≤ maxOrder)
    (hl : lists order = pre ++ getBuddy addr order :: post) :
    Tiled map (s.write (linkAfter (.head order) pre) (nextOf s.mem (getBuddy addr order)))
      (Function.update lists order (pre ++ post))
      ((⟨min addr (getBuddy addr order), order + 1⟩ : Block).extent + rest) := by
  have hunlink := ht.unlink hlo hhi hl
  have hextent := Block.extent_parent (b := ⟨addr, order⟩) haddr
  rw [getBuddy_eq hhi] at hunlink ⊢
  change (⟨min addr _, order + 1⟩ : Block).extent = _ at hextent
  rw [hextent, add_comm (Block.extent _), add_assoc]
  exact hunlink

/-- Unlinking leaves the lists of the higher orders alone. -/
theorem Tiled.climbsToNull_unlink {levels order a addr : ℕ} {pre post : List ℕ}
    (ht : Tiled map s lists rest) (hlo : minOrder ≤ order) (hlevels : order + (levels + 1) = maxOrder)
    (hl : lists order = pre ++ a :: post) : ClimbsToNull s levels addr (order + 1) ↔
      ClimbsToNull (s.write (linkAfter (.head order) pre) (nextOf s.mem a)) levels addr
        (order + 1) := by
  apply climbsToNull_congr
  intro k hk hlt b
  rw [ht.freeBlock_iff (by omega) (by omega),
    (ht.unlink hlo (by omega) hl).freeBlock_iff (by omega) (by omega), Function.update_of_ne (by omega)]

/-- Merging a held block puts it, or a block it merges into, on a list. The run needs a
fixed amount of fuel and has one result. -/
theorem Tiled.mergeLoop_spec {levels addr order : ℕ}
    (ht : Tiled map s lists ((⟨addr, order⟩ : Block).extent + rest)) (haddr : 2 ^ order ∣ addr)
    (hlo : minOrder ≤ order) (hlevels : order + levels = maxOrder)
    (hsafe : ¬ ClimbsToNull s levels addr order) :
    ∃ t lists' need,
      (∀ fuel, mergeLoop fuel levels addr order s = if need ≤ fuel then some t else none) ∧
        Tiled map t lists' rest ∧ SameCounters s t ∧
        (NoFreeBuddies lists → NoFreeBuddies lists') := by
  induction levels generalizing s lists addr order with
  | zero =>
    have horder : order = maxOrder := by omega
    subst horder
    refine ⟨_, _, 0, fun fuel => by simp [mergeLoop],
      ht.insertBlock haddr hlo le_rfl, ⟨rfl, rfl, rfl⟩, fun h => ?_⟩
    rw [NoFreeBuddies, freeBlocks_cons hlo le_rfl]
    exact h.insert haddr fun hlt => absurd hlt (lt_irrefl _)
  | succ levels ih =>
    have hhi : order ≤ maxOrder := by omega
    have hbuddy : getBuddy addr order = (Block.mk addr order).buddy.addr := getBuddy_eq hhi
    rw [ClimbsToNull, not_or, not_and] at hsafe
    obtain ⟨hnull, hclimb⟩ := hsafe
    by_cases hmem : getBuddy addr order ∈ lists order
    · -- the buddy is free: the parent takes the place of both
      obtain ⟨pre, post, hl⟩ := List.append_of_mem hmem
      have hparent := ht.mergeLoop_parent haddr hlo hhi hl
      have haddr' : 2 ^ (order + 1) ∣ min addr (getBuddy addr order) := by
        rw [hbuddy]
        exact Block.parent_aligned (b := ⟨addr, order⟩) haddr
      have hsafe' := hclimb ((ht.freeBlock_iff hlo hhi).2 hmem)
      rw [ht.climbsToNull_unlink hlo hlevels hl] at hsafe'
      obtain ⟨t, lists', need, hrun, htiled, hcounters, hbuddies⟩ :=
        ih hparent haddr' (by omega) (by omega) hsafe'
      refine ⟨t, lists', max (pre.length + 1) need, fun fuel => ?_, htiled, ?_, fun h => ?_⟩
      · rw [ht.mergeLoop_found hlo hhi hl, hrun]
        split_ifs <;> first | rfl | omega
      · obtain ⟨h₁, h₂, h₃⟩ := write_counters s (linkAfter (.head order) pre)
          (nextOf s.mem (getBuddy addr order))
        exact ⟨hcounters.1.trans h₁, hcounters.2.1.trans h₂, hcounters.2.2.trans h₃⟩
      · exact hbuddies (h.mono (freeBlocks_unlink hlo hhi hl))
    · refine ⟨_, _, _, fun fuel => ht.mergeLoop_absent hlo hhi hnull hmem fuel levels,
        ht.insertBlock haddr hlo hhi, ⟨rfl, rfl, rfl⟩, fun h => ?_⟩
      rw [NoFreeBuddies, freeBlocks_cons hlo hhi]
      apply h.insert (b := ⟨addr, order⟩) haddr
      intro _ hfree
      apply hmem
      rw [hbuddy]
      exact (mem_listedBlocks.1 hfree).2.2

end Orionis.Mem
