import Orionis.Foundations.RadixTable
import Orionis.Limine.Handover

/-!
# Page tables

`mm/vmm.c` of Limine maps pages of 2 MiB and takes a page for a table from the memory map whenever a
slot on the way is empty. What a processor finds behind a virtual address afterwards is what the last
call for its page said, whatever other pages were mapped before and after.
-/

namespace Orionis.Limine

open Orionis.Foundations Orionis.Mem

/-! ## The source -/

/-- `PT_SIZE`. -/
def ptSize : ℕ := 0x1000

/-- `PAGE_SIZE` of the page tables. -/
def largePage : ℕ := 0x200000

/-- `pagemap_t`, of one of the two kinds `map_page` knows. -/
structure Pagemap where
  levels : ℕ
  topLevel : ℕ
  known : levels = 4 ∨ levels = 5

/-- `get_next_level`. A pointer to a table has 32 bits. -/
def getNextLevel (s : Boot) (currentLevel entry : ℕ) : Except Stop (ℕ × Boot) :=
  let e := tableEntry s.mem currentLevel entry
  if e &&& 0x1 ≠ 0 then .ok (alignDown e 0x1000 % 2 ^ 32, s)
  else do
    let (ret, s) ← extMemAllocAligned s ptSize ptSize
    .ok (ret, { s with mem := storeLE s.mem 8 (currentLevel + 8 * entry) (ret ||| 0b111) })

/-- `new_pagemap`. -/
def newPagemap (s : Boot) (lv : ℕ) (known : lv = 4 ∨ lv = 5) : Except Stop (Pagemap × Boot) := do
  let (topLevel, s) ← extMemAllocAligned s ptSize ptSize
  .ok (⟨lv, topLevel, known⟩, s)

/-- `pml5_entry`, `pml4_entry`, `pml3_entry` and `pml2_entry`, by the bit they begin at. -/
def pmlEntry (virtAddr shift : ℕ) : ℕ := (virtAddr &&& 0x1ff <<< shift) >>> shift

/-- `map_page`. -/
def mapPage (pagemap : Pagemap) (s : Boot) (virtAddr physAddr flags : ℕ) : Except Stop Boot := do
  let (pml4, s) ← if pagemap.levels = 5 then
    getNextLevel s pagemap.topLevel (pmlEntry virtAddr 48) else .ok (pagemap.topLevel, s)
  let (pml3, s) ← getNextLevel s pml4 (pmlEntry virtAddr 39)
  let (pml2, s) ← getNextLevel s pml3 (pmlEntry virtAddr 30)
  let leaf := physAddr ||| flags ||| 1 <<< 7
  .ok { s with mem := storeLE s.mem 8 (pml2 + 8 * pmlEntry virtAddr 21) leaf }

/-! ## The processor -/

/-- The entries of the upper levels: present, no large page, bits 12 to 51 of an address. -/
def pageTables : EntryFormat where
  present e := e % 2 = 1 ∧ e / 2 ^ 7 % 2 = 0
  target e := e / 2 ^ 12 % 2 ^ 40 * 2 ^ 12

/-- The indices of the tables above the last one, and the index in this one. -/
def pagePath (levels virtAddr : ℕ) : List ℕ :=
  (if levels = 5 then [virtAddr / 2 ^ 48 % 512] else []) ++
    [virtAddr / 2 ^ 39 % 512, virtAddr / 2 ^ 30 % 512]
def pageSlot (virtAddr : ℕ) : ℕ := virtAddr / 2 ^ 21 % 512

/-- The entry for an address in the last table. -/
def Pagemap.leaf (pagemap : Pagemap) (m : Memory) (virtAddr : ℕ) : ℕ :=
  entryAt pageTables m pagemap.topLevel (pagePath pagemap.levels virtAddr) (pageSlot virtAddr)

/-- Where the processor finds an address: present, a large page, bits 21 to 51 of its address. -/
def Pagemap.translate (pagemap : Pagemap) (m : Memory) (virtAddr : ℕ) : Option ℕ :=
  let e := pagemap.leaf m virtAddr
  if e % 2 = 1 ∧ e / 2 ^ 7 % 2 = 1 then
    some (e / 2 ^ 21 % 2 ^ 31 * 2 ^ 21 + virtAddr % 2 ^ 21) else none

/-- The part of a virtual address the tables are indexed with. -/
def pageNumber (levels virtAddr : ℕ) : ℕ :=
  virtAddr / largePage % 2 ^ (if levels = 5 then 36 else 27)

/-- An index is nine bits of the address. -/
theorem pmlEntry_eq (virtAddr shift : ℕ) : pmlEntry virtAddr shift = virtAddr / 2 ^ shift % 512 := by
  rw [pmlEntry, Nat.shiftRight_and_distrib, Nat.shiftLeft_shiftRight, Nat.shiftRight_eq_div_pow]
  exact Nat.and_two_pow_sub_one_eq_mod _ 9

/-- The indices of an address are those of entries. -/
theorem pagePath_indices (levels virtAddr : ℕ) : Indices (pagePath levels virtAddr) := by
  intro i hi
  rw [pagePath] at hi
  split at hi <;> simp only [List.cons_append, List.nil_append, List.mem_cons, List.not_mem_nil,
    or_false] at hi <;> omega

/-- The indices say which page it is. -/
theorem pageNumber_eq_iff {levels v w : ℕ} : pageNumber levels v = pageNumber levels w ↔
    pagePath levels v = pagePath levels w ∧ pageSlot v = pageSlot w := by
  rw [pageNumber, pageNumber, pagePath, pagePath, pageSlot, pageSlot, largePage]
  split <;> simp only [List.cons_append, List.nil_append, List.cons.injEq, and_true] <;> omega

/-! ## One step down -/

/-- The range of a page table. -/
def tablePage (t : ℕ) : MmapEntry := ⟨t, ptSize, memmapBootloaderReclaimable⟩

/-- How many tables there are above the last one. -/
def tableDepth (levels : ℕ) : ℕ := if levels = 5 then 3 else 2

/-- There is one index for each level above the last. -/
theorem pagePath_length (levels v : ℕ) : (pagePath levels v).length = tableDepth levels := by
  rw [pagePath, tableDepth]
  split <;> rfl

/-- The tables are pages the bootloader has taken below 4 GiB. -/
structure Mapped (firmware taken : List MmapEntry) (pagemap : Pagemap) (s : Boot) (pages : Set ℕ) :
    Prop where
  loader : Loader.Inv firmware ⟨s, taken⟩
  tree : RadixTree pageTables s.mem pagemap.topLevel (tableDepth pagemap.levels) pages
  taken : ∀ t ∈ pages, t + ptSize ≤ 2 ^ 32 ∧ tablePage t ∈ taken

/-- The tables of a tree afterwards, with the entries of the last level and the other memory as
before. -/
structure Extended (firmware : List MmapEntry) (pagemap : Pagemap) (s s' : Boot)
    (taken taken' : List MmapEntry) (pages pages' : Set ℕ) : Prop where
  mapped : Mapped firmware taken' pagemap s' pages'
  more : pages ⊆ pages'
  older : taken <:+ taken'
  leaves : ∀ path j, path.length = tableDepth pagemap.levels → Indices path → j < 512 →
    entryAt pageTables s'.mem pagemap.topLevel path j = entryAt pageTables s.mem pagemap.topLevel path j
  frame : ∀ x, (∀ t ∈ pages', x ∉ (tablePage t).bytes) → s'.mem x = s.mem x

variable {firmware taken : List MmapEntry} {pagemap : Pagemap} {s s' : Boot} {pages : Set ℕ}

/-- A number of zero bytes is zero. -/
theorem loadLE_zero {m : Memory} {n a : ℕ} (h : ∀ x, a ≤ x → x < a + n → m x = 0) :
    loadLE m n a = 0 := by
  induction n generalizing a with
  | zero => rfl
  | succ n ih =>
    rw [loadLE, h a le_rfl (by omega), ih fun x hlo hhi => h x (by omega) (by omega)]
    rfl

/-- What holds of the table does not depend on the memory. -/
theorem Loader.Inv.of_memmap (h : Loader.Inv firmware ⟨s, taken⟩) (heq : s'.memmap = s.memmap) :
    Loader.Inv firmware ⟨s', taken⟩ := by
  obtain ⟨memmap, mem⟩ := s
  obtain ⟨memmap', mem'⟩ := s'
  obtain rfl : memmap' = memmap := heq
  exact { h with }

/-- A page from the allocator is new, below 4 GiB and clear. -/
theorem Loader.Inv.page {ret : ℕ} (hi : Loader.Inv firmware ⟨s, taken⟩)
    (h : extMemAllocAligned s ptSize ptSize = .ok (ret, s')) :
    Loader.Inv firmware ⟨s', tablePage ret :: taken⟩ ∧ 4096 ∣ ret ∧ ret + ptSize ≤ 2 ^ 32 ∧
      s'.mem = memsetZero s.mem ret ptSize := by
  have hpos : ∀ u ∈ s.memmap, u.Usable → 0 < u.base :=
    fun u hu huse => Nat.lt_of_lt_of_le (by decide) (hi.low u hu huse)
  have htype : memmapBootloaderReclaimable ≠ memmapUsable := by decide
  obtain ⟨length, memmap, -, hcount, hlow, hdvd, -, hmem⟩ :=
    extMemAllocAlignedType_spec hi.bounded hpos hi.settled htype h
  refine ⟨?_, hdvd, by omega, hmem⟩
  have hcall : Loader.call ⟨s, taken⟩ (.ext ptSize ptSize memmapBootloaderReclaimable) =
      .ok ⟨s', tablePage ret :: taken⟩ := bind_eq_ok.2 ⟨(ret, s'), h, rfl⟩
  have hstep : LoaderStep ⟨s, taken⟩ (.ext ptSize ptSize memmapBootloaderReclaimable)
      ⟨s', tablePage ret :: taken⟩ := ⟨htype, hcall⟩
  exact hi.step hstep

/-- Where no table is taken the map is as it was. -/
theorem Extended.refl (h : Mapped firmware taken pagemap s pages) :
    Extended firmware pagemap s s taken taken pages pages :=
  ⟨h, subset_rfl, List.suffix_rfl, fun _ _ _ _ _ => rfl, fun _ _ => rfl⟩

/-- Tables taken one after the other. -/
theorem Extended.trans {s'' : Boot} {taken' taken'' : List MmapEntry} {pages' pages'' : Set ℕ}
    (h : Extended firmware pagemap s s' taken taken' pages pages')
    (h' : Extended firmware pagemap s' s'' taken' taken'' pages' pages'') :
    Extended firmware pagemap s s'' taken taken'' pages pages'' where
  mapped := h'.mapped
  more := h.more.trans h'.more
  older := h.older.trans h'.older
  leaves path j hlen hpath hj := (h'.leaves path j hlen hpath hj).trans (h.leaves path j hlen hpath hj)
  frame x hx := (h'.frame x hx).trans (h.frame x fun t ht => hx t (h'.more ht))

/-- The entry for a new table. -/
theorem or_seven {ret : ℕ} (h : 4096 ∣ ret) : ret ||| 0b111 = ret + 7 := by
  obtain ⟨k, rfl⟩ := h
  have hor := Nat.two_pow_add_eq_or_of_lt (show 7 < 2 ^ 12 by decide) k
  exact hor.symm

/-- The table an entry leads to lies below 4 GiB. -/
theorem target_eq {e : ℕ} (hlow : pageTables.target e + ptSize ≤ 2 ^ 32) :
    pageTables.target e = alignDown e 0x1000 % 2 ^ 32 := by
  change e / 2 ^ 12 % 2 ^ 40 * 2 ^ 12 + 0x1000 ≤ 2 ^ 32 at hlow
  change e / 2 ^ 12 % 2 ^ 40 * 2 ^ 12 = e / 0x1000 * 0x1000 % 2 ^ 32
  omega

/-- Without its lowest bit an entry is not present. -/
theorem absent_of_bit {e : ℕ} (h : e &&& 0x1 = 0) : pageTables.present e = false := by
  rw [Nat.and_one_is_mod] at h
  exact decide_eq_false fun hboth => by omega

/-- The entry of a table that is there is the way to it. -/
theorem Mapped.next_present {path : List ℕ} {t i : ℕ} (h : Mapped firmware taken pagemap s pages)
    (htable : tableAt pageTables s.mem pagemap.topLevel path = some t)
    (hlen : path.length < tableDepth pagemap.levels) (hpath : Indices path) (hi : i < 512)
    (hbit : tableEntry s.mem t i &&& 0x1 ≠ 0) :
    tableAt pageTables s.mem pagemap.topLevel (path ++ [i]) =
      some (alignDown (tableEntry s.mem t i) 0x1000 % 2 ^ 32) := by
  have hpresent := (h.tree.clean path t i hlen hpath hi htable).resolve_right fun heq =>
    hbit (by rw [heq, Nat.zero_and])
  have hnext : tableAt pageTables s.mem pagemap.topLevel (path ++ [i]) =
      some (pageTables.target (tableEntry s.mem t i)) := by
    rw [tableAt_concat, htable, Option.bind_some, EntryFormat.follow, if_pos hpresent]
  have hlen' : (path ++ [i]).length ≤ tableDepth pagemap.levels := by
    rw [List.length_append, List.length_singleton]
    exact hlen
  -- the table lies below 4 GiB, so that no bit of its address is lost
  have hlow := (h.taken _ (h.tree.owned _ _ hlen' (indices_concat.2 ⟨hpath, hi⟩) hnext)).1
  rw [hnext]
  exact congrArg some (target_eq hlow)

/-- The entry for a new table leads to it. -/
theorem follow_fresh {m : Memory} {t i ret : ℕ} (hdvd : 4096 ∣ ret) (hlow : ret + ptSize ≤ 2 ^ 32) :
    pageTables.follow (storeLE m 8 (t + 8 * i) (ret ||| 0b111)) t i = some ret := by
  rw [ptSize] at hlow
  have hpresent : pageTables.present (ret + 7) = true := decide_eq_true (by omega)
  have htarget : pageTables.target (ret + 7) = ret := by
    change (ret + 7) / 2 ^ 12 % 2 ^ 40 * 2 ^ 12 = ret
    omega
  rw [or_seven hdvd, EntryFormat.follow, tableEntry_store_same (by omega), if_pos hpresent, htarget]

/-- A new page hung into the tree. -/
theorem Mapped.grown {t i ret : ℕ} {m : Memory} (h : Mapped firmware taken pagemap s pages)
    (hmem : t ∈ pages) (hi : i < 512) (hdvd : 4096 ∣ ret) (hlow : ret + ptSize ≤ 2 ^ 32)
    (hunused : ret ∉ pages) (hclear : m = memsetZero s.mem ret ptSize) :
    Grown pageTables s.mem (storeLE m 8 (t + 8 * i) (ret ||| 0b111)) pages t i ret where
  aligned := hdvd
  unused := hunused
  zero j hj := by
    have hne : ret ≠ t := fun heq => hunused (heq ▸ hmem)
    rw [tableEntry_store_of_ne hdvd (h.tree.aligned t hmem) hi hj (.inl hne), hclear]
    apply loadLE_zero
    intro x hlo hhi
    exact if_pos ⟨by omega, by rw [ptSize]; omega⟩
  points := follow_fresh hdvd hlow
  frame q hq j hj hslot := by
    have hq' := h.tree.aligned q hq
    have hqne : ret ≠ q := fun heq => hunused (heq ▸ hq)
    rw [tableEntry_store_of_ne hq' (h.tree.aligned t hmem) hi hj hslot, hclear]
    apply loadLE_congr
    intro x hlo hhi
    exact if_neg (by rw [ptSize]; omega)

/-- Going down one level leads to a table on the path, a new one at most, and keeps the map. -/
theorem getNextLevel_spec {path : List ℕ} {t i next : ℕ}
    (h : Mapped firmware taken pagemap s pages)
    (htable : tableAt pageTables s.mem pagemap.topLevel path = some t)
    (hlen : path.length < tableDepth pagemap.levels) (hpath : Indices path) (hi : i < 512)
    (hcall : getNextLevel s t i = .ok (next, s')) :
    ∃ taken' pages', Extended firmware pagemap s s' taken taken' pages pages' ∧
      tableAt pageTables s'.mem pagemap.topLevel (path ++ [i]) = some next := by
  have hmem := h.tree.owned path t hlen.le hpath htable
  rw [getNextLevel] at hcall
  dsimp only at hcall
  split at hcall
  case isTrue hbit =>
    obtain ⟨rfl, rfl⟩ := Prod.mk.inj (Except.ok.inj hcall)
    exact ⟨taken, pages, .refl h, h.next_present htable hlen hpath hi hbit⟩
  case isFalse hbit =>
    obtain ⟨⟨ret, b⟩, hext, hcall⟩ := bind_eq_ok.1 hcall
    obtain ⟨rfl, hs'⟩ := Prod.mk.inj (Except.ok.inj hcall)
    obtain ⟨hinv, hdvd, hlow, hclear⟩ := h.loader.page hext
    have hunused : ret ∉ pages := by
      intro hret
      have hself := (List.pairwise_cons.1 hinv.disjoint).1 _ (h.taken ret hret).2
      simp only [Clear, tablePage, ptSize] at hself
      omega
    have hgrown := h.grown hmem hi hdvd hlow hunused hclear
    obtain ⟨htree, hnext, hleaves⟩ := h.tree.grow hgrown (by decide) htable hlen hpath hi
      (absent_of_bit (not_ne_iff.1 hbit))
    have hmem' : s'.mem = storeLE b.mem 8 (t + 8 * i) (ret ||| 0b111) := by rw [← hs']
    have hmemmap : s'.memmap = b.memmap := by rw [← hs']
    rw [← hmem'] at htree hnext hleaves
    refine ⟨tablePage ret :: taken, insert ret pages, ⟨⟨?_, htree, ?_⟩, Set.subset_insert _ _,
      List.suffix_cons _ _, hleaves, ?_⟩, hnext⟩
    · exact hinv.of_memmap hmemmap
    · intro q hq
      rcases hq with rfl | hq
      · exact ⟨hlow, List.mem_cons_self⟩
      · exact ⟨(h.taken q hq).1, List.mem_cons_of_mem _ (h.taken q hq).2⟩
    · intro x hx
      have hxt := hx t (Set.mem_insert_of_mem _ hmem)
      have hxr := hx ret (Set.mem_insert _ _)
      simp only [MmapEntry.mem_bytes, tablePage] at hxt hxr
      rw [hmem', storeLE_of_outside _ _ _ _ _ (by rw [ptSize] at hxt; omega), hclear]
      exact if_neg hxr

/-! ## A call -/

/-- The tables above the last one, in a row. -/
def descend (t : ℕ) (s : Boot) (path : List ℕ) : Except Stop (ℕ × Boot) :=
  path.foldlM (fun (t, s) i => getNextLevel s t i) (t, s)

/-- `map_page` goes down to the last level and writes one entry. -/
theorem mapPage_eq (pagemap : Pagemap) (s : Boot) (virtAddr physAddr flags : ℕ) :
    mapPage pagemap s virtAddr physAddr flags = (do
      let (pml2, s) ← descend pagemap.topLevel s (pagePath pagemap.levels virtAddr)
      let leaf := physAddr ||| flags ||| 1 <<< 7
      .ok { s with mem := storeLE s.mem 8 (pml2 + 8 * pageSlot virtAddr) leaf }) := by
  simp only [mapPage, descend, pagePath, pageSlot, pmlEntry_eq]
  split
  · simp only [List.cons_append, List.nil_append, List.foldlM_cons, List.foldlM_nil, bind_assoc]
    rfl
  · simp only [List.nil_append, List.foldlM_cons, List.foldlM_nil, bind_assoc]
    rfl

/-- Going down some levels leads to the table on the path behind them and keeps the map. -/
theorem descend_spec {rest path : List ℕ} {t last : ℕ} (h : Mapped firmware taken pagemap s pages)
    (htable : tableAt pageTables s.mem pagemap.topLevel path = some t)
    (hlen : path.length + rest.length ≤ tableDepth pagemap.levels) (hpath : Indices (path ++ rest))
    (hcall : descend t s rest = .ok (last, s')) :
    ∃ taken' pages', Extended firmware pagemap s s' taken taken' pages pages' ∧
      tableAt pageTables s'.mem pagemap.topLevel (path ++ rest) = some last := by
  induction rest generalizing s path t taken pages with
  | nil =>
    obtain ⟨rfl, rfl⟩ := Prod.mk.inj (Except.ok.inj hcall)
    rw [List.append_nil]
    exact ⟨taken, pages, .refl h, htable⟩
  | cons i rest ih =>
    obtain ⟨⟨next, s₁⟩, hnext, hrest⟩ := bind_eq_ok.1 hcall
    rw [List.append_cons] at hpath ⊢
    have hhere : Indices (path ++ [i]) := fun j hj => hpath j (List.mem_append_left rest hj)
    obtain ⟨hpath', hi⟩ := indices_concat.1 hhere
    rw [List.length_cons] at hlen
    obtain ⟨taken₁, pages₁, hext, htable₁⟩ :=
      getNextLevel_spec h htable (by omega) hpath' hi hnext
    have hlen₁ : (path ++ [i]).length + rest.length ≤ tableDepth pagemap.levels := by
      rw [List.length_append, List.length_singleton]
      omega
    obtain ⟨taken₂, pages₂, hext', hlast⟩ := ih hext.mapped htable₁ hlen₁ hpath hrest
    exact ⟨taken₂, pages₂, hext.trans hext', hlast⟩

/-- Going down from the top leads to the table of the last level and keeps the map. -/
theorem Mapped.descend {path : List ℕ} {last : ℕ} (h : Mapped firmware taken pagemap s pages)
    (hlen : path.length = tableDepth pagemap.levels) (hpath : Indices path)
    (hcall : descend pagemap.topLevel s path = .ok (last, s')) :
    ∃ taken' pages', Extended firmware pagemap s s' taken taken' pages pages' ∧
      tableAt pageTables s'.mem pagemap.topLevel path = some last := by
  have hlen₀ : ([] : List ℕ).length + path.length ≤ tableDepth pagemap.levels := by
    rw [List.length_nil, Nat.zero_add, hlen]
  have hdown := descend_spec h tableAt_nil hlen₀ (List.nil_append path ▸ hpath) hcall
  rwa [List.nil_append] at hdown

/-- A call changes the entry of its page and no other. -/
theorem mapPage_spec {virtAddr physAddr flags : ℕ} (h : Mapped firmware taken pagemap s pages)
    (hphys : physAddr < 2 ^ 64) (hflags : flags < 2 ^ 64)
    (hcall : mapPage pagemap s virtAddr physAddr flags = .ok s') :
    ∃ taken' pages', Mapped firmware taken' pagemap s' pages' ∧ pages ⊆ pages' ∧ taken <:+ taken' ∧
      (∀ v, pagemap.leaf s'.mem v =
        if pageNumber pagemap.levels v = pageNumber pagemap.levels virtAddr
        then physAddr ||| flags ||| 1 <<< 7 else pagemap.leaf s.mem v) ∧
      ∀ x, (∀ t ∈ pages', x ∉ (tablePage t).bytes) → s'.mem x = s.mem x := by
  rw [mapPage_eq] at hcall
  obtain ⟨⟨pml2, b⟩, hdown, hcall⟩ := bind_eq_ok.1 hcall
  have hs' := Except.ok.inj hcall
  have hlen := pagePath_length pagemap.levels
  have hslot : ∀ v, pageSlot v < 512 := fun v => Nat.mod_lt _ (by decide)
  obtain ⟨taken', pages', hext, htable⟩ :=
    h.descend (hlen virtAddr) (pagePath_indices _ virtAddr) hdown
  have hv : physAddr ||| flags ||| 1 <<< 7 < 2 ^ 64 :=
    Nat.or_lt_two_pow (Nat.or_lt_two_pow hphys hflags) (by decide)
  have hpath := pagePath_indices pagemap.levels virtAddr
  obtain ⟨htree, hleaves⟩ := hext.mapped.tree.store htable (hlen _) hpath (hslot virtAddr) hv
  have hmem : s'.mem =
      storeLE b.mem 8 (pml2 + 8 * pageSlot virtAddr) (physAddr ||| flags ||| 1 <<< 7) := by rw [← hs']
  have hmemmap : s'.memmap = b.memmap := by rw [← hs']
  rw [← hmem] at htree hleaves
  refine ⟨taken', pages', ⟨hext.mapped.loader.of_memmap hmemmap, htree, hext.mapped.taken⟩, hext.more,
    hext.older, fun v => ?_, fun x hx => ?_⟩
  · rw [Pagemap.leaf, hleaves _ _ (hlen v) (pagePath_indices _ v) (hslot v),
      hext.leaves _ _ (hlen v) (pagePath_indices _ v) (hslot v), if_congr pageNumber_eq_iff.symm rfl rfl]
    rfl
  · have hpml2 := hx pml2 (hext.mapped.tree.owned _ _ (hlen virtAddr).le hpath htable)
    rw [MmapEntry.mem_bytes] at hpml2
    have hend := hslot virtAddr
    rw [hmem, storeLE_of_outside, hext.frame x hx]
    simp only [tablePage, ptSize] at hpml2
    omega

/-! ## All calls -/

/-- The arguments of `map_page`. -/
structure MapRequest where
  virtAddr : ℕ
  physAddr : ℕ
  flags : ℕ
  deriving DecidableEq, Repr

/-- Calls of `map_page`. -/
def mapPages (pagemap : Pagemap) (s : Boot) (requests : List MapRequest) : Except Stop Boot :=
  requests.foldlM (fun s r => mapPage pagemap s r.virtAddr r.physAddr r.flags) s

/-- The last request for the page of an address. -/
def lastFor (levels : ℕ) (requests : List MapRequest) (v : ℕ) : Option MapRequest :=
  requests.reverse.find? fun r => pageNumber levels r.virtAddr = pageNumber levels v

/-- A present page of the physical memory. -/
structure MapRequest.Proper (r : MapRequest) : Prop where
  aligned : largePage ∣ r.physAddr
  phys : r.physAddr < 2 ^ 52
  present : r.flags % 2 = 1
  flags : r.flags < largePage

/-- What the entries of the last level are to be after requests on an empty map. -/
def MapRequest.entry (r : MapRequest) : ℕ := r.physAddr ||| r.flags ||| 1 <<< 7

/-- The last request answers for its page and leaves the others. -/
theorem lastFor_concat (levels : ℕ) (requests : List MapRequest) (r : MapRequest) (v : ℕ) :
    lastFor levels (requests ++ [r]) v =
      if pageNumber levels v = pageNumber levels r.virtAddr then some r
      else lastFor levels requests v := by
  rw [lastFor, List.reverse_append, List.reverse_singleton, List.singleton_append, List.find?_cons]
  by_cases heq : pageNumber levels r.virtAddr = pageNumber levels v
  · simp [heq]
  · simp [heq, Ne.symm heq, lastFor]

/-- The last request for a page is one of those for it. -/
theorem lastFor_some {levels v : ℕ} {requests : List MapRequest} {r : MapRequest}
    (h : lastFor levels requests v = some r) :
    r ∈ requests ∧ pageNumber levels r.virtAddr = pageNumber levels v := by
  have hfound := List.find?_some h
  exact ⟨List.mem_reverse.1 (List.mem_of_find?_eq_some h), of_decide_eq_true hfound⟩

/-- A new map is one table that leads nowhere, in memory of its own. -/
theorem newPagemap_spec {lv : ℕ} {known : lv = 4 ∨ lv = 5} (hi : Loader.Inv firmware ⟨s, taken⟩)
    (hnew : newPagemap s lv known = .ok (pagemap, s')) :
    pagemap.levels = lv ∧
      Mapped firmware (tablePage pagemap.topLevel :: taken) pagemap s' {pagemap.topLevel} ∧
      (∀ v, pagemap.leaf s'.mem v = 0) ∧
      ∀ x, x ∉ (tablePage pagemap.topLevel).bytes → s'.mem x = s.mem x := by
  obtain ⟨⟨ret, b⟩, hext, hnew⟩ := bind_eq_ok.1 hnew
  obtain ⟨rfl, rfl⟩ := Prod.mk.inj (Except.ok.inj hnew)
  obtain ⟨hinv, hdvd, hlow, hclear⟩ := hi.page hext
  have hzero : ∀ i < 512, tableEntry b.mem ret i = 0 := by
    intro i hi
    rw [hclear]
    apply loadLE_zero
    intro x hlo hhi
    exact if_pos ⟨by omega, by rw [ptSize]; omega⟩
  have hformat : pageTables.present 0 = false := by decide
  obtain ⟨htree, hleaves⟩ := RadixTree.empty (tableDepth lv) hdvd hzero hformat
  refine ⟨rfl, ⟨hinv, htree, ?_⟩, fun v => ?_, fun x hx => ?_⟩
  · rintro t rfl
    exact ⟨hlow, List.mem_cons_self⟩
  · exact hleaves _ _ (pagePath_indices _ v) (Nat.mod_lt _ (by decide))
  · rw [hclear]
    exact if_neg (mt MmapEntry.mem_bytes.2 hx)

/-- Calls in a row. -/
theorem mapPages_spec {requests : List MapRequest} (h : Mapped firmware taken pagemap s pages)
    (hproper : ∀ r ∈ requests, r.Proper) (hcall : mapPages pagemap s requests = .ok s') :
    ∃ taken' pages', Mapped firmware taken' pagemap s' pages' ∧ pages ⊆ pages' ∧ taken <:+ taken' ∧
      (∀ v, pagemap.leaf s'.mem v =
        ((lastFor pagemap.levels requests v).map (·.entry)).getD (pagemap.leaf s.mem v)) ∧
      ∀ x, (∀ t ∈ pages', x ∉ (tablePage t).bytes) → s'.mem x = s.mem x := by
  induction requests using List.reverseRecOn generalizing s' with
  | nil =>
    obtain rfl := Except.ok.inj hcall
    exact ⟨taken, pages, h, subset_rfl, List.suffix_rfl, fun _ => rfl, fun _ _ => rfl⟩
  | append_singleton requests r ih =>
    rw [mapPages, List.foldlM_append] at hcall
    obtain ⟨s₁, hrun, hcall⟩ := bind_eq_ok.1 hcall
    rw [List.foldlM_cons] at hcall
    obtain ⟨s₂, hlast, hcall⟩ := bind_eq_ok.1 hcall
    obtain rfl := Except.ok.inj hcall
    obtain ⟨taken₁, pages₁, h₁, hmore₁, holder₁, hleaf₁, hframe₁⟩ :=
      ih (fun q hq => hproper q (List.mem_append_left _ hq)) hrun
    have hr := hproper r (List.mem_append_right _ List.mem_cons_self)
    obtain ⟨taken₂, pages₂, h₂, hmore₂, holder₂, hleaf₂, hframe₂⟩ :=
      mapPage_spec h₁ (hr.phys.trans (by decide)) (hr.flags.trans (by decide)) hlast
    refine ⟨taken₂, pages₂, h₂, hmore₁.trans hmore₂, holder₁.trans holder₂, fun v => ?_, fun x hx => ?_⟩
    · rw [hleaf₂, lastFor_concat, hleaf₁]
      split <;> rfl
    · rw [hframe₂ x hx, hframe₁ x fun t ht => hx t (hmore₂ ht)]

/-- How the processor reads the entry of a request. -/
theorem MapRequest.Proper.read {r : MapRequest} (h : r.Proper) : r.entry % 2 = 1 ∧
    r.entry / 2 ^ 7 % 2 = 1 ∧ r.entry / 2 ^ 21 % 2 ^ 31 * 2 ^ 21 = r.physAddr := by
  obtain ⟨k, hk⟩ := h.aligned
  have hlow : r.flags ||| 1 <<< 7 < 2 ^ 21 := Nat.or_lt_two_pow h.flags (by decide)
  have hsum : r.entry = 2 ^ 21 * k + (r.flags ||| 1 <<< 7) := by
    rw [entry, Nat.or_assoc, hk]
    exact (Nat.two_pow_add_eq_or_of_lt hlow k).symm
  have hbit : (r.flags ||| 1 <<< 7) % 2 = 1 := by
    have := Nat.testBit_or r.flags (1 <<< 7) 0
    simp only [Nat.testBit_zero, h.present] at this
    simpa using this
  have hlarge : (r.flags ||| 1 <<< 7) / 2 ^ 7 % 2 = 1 := by
    have := Nat.testBit_or r.flags (1 <<< 7) 7
    rw [Nat.testBit_eq_decide_div_mod_eq, show Nat.testBit (1 <<< 7) 7 = true from rfl,
      Bool.or_true] at this
    exact of_decide_eq_true this
  have hphys := h.phys
  rw [show largePage = 2 ^ 21 from rfl] at hk
  exact ⟨by omega, by omega, by omega⟩

/-- The address space the requests ask for. -/
theorem translate_eq {requests : List MapRequest} {m : Memory} {v : ℕ}
    (hproper : ∀ r ∈ requests, r.Proper)
    (hleaf : pagemap.leaf m v = ((lastFor pagemap.levels requests v).map (·.entry)).getD 0) :
    pagemap.translate m v =
      (lastFor pagemap.levels requests v).map fun r => r.physAddr + v % largePage := by
  rw [Pagemap.translate, hleaf]
  cases hlast : lastFor pagemap.levels requests v with
  | none => rfl
  | some r =>
    have hr := hproper r (lastFor_some hlast).1
    obtain ⟨hpresent, hlarge, hphys⟩ := hr.read
    simp only [Option.map_some, Option.getD_some]
    rw [if_pos ⟨hpresent, hlarge⟩, hphys]
    rfl

/-- The tables are read from pages the bootloader has taken. -/
theorem Mapped.leaf_congr {m : Memory} (h : Mapped firmware taken pagemap s pages)
    (hsame : ∀ x, ∀ t ∈ taken, x ∈ t.bytes → m x = s.mem x) (v : ℕ) :
    pagemap.leaf m v = pagemap.leaf s.mem v := by
  have hslot : pageSlot v < 512 := Nat.mod_lt _ (by decide)
  refine h.tree.entryAt_congr (fun t ht i hi => ?_) (pagePath_length _ v).le (pagePath_indices _ v) hslot
  apply loadLE_congr
  intro x hlo hhi
  apply hsame x _ (h.taken t ht).2
  exact MmapEntry.mem_bytes.2 ⟨by simp only [tablePage]; omega, by simp only [tablePage, ptSize]; omega⟩

/-- The map behind requests on a new pagemap. Memory may change where the table has usable entries. -/
theorem Loader.Inv.translate {start : Boot} {table : List MmapEntry} {m : Memory} {lv : ℕ}
    {known : lv = 4 ∨ lv = 5} {requests : List MapRequest} (hi : Loader.Inv firmware ⟨start, taken⟩)
    (hnew : newPagemap start lv known = .ok (pagemap, s)) (hproper : ∀ r ∈ requests, r.Proper)
    (hmap : mapPages pagemap s requests = .ok s') (hget : sanitiseEntries s'.memmap = .ok table)
    (hkernel : ∀ x, (∀ u ∈ table, u.Usable → x ∉ u.bytes) → m x = s'.mem x) (v : ℕ) :
    pagemap.translate m v = (lastFor lv requests v).map fun r => r.physAddr + v % largePage := by
  obtain ⟨rfl, hmapped, hempty, -⟩ := newPagemap_spec hi hnew
  obtain ⟨taken', pages, hmapped', -, -, hleaf, -⟩ := mapPages_spec hmapped hproper hmap
  obtain ⟨hi', hsane⟩ := @Loader.Inv.sanitise firmware table ⟨s', taken'⟩ s'.mem hmapped'.loader hget
  have hover := hi'.handedOver hsane
  apply translate_eq hproper
  rw [hmapped'.leaf_congr (fun x t ht hx => ?_), hleaf v, hempty v]
  exact hkernel x fun u hu huse => Set.disjoint_right.1 (hover.free u hu huse t ht) hx

/-- Whatever was loaded before, and whatever the kernel writes to the memory the table gives it as
usable: an address leads where the last request for its page said, and nowhere without one. -/
theorem translate_of_boot {memmap table : List MmapEntry} {mem m : Memory} {calls : List LoaderCall}
    {start : Loader} {lv : ℕ} {known : lv = 4 ∨ lv = 5} {requests : List MapRequest}
    (hfirmware : ∀ e ∈ firmware, Bounded e) (hinit : initMemmap firmware = .ok memmap)
    (hrun : Run LoaderStep ⟨⟨memmap, mem⟩, []⟩ calls start)
    (hnew : newPagemap start.boot lv known = .ok (pagemap, s))
    (hproper : ∀ r ∈ requests, r.Proper) (hmap : mapPages pagemap s requests = .ok s')
    (hget : sanitiseEntries s'.memmap = .ok table)
    (hkernel : ∀ x, (∀ u ∈ table, u.Usable → x ∉ u.bytes) → m x = s'.mem x) (v : ℕ) :
    pagemap.translate m v = (lastFor lv requests v).map fun r => r.physAddr + v % largePage :=
  (Loader.inv_of_run hfirmware hinit hrun).translate hnew hproper hmap hget hkernel v

/-! ## An example map -/

/-- The table of the example boot behind a number of page tables. -/
def samplePages (count : ℕ) : List MmapEntry :=
  [⟨0x9fc00, 0x400, 2⟩, ⟨0xf0000, 0x10000, 2⟩, ⟨0x100000, 0x7ee0000 - 0x1000 * count, 1⟩,
    ⟨0x7fe0000 - 0x1000 * count, 0x1000 * count, 0x1000⟩, ⟨0x7fe0000, 0x20000, 2⟩]

/-- Where an entry is empty, a new table is taken and entered. -/
theorem getNextLevel_empty {s b : Boot} {t i ret : ℕ} (hentry : tableEntry s.mem t i = 0)
    (hext : extMemAllocAligned s ptSize ptSize = .ok (ret, b)) :
    getNextLevel s t i = .ok (ret, ⟨b.memmap, storeLE b.mem 8 (t + 8 * i) (ret ||| 0b111)⟩) := by
  rw [getNextLevel, hentry, hext]
  rfl

/-- Going down begins with one level. -/
theorem descend_cons {s b : Boot} {t i next : ℕ} {path : List ℕ}
    (h : getNextLevel s t i = .ok (next, b)) : descend t s (i :: path) = descend next b path := by
  rw [descend, List.foldlM_cons]
  dsimp only
  rw [h]
  rfl

/-- Clearing changes nothing in cleared memory. -/
theorem memsetZero_zero (a n : ℕ) : memsetZero (fun _ => 0) a n = fun _ => 0 := by
  funext x
  exact ite_self _

/-- The next page tables of the example lie below those taken before. -/
theorem samplePages_ext (mem : Memory) : ∀ count ∈ [1, 2],
    extMemAllocAligned ⟨samplePages count, mem⟩ ptSize ptSize = .ok (0x7fdf000 - 0x1000 * count,
      ⟨samplePages (count + 1), memsetZero mem (0x7fdf000 - 0x1000 * count) ptSize⟩) := by
  simp only [List.forall_mem_cons]
  exact ⟨rfl, rfl, by simp⟩

/-- The first one is the top of the map. -/
theorem newPagemap_sample (mem : Memory) : newPagemap ⟨sampleMemmap, mem⟩ 4 (.inl rfl) =
    .ok (⟨4, 0x7fdf000, .inl rfl⟩, ⟨samplePages 1, memsetZero mem 0x7fdf000 ptSize⟩) := rfl

/-- One page of the window for the kernel, on clear memory. -/
theorem mapPages_sample : ∃ m, mapPages ⟨4, 0x7fdf000, .inl rfl⟩ ⟨samplePages 1, fun _ => 0⟩
    [⟨0xffffffff80200000, 0x200000, 3⟩] = .ok ⟨samplePages 3, m⟩ := by
  have hclear : ∀ t i, tableEntry (fun _ => 0) t i = 0 := fun t i => loadLE_zero fun _ _ _ => rfl
  have hext := samplePages_ext (fun _ => 0) 1 (by simp)
  rw [memsetZero_zero] at hext
  have hdown := @getNextLevel_empty ⟨samplePages 1, fun _ => 0⟩ _ 0x7fdf000 511 _
    (hclear 0x7fdf000 511) hext
  generalize hm : storeLE _ 8 _ _ = m at hdown
  have hentry : tableEntry m 0x7fde000 510 = 0 := by
    rw [← hm, tableEntry_store_of_ne (by decide) (by decide) (by decide) (by decide)
      (.inl (by decide)), hclear]
  have hdown' := @getNextLevel_empty ⟨samplePages 2, m⟩ _ 0x7fde000 510 _ hentry
    (samplePages_ext m 2 (by simp))
  generalize storeLE _ 8 _ _ = m' at hdown'
  have hpath : descend 0x7fdf000 ⟨samplePages 1, fun _ => 0⟩ [511, 510] =
      .ok (0x7fdd000, ⟨samplePages 3, m'⟩) := by
    rw [descend_cons hdown, descend_cons hdown']
    rfl
  have hmap : mapPage ⟨4, 0x7fdf000, .inl rfl⟩ ⟨samplePages 1, fun _ => 0⟩ 0xffffffff80200000
      0x200000 3 = .ok ⟨samplePages 3, storeLE m' 8 (0x7fdd000 + 8 * 1) 0x200083⟩ := by
    rw [mapPage_eq]
    change Except.bind (descend 0x7fdf000 ⟨samplePages 1, fun _ => 0⟩ [511, 510]) _ = _
    rw [hpath]
    rfl
  exact ⟨_, (bind_pure _).trans hmap⟩

/-- An address in the window. -/
theorem translate_of_boot_sample : ∃ s s' table,
    newPagemap ⟨sampleMemmap, fun _ => 0⟩ 4 (.inl rfl) = .ok (⟨4, 0x7fdf000, .inl rfl⟩, s) ∧
      mapPages ⟨4, 0x7fdf000, .inl rfl⟩ s [⟨0xffffffff80200000, 0x200000, 3⟩] = .ok s' ∧
      sanitiseEntries s'.memmap = .ok table ∧
      ∀ m : Memory, (∀ x, (∀ u ∈ table, u.Usable → x ∉ u.bytes) → m x = s'.mem x) →
        Pagemap.translate ⟨4, 0x7fdf000, .inl rfl⟩ m 0xffffffff80234567 = some 0x234567 := by
  have hnew := newPagemap_sample fun _ => 0
  rw [memsetZero_zero] at hnew
  obtain ⟨mem, hmap⟩ := mapPages_sample
  have hproper : ∀ r ∈ [(⟨0xffffffff80200000, 0x200000, 3⟩ : MapRequest)], r.Proper := by
    rintro r (_ | ⟨_, ⟨⟩⟩)
    exact ⟨by decide, by decide, by decide, by decide⟩
  have hget : sanitiseEntries (samplePages 3) = .ok (samplePages 3) := by decide
  refine ⟨_, _, _, hnew, hmap, hget, fun m hm => ?_⟩
  have hinit : initMemmap sampleFirmware = .ok sampleMemmap := by decide
  have h := translate_of_boot sampleFirmware_bounded hinit
    (Run.nil (⟨⟨sampleMemmap, fun _ => 0⟩, []⟩ : Loader)) hnew hproper hmap hget hm 0xffffffff80234567
  rw [h]
  decide

end Orionis.Limine
