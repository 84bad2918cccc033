import Orionis.Limine.Paging
import Orionis.Mem.BuddyFrame

/-!
# The address space of the kernel

`stivale_build_pagemap` maps the first 4 GiB and every entry of the memory map to themselves and into
the higher half, and the first 2 GiB into a window at the end. Its last loop reads a table that
changes under it whenever a page table is allocated; below the limits of the two halves this does no
harm, and the kernel keeps the address space it is started with for as long as its heap runs.
-/

namespace Orionis.Limine

open Orionis.Foundations Orionis.Mem

/-! ## The source -/

/-- `higher_half_base`. -/
def higherHalfBase (level5pg : Bool) : ℕ :=
  if level5pg then 0xff00000000000000 else 0xffff800000000000

/-- Where the first 2 GiB are mapped for the kernel. -/
def kernelWindow : ℕ := 0xffffffff80000000

/-- The two calls for a page. -/
def mapBoth (pagemap : Pagemap) (higherHalf : ℕ) (s : Boot) (page : ℕ) : Except Stop Boot := do
  let s ← mapPage pagemap s page page 0x03
  mapPage pagemap s (add64 higherHalf page) page 0x03

/-- A round of the loop over the memory map. -/
def mapEntry (pagemap : Pagemap) (higherHalf : ℕ) (s : Boot) (e : MmapEntry) : Except Stop Boot :=
  let alignedBase := alignDown e.base largePage
  let alignedTop := alignUp (entryTop e) largePage
  let alignedLength := sub64 alignedTop alignedBase
  (List.range (alignedLength / largePage)).foldlM
    (fun s i => mapBoth pagemap higherHalf s (add64 alignedBase (i * largePage))) s

/-- `stivale_build_pagemap`. The array is the one the allocator works on; `stale` is what its slots
behind the last entry hold. -/
def stivaleBuildPagemap (s : Boot) (level5pg : Bool) (stale : ℕ → MmapEntry) (memmapEntries : ℕ) :
    Except Stop (Pagemap × Boot) := do
  let higherHalf := higherHalfBase level5pg
  let (pagemap, s) ← newPagemap s (if level5pg then 5 else 4) (by cases level5pg <;> simp)
  let s ← (List.range (0x80000000 / largePage)).foldlM
    (fun s i => mapPage pagemap s (kernelWindow + i * largePage) (i * largePage) 0x03) s
  let s ← (List.range (0x100000000 / largePage)).foldlM
    (fun s i => mapBoth pagemap higherHalf s (i * largePage)) s
  let s ← (List.range memmapEntries).foldlM
    (fun s i => mapEntry pagemap higherHalf s (s.memmap.getD i (stale i))) s
  .ok (pagemap, s)

/-! ## The loops as requests -/

/-- The calls for a page. -/
def bothRequests (higherHalf page : ℕ) : List MapRequest :=
  [⟨page, page, 0x03⟩, ⟨add64 higherHalf page, page, 0x03⟩]

/-- The calls for an entry. -/
def entryRequests (higherHalf : ℕ) (e : MmapEntry) : List MapRequest :=
  let alignedBase := alignDown e.base largePage
  let alignedLength := sub64 (alignUp (entryTop e) largePage) alignedBase
  (List.range (alignedLength / largePage)).flatMap fun i =>
    bothRequests higherHalf (add64 alignedBase (i * largePage))

/-- The calls for the window. -/
def windowRequests : List MapRequest :=
  (List.range (0x80000000 / largePage)).map fun i => ⟨kernelWindow + i * largePage, i * largePage, 0x03⟩

/-- The calls for the first 4 GiB. -/
def lowRequests (higherHalf : ℕ) : List MapRequest :=
  (List.range (0x100000000 / largePage)).flatMap fun i => bothRequests higherHalf (i * largePage)

variable {firmware taken : List MmapEntry} {pagemap : Pagemap} {s s' : Boot} {pages : Set ℕ}
  {level5pg : Bool} {higherHalf : ℕ}

/-- Two lists of requests are mapped one after the other. -/
theorem mapPages_append (requests more : List MapRequest) :
    mapPages pagemap s (requests ++ more) =
      (mapPages pagemap s requests).bind fun s => mapPages pagemap s more := List.foldlM_append

/-- A loop of mappings is the mapping of all its requests. -/
theorem foldlM_mapPages {α : Type*} (f : α → List MapRequest) (l : List α) :
    l.foldlM (fun s a => mapPages pagemap s (f a)) s = mapPages pagemap s (l.flatMap f) := by
  induction l generalizing s with
  | nil => rfl
  | cons a l ih =>
    rw [List.foldlM_cons, List.flatMap_cons, mapPages_append]
    exact congrArg _ (funext fun s => ih)

/-- One round of the loop over the first 4 GiB as requests. -/
theorem mapBoth_eq (page : ℕ) :
    mapBoth pagemap higherHalf s page = mapPages pagemap s (bothRequests higherHalf page) := by
  refine congrArg (Except.bind _) (funext fun s => ?_)
  exact (bind_pure _).symm

/-- What is mapped for an entry of the table, as requests. -/
theorem mapEntry_eq (e : MmapEntry) :
    mapEntry pagemap higherHalf s e = mapPages pagemap s (entryRequests higherHalf e) := by
  simp only [mapEntry, mapBoth_eq]
  exact foldlM_mapPages _ _

/-- The three loops of `stivale_build_pagemap` as lists of requests. -/
theorem stivaleBuildPagemap_eq (s : Boot) (stale : ℕ → MmapEntry) (memmapEntries : ℕ) :
    stivaleBuildPagemap s level5pg stale memmapEntries = (do
      let (pagemap, s) ← newPagemap s (if level5pg then 5 else 4) (by cases level5pg <;> simp)
      let s ← mapPages pagemap s (windowRequests ++ lowRequests (higherHalfBase level5pg))
      let s ← (List.range memmapEntries).foldlM (fun s i =>
        mapEntry pagemap (higherHalfBase level5pg) s (s.memmap.getD i (stale i))) s
      .ok (pagemap, s)) := by
  refine congrArg (Except.bind _) (funext fun r => ?_)
  simp only [mapPages_append, mapBoth_eq, foldlM_mapPages]
  rw [mapPages, windowRequests, List.foldlM_map]
  exact (bind_assoc _ _ _).symm

/-! ## Requests below the limits -/

/-- Where the halves of an address space with four or five levels meet. -/
def halfSpace (level5pg : Bool) : ℕ := if level5pg then 2 ^ 56 else 2 ^ 47

/-- Physical memory whose pages have 52 bits and whose copy in the higher half ends below the window. -/
def physLimit (level5pg : Bool) : ℕ := if level5pg then 2 ^ 52 else 2 ^ 47 - 2 ^ 31

/-- A physical page, mapped to itself, into the higher half or into the window. -/
structure Direct (level5pg : Bool) (r : MapRequest) : Prop where
  aligned : largePage ∣ r.physAddr
  phys : r.physAddr + largePage ≤ physLimit level5pg
  flags : r.flags = 0x03
  virt : r.virtAddr = r.physAddr ∨ r.virtAddr = higherHalfBase level5pg + r.physAddr ∨
    r.virtAddr = kernelWindow + r.physAddr ∧ r.physAddr + largePage ≤ 2 ^ 31

/-- Requests of the direct map are proper. -/
theorem Direct.proper {r : MapRequest} (h : Direct level5pg r) : r.Proper where
  aligned := h.aligned
  phys := by
    have hphys := h.phys
    rw [physLimit, largePage] at hphys
    split at hphys <;> omega
  present := by rw [h.flags]
  flags := by rw [h.flags, largePage]; decide

/-- A page below the limit is mapped directly in both places. -/
theorem direct_both {page : ℕ} (hdvd : largePage ∣ page)
    (hphys : page + largePage ≤ physLimit level5pg) :
    ∀ r ∈ bothRequests (higherHalfBase level5pg) page, Direct level5pg r := by
  have hadd : add64 (higherHalfBase level5pg) page = higherHalfBase level5pg + page := by
    apply add64_of_lt
    simp only [physLimit, higherHalfBase, largePage] at hphys ⊢
    split_ifs at hphys ⊢ <;> omega
  rw [bothRequests, hadd, List.forall_mem_cons, List.forall_mem_singleton]
  exact ⟨⟨hdvd, hphys, rfl, .inl rfl⟩, ⟨hdvd, hphys, rfl, .inr (.inl rfl)⟩⟩

/-- The requests for the window are direct. -/
theorem direct_window : ∀ r ∈ windowRequests, Direct level5pg r := by
  intro r hr
  obtain ⟨i, hi, rfl⟩ := List.mem_map.1 hr
  rw [List.mem_range] at hi
  have hend : i * largePage + largePage ≤ 2 ^ 31 := by
    rw [largePage] at *
    omega
  refine ⟨Nat.dvd_mul_left _ _, hend.trans ?_, rfl, .inr (.inr ⟨rfl, hend⟩)⟩
  rw [physLimit]
  split <;> decide

/-- The requests for the first 4 GiB are direct. -/
theorem direct_low : ∀ r ∈ lowRequests (higherHalfBase level5pg), Direct level5pg r := by
  intro r hr
  obtain ⟨i, hi, hr⟩ := List.mem_flatMap.1 hr
  rw [List.mem_range] at hi
  refine direct_both (Nat.dvd_mul_left _ _) (le_trans (b := 2 ^ 32) ?_ ?_) r hr
  · rw [largePage] at *
    omega
  · rw [physLimit]
    split <;> decide

/-- An entry of the table is rounded to large pages, which takes it not over the limit. -/
theorem direct_entry {e : MmapEntry} (he : e.base + e.length ≤ physLimit level5pg) :
    ∀ r ∈ entryRequests (higherHalfBase level5pg) e, Direct level5pg r := by
  intro r hr
  have hlimit : physLimit level5pg ≤ 2 ^ 52 ∧ largePage ∣ physLimit level5pg := by
    rw [physLimit]
    split <;> decide
  obtain ⟨hlt, hdvd⟩ := hlimit
  rw [entryRequests, entryTop_eq (show e.base + e.length < 2 ^ 63 by omega)] at hr
  obtain ⟨i, hi, hr⟩ := List.mem_flatMap.1 hr
  rw [List.mem_range] at hi
  have hup : alignUp (e.base + e.length) largePage =
      (e.base + e.length + (largePage - 1)) / largePage * largePage := by
    rw [alignUp, add64_of_lt (by rw [largePage]; omega)]
  have hdown : alignDown e.base largePage = e.base / largePage * largePage := rfl
  rw [hup, hdown, sub64_of_le (by rw [largePage]; omega) (by rw [largePage]; omega)] at hi
  rw [hdown, add64_of_lt (by rw [largePage] at *; omega)] at hr
  refine direct_both ?_ ?_ r hr
  · exact (Nat.dvd_add_right (Nat.dvd_mul_left _ _)).2 (Nat.dvd_mul_left _ _)
  · rw [largePage] at *
    omega

/-! ## The address space -/

/-- Addresses the processor knows. -/
def Canonical (level5pg : Bool) (v : ℕ) : Prop :=
  v < halfSpace level5pg ∨ higherHalfBase level5pg ≤ v ∧ v < 2 ^ 64

/-- The first 4 GiB are found at themselves and in the higher half, the first 2 GiB in the window, and
every address that leads anywhere is one of these three for some physical address. -/
structure DirectMap (level5pg : Bool) (translate : ℕ → Option ℕ) : Prop where
  identity : ∀ p < 2 ^ 32, translate p = some p
  higherHalf : ∀ p < 2 ^ 32, translate (higherHalfBase level5pg + p) = some p
  window : ∀ p < 2 ^ 31, translate (kernelWindow + p) = some p
  only : ∀ v p, Canonical level5pg v → translate v = some p → p < physLimit level5pg ∧
    (v = p ∨ v = higherHalfBase level5pg + p ∨ v = kernelWindow + p ∧ p < 2 ^ 31)

/-- `levels` of the pagemap. -/
def levelCount (level5pg : Bool) : ℕ := if level5pg then 5 else 4

/-- The virtual address of a direct request is canonical and begins a large page. -/
theorem canonical_direct {r : MapRequest} (h : Direct level5pg r) : Canonical level5pg r.virtAddr ∧
    largePage ∣ r.virtAddr := by
  obtain ⟨hdvd, hphys, -, hvirt⟩ := h
  simp only [Canonical, physLimit, halfSpace, higherHalfBase, kernelWindow, largePage] at *
  split_ifs at * <;> omega

/-- Canonical addresses of one page number are on one page. -/
theorem page_eq_of_canonical {v w : ℕ} (hv : Canonical level5pg v) (hw : Canonical level5pg w)
    (h : pageNumber (levelCount level5pg) v = pageNumber (levelCount level5pg) w) :
    v / largePage = w / largePage := by
  have hcount : (if levelCount level5pg = 5 then 36 else 27) = if level5pg then 36 else 27 := by
    cases level5pg <;> rfl
  rw [pageNumber, pageNumber, hcount] at h
  rw [Canonical, halfSpace, higherHalfBase] at hv hw
  rw [largePage] at h ⊢
  split_ifs at * <;> omega

/-- A page that was requested has a last request. -/
theorem lastFor_isSome {levels v : ℕ} {requests : List MapRequest} {r : MapRequest}
    (hr : r ∈ requests) (h : pageNumber levels r.virtAddr = pageNumber levels v) :
    ∃ q, lastFor levels requests v = some q := by
  rw [← Option.isSome_iff_exists, lastFor, List.find?_isSome]
  exact ⟨r, List.mem_reverse.2 hr, decide_eq_true h⟩

/-- Where an address with a request leads. -/
theorem mem_of_lastFor {requests : List MapRequest} {r : MapRequest} {v : ℕ}
    (hdirect : ∀ r ∈ requests, Direct level5pg r) (hv : Canonical level5pg v)
    (h : lastFor (levelCount level5pg) requests v = some r) :
    Direct level5pg r ∧ r.virtAddr + v % largePage = v := by
  obtain ⟨hmem, hpage⟩ := lastFor_some h
  have hr := hdirect r hmem
  obtain ⟨hcanonical, hdvd⟩ := canonical_direct hr
  have heq := page_eq_of_canonical hcanonical hv hpage
  refine ⟨hr, ?_⟩
  rw [largePage] at *
  omega

/-- Every large page of the first 2 GiB is requested for the window. -/
theorem mem_windowRequests {page : ℕ} (hdvd : largePage ∣ page) (hlt : page < 2 ^ 31) :
    (⟨kernelWindow + page, page, 0x03⟩ : MapRequest) ∈ windowRequests := by
  obtain ⟨i, rfl⟩ := hdvd
  refine List.mem_map.2 ⟨i, List.mem_range.2 ?_, by rw [Nat.mul_comm]⟩
  rw [largePage] at *
  omega

/-- Every large page of the first 4 GiB is requested in both places. -/
theorem mem_lowRequests {page : ℕ} (hdvd : largePage ∣ page) (hlt : page < 2 ^ 32) :
    ∀ r ∈ bothRequests higherHalf page, r ∈ lowRequests higherHalf := by
  intro r hr
  obtain ⟨i, rfl⟩ := hdvd
  refine List.mem_flatMap.2 ⟨i, List.mem_range.2 ?_, by rwa [Nat.mul_comm]⟩
  rw [largePage] at *
  omega

/-- The requests of `stivale_build_pagemap` make up the address space. -/
theorem directMap_of_requests {requests more : List MapRequest} {translate : ℕ → Option ℕ}
    (hrequests : requests = windowRequests ++ lowRequests (higherHalfBase level5pg) ++ more)
    (hmore : ∀ r ∈ more, Direct level5pg r)
    (htranslate : ∀ v, translate v =
      (lastFor (levelCount level5pg) requests v).map fun r => r.physAddr + v % largePage) :
    DirectMap level5pg translate := by
  have hdirect : ∀ r ∈ requests, Direct level5pg r := by
    intro r hr
    rw [hrequests, List.mem_append, List.mem_append] at hr
    rcases hr with (hr | hr) | hr
    · exact direct_window r hr
    · exact direct_low r hr
    · exact hmore r hr
  have honly : ∀ v p, Canonical level5pg v → translate v = some p → p < physLimit level5pg ∧
      (v = p ∨ v = higherHalfBase level5pg + p ∨ v = kernelWindow + p ∧ p < 2 ^ 31) := by
    intro v p hv h
    rw [htranslate v, Option.map_eq_some_iff] at h
    obtain ⟨r, hr, rfl⟩ := h
    obtain ⟨hdir, hpage⟩ := mem_of_lastFor hdirect hv hr
    have hphys := hdir.phys
    have hmod := Nat.mod_lt v (show 0 < largePage by decide)
    refine ⟨by omega, ?_⟩
    rcases hdir.virt with hvirt | hvirt | ⟨hvirt, hwindow⟩ <;> omega
  -- a request for the page of an address makes it lead somewhere
  have hleads : ∀ r ∈ requests, ∀ v, v / largePage = r.virtAddr / largePage →
      ∃ p, translate v = some p := by
    intro r hr v hpage
    have hnumber : pageNumber (levelCount level5pg) r.virtAddr =
        pageNumber (levelCount level5pg) v := by rw [pageNumber, pageNumber, hpage]
    obtain ⟨q, hq⟩ := lastFor_isSome hr hnumber
    exact ⟨_, by rw [htranslate, hq, Option.map_some]⟩
  -- and below the limits only one of the three ways fits
  have hfinds : ∀ r ∈ requests, ∀ v p, v / largePage = r.virtAddr / largePage →
      Canonical level5pg v → p < 2 ^ 32 →
      (v = p ∨ v = higherHalfBase level5pg + p ∨ v = kernelWindow + p ∧ p < 2 ^ 31) →
      translate v = some p := by
    intro r hr v p hpage hv hp hway
    obtain ⟨q, hq⟩ := hleads r hr v hpage
    obtain ⟨hlimit, hway'⟩ := honly v q hv hq
    have heq : q = p := by
      rw [kernelWindow] at *
      rw [physLimit] at hlimit
      rw [higherHalfBase] at hway hway'
      split_ifs at * <;> omega
    rw [hq, heq]
  have hmem : ∀ r ∈ windowRequests ++ lowRequests (higherHalfBase level5pg), r ∈ requests :=
    fun r hr => hrequests ▸ List.mem_append_left more hr
  have hlow : ∀ p < 2 ^ 32, ∀ r ∈ bothRequests (higherHalfBase level5pg) (p / largePage * largePage),
      r ∈ requests := fun p hp r hr => hmem r (List.mem_append_right _
        (mem_lowRequests (Nat.dvd_mul_left _ _) ((Nat.div_mul_le_self _ _).trans_lt hp) r hr))
  refine ⟨fun p hp => ?_, fun p hp => ?_, fun p hp => ?_, honly⟩
  · refine hfinds _ (hlow p hp _ List.mem_cons_self) p p ?_ ?_ hp (.inl rfl)
    · exact (Nat.mul_div_cancel _ (by decide)).symm
    · refine .inl (hp.trans ?_)
      rw [halfSpace]
      split <;> decide
  · refine hfinds _ (hlow p hp _ (List.mem_cons_of_mem _ List.mem_cons_self)) _ p ?_ ?_ hp
      (.inr (.inl rfl))
    · dsimp only
      rw [add64, higherHalfBase, largePage]
      split <;> omega
    · refine .inr ⟨Nat.le_add_right _ _, ?_⟩
      rw [higherHalfBase]
      split <;> omega
  · have hwindow := mem_windowRequests (Nat.dvd_mul_left largePage (p / largePage))
      ((Nat.div_mul_le_self _ _).trans_lt hp)
    refine hfinds _ (hmem _ (List.mem_append_left _ hwindow)) _ p ?_ ?_ (by omega)
      (.inr (.inr ⟨rfl, hp⟩))
    · dsimp only
      rw [kernelWindow, largePage]
      omega
    · refine .inr ⟨?_, ?_⟩
      · rw [higherHalfBase, kernelWindow]
        split <;> omega
      · rw [kernelWindow]
        omega

/-! ## The kernel's address space -/

/-- The table the last loop reads ends below the limit however often it changes. -/
theorem mapEntries_spec {indices : List ℕ} {stale : ℕ → MmapEntry}
    (hfirmware : Below (physLimit level5pg) firmware)
    (hstale : ∀ i, (stale i).base + (stale i).length ≤ physLimit level5pg)
    (h : Mapped firmware taken pagemap s pages)
    (hcall : indices.foldlM (fun s i => mapEntry pagemap (higherHalfBase level5pg) s
      (s.memmap.getD i (stale i))) s = .ok s') :
    ∃ more, (∀ r ∈ more, Direct level5pg r) ∧ mapPages pagemap s more = .ok s' := by
  have hlimit : physLimit level5pg < 2 ^ 63 := by
    rw [physLimit]
    split <;> decide
  induction indices generalizing s taken pages with
  | nil => exact ⟨[], by simp, hcall⟩
  | cons i indices ih =>
    rw [List.foldlM_cons] at hcall
    obtain ⟨s₁, hentry, hrest⟩ := bind_eq_ok.1 hcall
    have he : (s.memmap.getD i (stale i)).base + (s.memmap.getD i (stale i)).length ≤
        physLimit level5pg := by
      by_cases hi : i < s.memmap.length
      · rw [List.getD_eq_getElem _ _ hi]
        exact h.loader.below _ hlimit hfirmware _ (List.getElem_mem hi)
      · rw [List.getD_eq_default _ _ (by omega)]
        exact hstale i
    generalize s.memmap.getD i (stale i) = e at hentry he
    rw [mapEntry_eq] at hentry
    have hdirect := direct_entry he
    obtain ⟨taken₁, pages₁, h₁, -⟩ := mapPages_spec h (fun r hr => (hdirect r hr).proper) hentry
    obtain ⟨more, hmore, hmap⟩ := ih h₁ hrest
    refine ⟨entryRequests (higherHalfBase level5pg) e ++ more, ?_, ?_⟩
    · exact List.forall_mem_append.2 ⟨hdirect, hmore⟩
    · rw [mapPages_append, hentry]
      exact hmap

/-- All requests of a build. -/
theorem Loader.Inv.buildPagemap {stale : ℕ → MmapEntry} {memmapEntries : ℕ}
    (hi : Loader.Inv firmware ⟨s, taken⟩) (hfirmware : Below (physLimit level5pg) firmware)
    (hstale : ∀ i, (stale i).base + (stale i).length ≤ physLimit level5pg)
    (h : stivaleBuildPagemap s level5pg stale memmapEntries = .ok (pagemap, s')) :
    ∃ known s₀ more, newPagemap s (levelCount level5pg) known = .ok (pagemap, s₀) ∧
      (∀ r ∈ more, Direct level5pg r) ∧ mapPages pagemap s₀
        (windowRequests ++ lowRequests (higherHalfBase level5pg) ++ more) = .ok s' := by
  rw [stivaleBuildPagemap_eq] at h
  obtain ⟨⟨p, s₀⟩, hnew, h⟩ := bind_eq_ok.1 h
  obtain ⟨s₁, hfirst, h⟩ := bind_eq_ok.1 h
  obtain ⟨s₂, hentries, h⟩ := bind_eq_ok.1 h
  obtain ⟨rfl, rfl⟩ := Prod.mk.inj (Except.ok.inj h)
  obtain ⟨-, hmapped, -⟩ := newPagemap_spec hi hnew
  have hproper : ∀ r ∈ windowRequests ++ lowRequests (higherHalfBase level5pg), r.Proper :=
    List.forall_mem_append.2
      ⟨fun r hr => (@direct_window level5pg r hr).proper, fun r hr => (direct_low r hr).proper⟩
  obtain ⟨taken₁, pages₁, hmapped₁, -⟩ := mapPages_spec hmapped hproper hfirst
  obtain ⟨more, hmore, hmap⟩ := mapEntries_spec hfirmware hstale hmapped₁ hentries
  refine ⟨_, s₀, more, hnew, hmore, ?_⟩
  rw [mapPages_append, hfirst]
  exact hmap

/-- What the kernel is started with: a table that gives away no byte of a range taken before, of which
only page tables have been written, and a pagemap it keeps as long as it writes to usable memory. -/
structure Started (firmware taken : List MmapEntry) (level5pg : Bool) (pagemap : Pagemap) (start s : Boot)
    (map : StivaleMap) : Prop where
  high : ∀ x ∈ map.usable, 2 ^ maxOrder ≤ x
  kept : ∀ r ∈ taken, r.type ≠ memmapBootloaderReclaimable → ∀ x ∈ r.bytes,
    s.mem x = start.mem x ∧ x ∉ map.usable
  direct : ∀ m : Memory, (∀ x, x ∉ map.usable → m x = s.mem x) → DirectMap level5pg (pagemap.translate m)

/-- From any state of the boot the built page tables and the table handed over start the kernel. -/
theorem Loader.Inv.started {table : List MmapEntry} {start : Boot} {stale : ℕ → MmapEntry}
    {memmapEntries : ℕ} (hi : Loader.Inv firmware ⟨start, taken⟩)
    (hfirmware : Below (physLimit level5pg) firmware)
    (hstale : ∀ i, (stale i).base + (stale i).length ≤ physLimit level5pg)
    (hbuild : stivaleBuildPagemap start level5pg stale memmapEntries = .ok (pagemap, s))
    (hget : sanitiseEntries s.memmap = .ok table) :
    ∃ map : StivaleMap, map.entries = table ∧ Started firmware taken level5pg pagemap start s map := by
  obtain ⟨known, s₀, more, hnew, hmore, hmap⟩ := hi.buildPagemap hfirmware hstale hbuild
  have hproper : ∀ r ∈ windowRequests ++ lowRequests (higherHalfBase level5pg) ++ more, r.Proper := by
    refine List.forall_mem_append.2 ⟨List.forall_mem_append.2 ⟨?_, ?_⟩, ?_⟩
    · exact fun r hr => (@direct_window level5pg r hr).proper
    · exact fun r hr => (direct_low r hr).proper
    · exact fun r hr => (hmore r hr).proper
  obtain ⟨-, hmapped, -, hframe₀⟩ := newPagemap_spec hi hnew
  obtain ⟨taken', pages, hmapped', hpages, holder, -, hframe⟩ := mapPages_spec hmapped hproper hmap
  obtain ⟨hi', hsane⟩ := @Loader.Inv.sanitise firmware table ⟨s, taken'⟩ s.mem hmapped'.loader hget
  have ho := hi'.handedOver hsane
  refine ⟨Loader.stivaleMap hi' ho, rfl, ?_, fun r hr htype x hx => ⟨?_, ?_⟩, fun m hm => ?_⟩
  · rintro x ⟨u, hu, hx⟩
    obtain ⟨hmem, huse⟩ := StivaleMap.mem_regions.1 hu
    exact le_trans (by decide) ((ho.whole u hmem huse).2.2.trans (MmapEntry.mem_bytes.1 hx).1)
  · have hr' : r ∈ taken' := holder.subset (List.mem_cons_of_mem _ hr)
    -- a page table is another range than this one
    have htables : ∀ t ∈ pages, x ∉ (tablePage t).bytes := by
      intro t ht
      have hne : r ≠ tablePage t := fun heq => htype (heq ▸ rfl)
      have hclear := hmapped'.loader.taken_clear hr' (hmapped'.taken t ht).2 hne
      exact Set.disjoint_left.1 (clear_iff.1 hclear) hx
    rw [hframe x htables, hframe₀ x (htables _ (hpages (Set.mem_singleton _)))]
  · rintro ⟨u, hu, hxu⟩
    obtain ⟨hmem, huse⟩ := StivaleMap.mem_regions.1 hu
    have hr' : r ∈ taken' := holder.subset (List.mem_cons_of_mem _ hr)
    exact Set.disjoint_left.1 (ho.free u hmem huse r hr') hxu hx
  · refine directMap_of_requests rfl hmore fun v => ?_
    refine hi.translate hnew hproper hmap hget (fun x hx => hm x ?_) v
    rintro ⟨u, hu, hxu⟩
    obtain ⟨hmem, huse⟩ := StivaleMap.mem_regions.1 hu
    exact hx u hmem huse hxu

/-- The heap of the kernel writes to usable memory only. -/
theorem Started.untouched {map : StivaleMap} {start : Boot} {b : Buddy} {requests : List Call} {h : Heap}
    (hstarted : Started firmware taken level5pg pagemap start s map) (hb : b.mem = s.mem)
    (hheap : Run HeapStep (Heap.start map b) requests h) (x : ℕ) (hx : x ∉ map.usable) :
    h.buddy.mem x = s.mem x := by
  rw [Heap.untouched_of_run (Heap.guarded_of_high hstarted.high hheap) x hx, hb]

/-- The kernel is started with the direct map, and keeps it in every run of its heap. -/
theorem directMap_of_boot {memmap table : List MmapEntry} {mem : Memory} {calls : List LoaderCall}
    {start : Loader} {stale : ℕ → MmapEntry} {memmapEntries : ℕ}
    (hfirmware : Below (physLimit level5pg) firmware) (hinit : initMemmap firmware = .ok memmap)
    (hrun : Run LoaderStep ⟨⟨memmap, mem⟩, []⟩ calls start)
    (hstale : ∀ i, (stale i).base + (stale i).length ≤ physLimit level5pg)
    (hbuild : stivaleBuildPagemap start.boot level5pg stale memmapEntries = .ok (pagemap, s))
    (hget : sanitiseEntries s.memmap = .ok table) :
    ∃ map : StivaleMap, map.entries = table ∧ ∀ b requests h, b.mem = s.mem →
      Run HeapStep (Heap.start map b) requests h →
        DirectMap level5pg (pagemap.translate h.buddy.mem) := by
  have hlimit : physLimit level5pg < 2 ^ 63 := by
    rw [physLimit]
    split <;> decide
  have hi := Loader.inv_of_run (hfirmware.bounded hlimit) hinit hrun
  obtain ⟨map, htable, hstarted⟩ := hi.started hfirmware hstale hbuild hget
  exact ⟨map, htable, fun b requests h hb hheap =>
    hstarted.direct _ (hstarted.untouched hb hheap)⟩

/-! ## An example -/

/-- 127 MiB, of which page tables take the end. -/
def smallMachine (length rest : ℕ) : List MmapEntry :=
  [⟨0x100000, length, 1⟩, ⟨0x100000 + length, rest, 0x1000⟩]

/-- An entry below the other one is not trimmed. -/
theorem trimEntry_of_below {e res : MmapEntry} (he : Bounded e) (hres : Bounded res)
    (h : e.base + e.length ≤ res.base) : trimEntry e res = .ok e := by
  rw [trimEntry, entryTop_eq he, entryTop_eq hres]
  rw [Bounded] at he hres
  have hlow : ¬ (e.base ≤ res.base ∧ res.base < e.base + e.length) := by omega
  dsimp only
  rw [if_neg (by omega), if_neg hlow, if_neg (by omega), sub64_of_le (by omega) (by omega),
    Nat.add_sub_cancel_left]

/-- Aligning leaves whole pages from 1 MiB on as they are. -/
theorem alignEntry_of_whole {base length : ℕ} (hend : base + length < 2 ^ 63)
    (hbase : pageSize ∣ base) (hlength : pageSize ∣ length) (hlow : memmapBase ≤ base)
    (hpos : 0 < length) : alignEntry base length = some (base, length) := by
  have hup : alignUp base pageSize = base := by
    rw [alignUp, pageSize, add64_of_lt (by omega)]
    rw [pageSize] at hbase
    omega
  have hdown : alignDown length pageSize = length := Nat.div_mul_cancel hlength
  rw [alignEntry, if_neg (not_lt.2 (Nat.le_of_dvd hpos hlength))]
  dsimp only
  rw [hup, sub64_of_le le_rfl (by omega), Nat.sub_self, sub64_of_le (Nat.zero_le _) (by omega),
    Nat.sub_zero, hdown, if_neg (not_lt.2 hlow)]

/-- An entry of whole pages is kept as it is. -/
theorem keepEntry_of_whole {e : MmapEntry} (he : Bounded e) (hwhole : Whole e) (hpos : 0 < e.length) :
    keepEntry e = some e := by
  rw [keepEntry, if_neg hpos.ne', alignEntry_of_whole he hwhole.1 hwhole.2.1 hwhole.2.2 hpos]
  rfl

/-- An entry below all the others is not trimmed. -/
theorem trimAll_of_below {e : MmapEntry} {others : List MmapEntry} (he : Bounded e)
    (hothers : ∀ r ∈ others, Bounded r ∧ e.base + e.length ≤ r.base) :
    others.foldlM trimEntry e = .ok e := by
  induction others with
  | nil => rfl
  | cons r others ih =>
    obtain ⟨hr, hrest⟩ := List.forall_mem_cons.1 hothers
    rw [List.foldlM_cons, trimEntry_of_below he hr.1 hr.2]
    exact ih hrest

/-- Entries that are not usable are passed through. -/
theorem trimEntries_of_unusable {done rest : List MmapEntry} (h : ∀ r ∈ rest, r.type ≠ memmapUsable) :
    trimEntries done rest = .ok (done ++ rest) := by
  induction rest generalizing done with
  | nil => rw [List.append_nil]; rfl
  | cons r rest ih =>
    obtain ⟨hr, hrest⟩ := List.forall_mem_cons.1 h
    rw [trimEntries, if_pos hr, ih hrest, List.append_assoc]
    rfl

/-- A table of one usable entry of whole pages below all the others is only sorted and merged. -/
theorem sanitiseEntries_of_below {u : MmapEntry} {others sorted : List MmapEntry} (hu : Bounded u)
    (huse : u.type = memmapUsable) (hwhole : Whole u) (hpos : 0 < u.length)
    (hothers : ∀ r ∈ others, Bounded r ∧ u.base + u.length ≤ r.base)
    (hunusable : ∀ r ∈ others, r.type ≠ memmapUsable) (hperm : others.Perm sorted)
    (hsorted : sorted.Pairwise fun e f => e.base < f.base) :
    sanitiseEntries (u :: others) = .ok (mergeInto u sorted) := by
  have htrim : trimEntries [] (u :: others) = .ok (u :: others) := by
    rw [trimEntries, if_neg (not_not.2 huse)]
    refine bind_eq_ok.2 ⟨u, trimAll_of_below hu hothers, ?_⟩
    rw [keepEntry_of_whole hu hwhole hpos]
    exact trimEntries_of_unusable hunusable
  have hsort : selectionSort MmapEntry.base (u :: others) = u :: sorted := by
    refine selectionSort_eq (hperm.cons u) (List.pairwise_cons.2 ⟨fun r hr => ?_, hsorted⟩)
    have hr := (hothers r (hperm.mem_iff.2 hr)).2
    omega
  refine bind_eq_ok.2 ⟨_, htrim, ?_⟩
  rw [hsort]

/-- The small machine with entries above it that nothing is taken from. -/
def machine (length rest : ℕ) (above : List MmapEntry) : List MmapEntry :=
  smallMachine length rest ++ above

structure Above (above : List MmapEntry) : Prop where
  place : ∀ r ∈ above, 0x8000000 ≤ r.base ∧ r.base + r.length ≤ 0x8002000
  kept : ∀ r ∈ above, r.type ≠ memmapUsable ∧ r.type ≠ memmapBootloaderReclaimable
  sorted : above.Pairwise fun e f => e.base < f.base
  few : above.length ≤ 200

/-- A machine with nothing above it. -/
theorem above_nil : Above [] := ⟨by simp, by simp, .nil, Nat.zero_le _⟩

variable {above : List MmapEntry}

/-- The entries above end far below the bound. -/
theorem Above.bounded (h : Above above) : ∀ r ∈ above, Bounded r := by
  intro r hr
  have hend := (h.place r hr).2
  rw [Bounded]
  omega

/-- No entry is merged with those above. -/
theorem Above.merge (h : Above above) (e : MmapEntry) : mergeInto e above = e :: above := by
  have hkept := h.kept
  clear h
  induction above generalizing e with
  | nil => rfl
  | cons r above ih =>
    obtain ⟨hr, hrest⟩ := List.forall_mem_cons.1 hkept
    rw [mergeInto, if_neg fun hmerge => hr.2 hmerge.2.1, ih r hrest]

/-- A usable entry is not merged with what follows it. -/
theorem mergeInto_usable {base length : ℕ} {p : MmapEntry} {rest : List MmapEntry} :
    mergeInto ⟨base, length, 1⟩ (p :: rest) = ⟨base, length, 1⟩ :: mergeInto p rest := by
  rw [mergeInto, if_neg (by simp [memmapBootloaderReclaimable])]

/-- The table of the machine is already sanitised. -/
theorem machine_sanitised {length rest : ℕ} (h : Above above) (hsum : length + rest = 0x7f00000)
    (hdvd : pageSize ∣ length) (hpos : 0 < length) (hrest : 0 < rest) :
    sanitiseEntries (machine length rest above) = .ok (machine length rest above) := by
  have hbounds : Bounded ⟨0x100000, length, 1⟩ ∧ Bounded ⟨0x100000 + length, rest, 0x1000⟩ := by
    simp only [Bounded]
    omega
  have hwhole : Whole ⟨0x100000, length, 1⟩ :=
    ⟨show pageSize ∣ 0x100000 by decide, hdvd, show memmapBase ≤ 0x100000 by decide⟩
  have hothers : ∀ r ∈ (⟨0x100000 + length, rest, 0x1000⟩ : MmapEntry) :: above,
      Bounded r ∧ 0x100000 + length ≤ r.base := by
    refine List.forall_mem_cons.2 ⟨⟨hbounds.2, le_rfl⟩, fun r hr => ⟨h.bounded r hr, ?_⟩⟩
    have hplace := (h.place r hr).1
    omega
  have hunusable : ∀ r ∈ (⟨0x100000 + length, rest, 0x1000⟩ : MmapEntry) :: above,
      r.type ≠ memmapUsable :=
    List.forall_mem_cons.2 ⟨show 0x1000 ≠ memmapUsable by decide, fun r hr => (h.kept r hr).1⟩
  have hsorted : ((⟨0x100000 + length, rest, 0x1000⟩ : MmapEntry) :: above).Pairwise
      fun e f => e.base < f.base := by
    refine List.pairwise_cons.2 ⟨fun r hr => ?_, h.sorted⟩
    have hplace := (h.place r hr).1
    dsimp only
    omega
  have hsane := sanitiseEntries_of_below hbounds.1 rfl hwhole hpos hothers hunusable (.refl _) hsorted
  rw [mergeInto_usable, h.merge] at hsane
  exact hsane

/-- A page taken from the end of the usable entry is merged with those taken before. -/
theorem machine_page {length top rest all : ℕ} (h : Above above)
    (htop : top = 0x100000 + length + ptSize) (hall : all = ptSize + rest)
    (hsum : length + all = 0x7f00000) (hdvd : pageSize ∣ length) (hpos : 0 < length) (hrest : 0 < rest) :
    sanitiseEntries (⟨0x100000, length, 1⟩ :: (⟨top, rest, 0x1000⟩ :: above ++
      [⟨0x100000 + length, ptSize, 0x1000⟩])) = .ok (machine length all above) := by
  have hbounds : Bounded ⟨0x100000, length, 1⟩ ∧ Bounded ⟨top, rest, 0x1000⟩ ∧
      Bounded ⟨0x100000 + length, ptSize, 0x1000⟩ := by
    simp only [Bounded, ptSize] at *
    omega
  obtain ⟨hu, hr, hp⟩ := hbounds
  have hwhole : Whole ⟨0x100000, length, 1⟩ :=
    ⟨show pageSize ∣ 0x100000 by decide, hdvd, show memmapBase ≤ 0x100000 by decide⟩
  have hperm := List.perm_append_singleton (⟨0x100000 + length, ptSize, 0x1000⟩ : MmapEntry)
    (⟨top, rest, 0x1000⟩ :: above)
  have hothers : ∀ r ∈ (⟨0x100000 + length, ptSize, 0x1000⟩ : MmapEntry) :: ⟨top, rest, 0x1000⟩ :: above,
      Bounded r ∧ 0x100000 + length ≤ r.base := by
    refine List.forall_mem_cons.2 ⟨⟨hp, le_rfl⟩, List.forall_mem_cons.2 ⟨⟨hr, ?_⟩, fun r hr => ?_⟩⟩
    · dsimp only
      omega
    · have hplace := (h.place r hr).1
      exact ⟨h.bounded r hr, by omega⟩
  have hunusable : ∀ r ∈ (⟨0x100000 + length, ptSize, 0x1000⟩ : MmapEntry) :: ⟨top, rest, 0x1000⟩ :: above,
      r.type ≠ memmapUsable :=
    List.forall_mem_cons.2 ⟨show 0x1000 ≠ memmapUsable by decide, List.forall_mem_cons.2
      ⟨show 0x1000 ≠ memmapUsable by decide, fun r hr => (h.kept r hr).1⟩⟩
  have hsorted : ((⟨0x100000 + length, ptSize, 0x1000⟩ : MmapEntry) :: ⟨top, rest, 0x1000⟩ :: above).Pairwise
      fun e f => e.base < f.base := by
    have hplace : ∀ r ∈ above, top < r.base := by
      intro r hr
      have hlo := (h.place r hr).1
      omega
    refine List.pairwise_cons.2 ⟨List.forall_mem_cons.2 ⟨?_, fun r hr => ?_⟩,
      List.pairwise_cons.2 ⟨hplace, h.sorted⟩⟩
    · simp only [ptSize] at *
      omega
    · exact lt_of_le_of_lt (by rw [htop]; exact Nat.le_add_right _ _) (hplace r hr)
  have hend : entryTop ⟨0x100000 + length, ptSize, 0x1000⟩ = top := (entryTop_eq hp).trans htop.symm
  have hadd : add64 ptSize rest = all := by
    rw [hall]
    exact add64_of_lt (by rw [ptSize] at *; omega)
  have hsane := sanitiseEntries_of_below hu rfl hwhole hpos
    (fun r hr => hothers r (hperm.mem_iff.1 hr)) (fun r hr => hunusable r (hperm.mem_iff.1 hr)) hperm hsorted
  rw [mergeInto_usable, mergeInto, if_pos ⟨rfl, rfl, hend.symm⟩, h.merge] at hsane
  dsimp only at hsane
  rw [hadd] at hsane
  exact hsane

/-- The search passes entries that are not usable. -/
theorem findExt_unusable {count alignment : ℕ} {entries rest : List MmapEntry}
    (h : ∀ e ∈ entries, e.type ≠ memmapUsable) :
    findExt count alignment (entries ++ rest) = findExt count alignment rest := by
  induction entries with
  | nil => rfl
  | cons e entries ih =>
    obtain ⟨he, hrest⟩ := List.forall_mem_cons.1 h
    rw [List.cons_append, findExt]
    exact (if_pos he).trans (ih hrest)

/-- The next page table is the last page of the usable entry. -/
theorem machine_ext {length rest below all : ℕ} (h : Above above) (hlength : length = below + ptSize)
    (hall : all = ptSize + rest) (hsum : below + all = 0x7f00000) (hdvd : pageSize ∣ below)
    (hpos : 0 < below) (hrest : 0 < rest) (mem : Memory) :
    extMemAllocAligned ⟨machine length rest above, mem⟩ ptSize ptSize =
      .ok (0x100000 + below, ⟨machine below all above, memsetZero mem (0x100000 + below) ptSize⟩) := by
  have hpage : ptSize = pageSize := rfl
  have hbound : Bounded ⟨0x100000, length, 1⟩ := by
    simp only [Bounded, ptSize] at *
    omega
  have hdown : (((0x100000 + length : ℕ) : ℤ) - ptSize).tdiv ptSize * ptSize =
      ((0x100000 + below : ℕ) : ℤ) := by
    obtain ⟨k, rfl⟩ := hdvd
    rw [hlength, hpage]
    simp only [pageSize]
    rw [Int.tdiv_eq_ediv_of_nonneg (by omega)]
    omega
  have hfind : findExt ptSize ptSize (machine length rest above).reverse =
      some (0x100000 + below, ptSize) := by
    rw [machine, List.reverse_append, findExt_unusable fun e he => (h.kept e (List.mem_reverse.1 he)).1,
      smallMachine, List.reverse_cons, List.reverse_singleton, List.singleton_append, findExt,
      if_pos (show 0x1000 ≠ memmapUsable by decide), findExt, entryTop_eq hbound,
      toInt64_of_lt (show 0x100000 < 2 ^ 63 by decide), toInt64_of_lt hbound,
      if_neg (show ¬ 1 ≠ memmapUsable by decide)]
    dsimp only
    rw [hdown, if_neg (by simp only [ptSize] at *; omega), if_neg (by simp only [ptSize] at *; omega)]
    have hsub : ((0x100000 + length : ℕ) : ℤ) - ((0x100000 + below : ℕ) : ℤ) = (ptSize : ℕ) := by omega
    rw [hsub, ofInt64_natCast (by simp only [ptSize] at *; omega), ofInt64_natCast (by decide)]
  have htake : memmapAllocRange (machine length rest above) (0x100000 + below) ptSize 0x1000 =
      .ok (⟨0x100000, below, 1⟩ :: (⟨0x100000 + length, rest, 0x1000⟩ :: above ++
        [⟨0x100000 + below, ptSize, 0x1000⟩])) := by
    have htop : 0x100000 + below + ptSize = 0x100000 + length := by omega
    have hsub : 0x100000 + below - 0x100000 = below := Nat.add_sub_cancel_left _ _
    rw [memmapAllocRange, machine, smallMachine, List.cons_append, allocRangeFrom, entryTop_eq hbound,
      add64_of_lt (by simp only [ptSize] at *; omega), htop]
    dsimp only
    rw [hsub, if_pos ⟨rfl, ⟨by omega, by simp only [ptSize] at *; omega⟩, by omega, le_rfl⟩,
      if_neg hpos.ne']
    have hmax : ¬ memmapMaxEntries ≤ ([] ++ [(⟨0x100000, below, 1⟩ : MmapEntry)] ++
        ((⟨0x100000 + length, rest, 0x1000⟩ : MmapEntry) :: [] ++ above)).length := by
      have hfew := h.few
      simp only [memmapMaxEntries, List.nil_append, List.cons_append, List.length_cons]
      omega
    rw [Nat.sub_self, if_neg (not_not.2 rfl)]
    exact (if_neg hmax).trans (if_neg hmax)
  have hsane := @machine_page above below (0x100000 + length) rest all h (by omega) hall hsum hdvd hpos hrest
  have hret : (0x100000 + below) % 2 ^ 32 = 0x100000 + below := Nat.mod_eq_of_lt (by omega)
  rw [extMemAllocAligned, extMemAllocAlignedType]
  dsimp only
  rw [hfind]
  dsimp only
  rw [hret]
  refine bind_eq_ok.2 ⟨_, htake, ?_⟩
  rw [hsane]
  rfl

/-- There is room for a number of page tables. -/
def Roomy (above : List MmapEntry) (n : ℕ) (s : Boot) : Prop :=
  ∃ length rest, s.memmap = machine length rest above ∧ length + rest = 0x7f00000 ∧
    pageSize ∣ length ∧ ptSize * n < length ∧ 0 < rest

/-- Room for more page tables is room for fewer. -/
theorem Roomy.mono {n k : ℕ} {s : Boot} (hroomy : Roomy above n s) (hle : k ≤ n) : Roomy above k s := by
  obtain ⟨length, rest, hmemmap, hsum, hdvd, hroom, hrest⟩ := hroomy
  exact ⟨length, rest, hmemmap, hsum, hdvd, (Nat.mul_le_mul_left _ hle).trans_lt hroom, hrest⟩

/-- With room for one more, the next page table is found and takes that room. -/
theorem Roomy.page {n : ℕ} {s : Boot} (h : Above above) (hroomy : Roomy above (n + 1) s) :
    ∃ ret s', extMemAllocAligned s ptSize ptSize = .ok (ret, s') ∧ Roomy above n s' := by
  obtain ⟨length, rest, hmemmap, hsum, hdvd, hroom, hrest⟩ := hroomy
  obtain ⟨memmap, mem⟩ := s
  obtain rfl : memmap = machine length rest above := hmemmap
  have hlength : length = length - ptSize + ptSize := by
    rw [Nat.mul_succ] at hroom
    omega
  rw [Nat.mul_succ] at hroom
  have hdvd' : pageSize ∣ length - ptSize := Nat.dvd_sub hdvd (dvd_refl pageSize)
  have hext := @machine_ext above length rest (length - ptSize) (ptSize + rest) h hlength rfl (by omega)
    hdvd' (by omega) hrest mem
  exact ⟨_, _, hext, _, _, rfl, by omega, hdvd', by omega, by omega⟩

/-- Going down one level takes one page table at most. -/
theorem Roomy.getNextLevel {n t i : ℕ} {s : Boot} (h : Above above) (hroomy : Roomy above (n + 1) s) :
    ∃ next s', getNextLevel s t i = .ok (next, s') ∧ Roomy above n s' := by
  rw [Limine.getNextLevel]
  dsimp only
  split
  · exact ⟨_, s, rfl, hroomy.mono (Nat.le_succ n)⟩
  · obtain ⟨ret, s', hext, hroom⟩ := hroomy.page h
    rw [hext]
    exact ⟨ret, _, rfl, hroom⟩

/-- Mapping one page takes two page tables at most. -/
theorem Roomy.mapPage {n virtAddr physAddr flags : ℕ} {pagemap : Pagemap} {s : Boot} (h : Above above)
    (hlevels : pagemap.levels = 4) (hroomy : Roomy above (n + 2) s) :
    ∃ s', mapPage pagemap s virtAddr physAddr flags = .ok s' ∧ Roomy above n s' := by
  obtain ⟨pml3, s₁, hfirst, h₁⟩ :=
    @Roomy.getNextLevel above (n + 1) pagemap.topLevel (pmlEntry virtAddr 39) s h hroomy
  obtain ⟨pml2, s₂, hsecond, h₂⟩ := @Roomy.getNextLevel above n pml3 (pmlEntry virtAddr 30) s₁ h h₁
  have hlv : ¬ pagemap.levels = 5 := by omega
  rw [Limine.mapPage, if_neg hlv]
  let leaf := physAddr ||| flags ||| 1 <<< 7
  refine ⟨⟨s₂.memmap, storeLE s₂.mem 8 (pml2 + 8 * pmlEntry virtAddr 21) leaf⟩, ?_, h₂⟩
  exact bind_eq_ok.2 ⟨_, rfl, bind_eq_ok.2 ⟨_, hfirst, bind_eq_ok.2 ⟨_, hsecond, rfl⟩⟩⟩

/-- Mapping a list of pages takes two page tables for each at most. -/
theorem Roomy.mapPages {n : ℕ} {pagemap : Pagemap} {requests : List MapRequest} {s : Boot}
    (h : Above above) (hlevels : pagemap.levels = 4) (hroomy : Roomy above (n + 2 * requests.length) s) :
    ∃ s', mapPages pagemap s requests = .ok s' ∧ Roomy above n s' := by
  induction requests generalizing s with
  | nil => exact ⟨s, rfl, hroomy⟩
  | cons r requests ih =>
    have hroomy' : Roomy above (n + 2 * requests.length + 2) s := hroomy
    obtain ⟨s₁, hfirst, h₁⟩ :=
      @Roomy.mapPage above _ r.virtAddr r.physAddr r.flags pagemap s h hlevels hroomy'
    obtain ⟨s₂, hrest, h₂⟩ := ih h₁
    exact ⟨s₂, bind_eq_ok.2 ⟨s₁, hfirst, hrest⟩, h₂⟩

/-- Each round of the loop makes two requests. -/
theorem bothRequests_length {α : Type*} (higherHalf : ℕ) (f : α → ℕ) (l : List α) :
    (l.flatMap fun i => bothRequests higherHalf (f i)).length = 2 * l.length := by
  induction l with
  | nil => rfl
  | cons i l ih =>
    rw [List.flatMap_cons, List.length_append, ih, List.length_cons]
    simp only [bothRequests, List.length_cons, List.length_nil]
    omega

/-- The entries of the machine take few large pages. -/
theorem entryRequests_length {e : MmapEntry} (hend : e.base + e.length ≤ 0x8002000) (higherHalf : ℕ) :
    (entryRequests higherHalf e).length ≤ 130 := by
  have hup : alignUp (e.base + e.length) largePage ≤ 0x8200000 ∧
      alignDown e.base largePage ≤ alignUp (e.base + e.length) largePage := by
    rw [alignUp, alignDown, largePage, add64_of_lt (by omega)]
    omega
  rw [entryRequests, entryTop_eq (show e.base + e.length < 2 ^ 63 by omega), bothRequests_length,
    List.length_range]
  generalize alignUp (e.base + e.length) largePage = top at hup
  generalize alignDown e.base largePage = low at hup
  rw [sub64_of_le hup.2 (by omega), largePage]
  omega

/-- Its entries end within a page table more. -/
theorem Roomy.entry {n i : ℕ} {s : Boot} (h : Above above) (hroomy : Roomy above n s) :
    (s.memmap.getD i ⟨0, 0, 0⟩).base + (s.memmap.getD i ⟨0, 0, 0⟩).length ≤ 0x8002000 := by
  obtain ⟨length, rest, hmemmap, hsum, -⟩ := hroomy
  rw [hmemmap, machine, smallMachine]
  match i with
  | 0 =>
    simp only [List.cons_append, List.getD_cons_zero]
    omega
  | 1 =>
    simp only [List.cons_append, List.getD_cons_succ, List.getD_cons_zero]
    omega
  | i + 2 =>
    simp only [List.cons_append, List.getD_cons_succ, List.nil_append]
    by_cases hi : i < above.length
    · rw [List.getD_eq_getElem _ _ hi]
      exact (h.place _ (List.getElem_mem hi)).2
    · rw [List.getD_eq_default _ _ (by omega)]
      exact Nat.zero_le _

/-- The last loop returns as long as there is room for its tables. -/
theorem Roomy.mapEntries {n : ℕ} {pagemap : Pagemap} {s : Boot} (h : Above above)
    (hlevels : pagemap.levels = 4) (indices : List ℕ) (hroomy : Roomy above (n + 260 * indices.length) s) :
    ∃ s', indices.foldlM (fun s i => mapEntry pagemap (higherHalfBase false) s
      (s.memmap.getD i ⟨0, 0, 0⟩)) s = .ok s' ∧ Roomy above n s' := by
  induction indices generalizing s with
  | nil => exact ⟨s, rfl, hroomy⟩
  | cons i indices ih =>
    have hlen := entryRequests_length (hroomy.entry (i := i) h) (higherHalfBase false)
    rw [List.length_cons] at hroomy
    have hroomy' : Roomy above (n + 260 * indices.length +
        2 * (entryRequests (higherHalfBase false) (s.memmap.getD i ⟨0, 0, 0⟩)).length) s :=
      hroomy.mono (by omega)
    obtain ⟨s₁, hfirst, h₁⟩ := @Roomy.mapPages above _ pagemap _ s h hlevels hroomy'
    obtain ⟨s₂, hrest, h₂⟩ := ih h₁
    refine ⟨s₂, ?_, h₂⟩
    rw [List.foldlM_cons, mapEntry_eq]
    exact bind_eq_ok.2 ⟨s₁, hfirst, hrest⟩

/-- On this machine the whole map is built. -/
theorem Roomy.build {memmapEntries top : ℕ} {s s₀ : Boot} (h : Above above) (hfew : memmapEntries ≤ 20)
    (hpage : extMemAllocAligned s ptSize ptSize = .ok (top, s₀)) (h₀ : Roomy above 19999 s₀) :
    ∃ pagemap s' table,
      stivaleBuildPagemap s false (fun _ => ⟨0, 0, 0⟩) memmapEntries = .ok (pagemap, s') ∧
        sanitiseEntries s'.memmap = .ok table := by
  let pagemap : Pagemap := ⟨4, top, .inl rfl⟩
  have hcount : (windowRequests ++ lowRequests (higherHalfBase false)).length = 5120 := by
    rw [List.length_append, windowRequests, List.length_map, lowRequests, bothRequests_length,
      List.length_range, List.length_range]
    decide
  have h₀' : Roomy above (9759 + 2 * (windowRequests ++ lowRequests (higherHalfBase false)).length) s₀ := by
    rw [hcount]
    exact h₀
  obtain ⟨s₁, hfirst, h₁⟩ := @Roomy.mapPages above _ pagemap _ _ h rfl h₀'
  obtain ⟨s₂, hlast, h₂⟩ := @Roomy.mapEntries above 0 pagemap s₁ h rfl (List.range memmapEntries)
    (h₁.mono (by rw [List.length_range]; omega))
  obtain ⟨length, rest, hmemmap, hsum, hdvd, hpos, hrest⟩ := h₂
  refine ⟨pagemap, s₂, machine length rest above, ?_, ?_⟩
  · have hnew : newPagemap s 4 (.inl rfl) = .ok (pagemap, s₀) := by
      rw [newPagemap, hpage]
      rfl
    rw [stivaleBuildPagemap_eq]
    -- the lists stay folded
    generalize windowRequests ++ lowRequests (higherHalfBase false) = requests at hfirst
    refine bind_eq_ok.2 ⟨(pagemap, s₀), hnew, bind_eq_ok.2 ⟨s₁, hfirst, ?_⟩⟩
    exact bind_eq_ok.2 ⟨s₂, hlast, rfl⟩
  · rw [hmemmap]
    exact machine_sanitised h hsum hdvd (by omega) hrest

/-- A machine of 128 MiB from which one page was taken before. -/
theorem directMap_of_boot_small : ∃ pagemap s table,
    stivaleBuildPagemap ⟨smallMachine 0x7eff000 0x1000, fun _ => 0⟩ false (fun _ => ⟨0, 0, 0⟩) 1 =
        .ok (pagemap, s) ∧ sanitiseEntries s.memmap = .ok table ∧
      ∃ map : StivaleMap, map.entries = table ∧ ∀ b requests h, b.mem = s.mem →
        Run HeapStep (Heap.start map b) requests h →
          DirectMap false (pagemap.translate h.buddy.mem) := by
  have hroomy : Roomy [] 20000 ⟨smallMachine 0x7eff000 0x1000, fun _ => 0⟩ :=
    ⟨_, _, (List.append_nil _).symm, by decide, by decide, by decide, by decide⟩
  obtain ⟨top, s₀, hpage, h₀⟩ := hroomy.page above_nil
  obtain ⟨pagemap, s, table, hbuild, hget⟩ := h₀.build above_nil (show 1 ≤ 20 by decide) hpage
  have hfirmware : Below (physLimit false) [⟨0x100000, 0x7f00000, 1⟩] := by
    unfold Below
    decide
  have hinit : initMemmap [⟨0x100000, 0x7f00000, 1⟩] = .ok [⟨0x100000, 0x7f00000, 1⟩] := by decide
  have hcall : LoaderStep ⟨⟨[⟨0x100000, 0x7f00000, 1⟩], fun _ => 0⟩, []⟩ (.ext 0x1000 0x1000 0x1000)
      ⟨⟨smallMachine 0x7eff000 0x1000, memsetZero (fun _ => 0) 0x7fff000 0x1000⟩,
        [⟨0x7fff000, 0x1000, 0x1000⟩]⟩ := ⟨show 0x1000 ≠ memmapUsable by decide, rfl⟩
  rw [memsetZero_zero] at hcall
  exact ⟨pagemap, s, table, hbuild, hget,
    directMap_of_boot hfirmware hinit (.single hcall) (fun _ => Nat.zero_le _) hbuild hget⟩

end Orionis.Limine
