import Orionis.Foundations.Dyadic

/-!
# The stivale memory map

The bootloader hands the kernel a table of regions. Both allocators only look at the
entries of type 1. What the stivale protocol promises about these entries is carried by
`StivaleMap`; the other entries are unconstrained.
-/

namespace Orionis.Mem

open Orionis.Foundations

/-- `PAGE_SIZE`. -/
def pageSize : ℕ := 4096

/-- One entry of the table, as `buddy_init` and `init_pmm` read it. -/
structure MmapEntry where
  base : ℕ
  length : ℕ
  type : ℕ
  deriving DecidableEq, Repr

/-- Usable RAM, the entries both allocators take. -/
def MmapEntry.Usable (e : MmapEntry) : Prop := e.type = 1

instance (e : MmapEntry) : Decidable e.Usable := inferInstanceAs (Decidable (_ = _))

/-- The addresses of the region. -/
def MmapEntry.bytes (e : MmapEntry) : Set ℕ := Set.Ico e.base (e.base + e.length)

instance (x : ℕ) (e : MmapEntry) : Decidable (x ∈ e.bytes) :=
  inferInstanceAs (Decidable (x ∈ Set.Ico _ _))

/-- The bytes of an entry as bounds. -/
theorem MmapEntry.mem_bytes {e : MmapEntry} {x : ℕ} :
    x ∈ e.bytes ↔ e.base ≤ x ∧ x < e.base + e.length := Set.mem_Ico

/-- A memory map that keeps the promises of the stivale protocol about usable RAM. -/
structure StivaleMap where
  entries : List MmapEntry
  aligned : ∀ e ∈ entries, e.Usable → pageSize ∣ e.base ∧ pageSize ∣ e.length
  disjoint : (entries.filter (·.Usable)).Pairwise fun e f => Disjoint e.bytes f.bytes
  base_ne_zero : ∀ e ∈ entries, e.Usable → e.base ≠ 0
  top_lt : ∀ e ∈ entries, e.Usable → e.base + e.length < 2 ^ 64

namespace StivaleMap

/-- The usable entries, in table order. -/
def regions (map : StivaleMap) : List MmapEntry := map.entries.filter (·.Usable)

/-- The addresses of usable RAM. -/
def usable (map : StivaleMap) : Set ℕ := {x | ∃ e ∈ map.regions, x ∈ e.bytes}

/-- The regions are the usable entries. -/
theorem mem_regions {map : StivaleMap} {e : MmapEntry} :
    e ∈ map.regions ↔ e ∈ map.entries ∧ e.Usable := by
  simp [regions]

/-- Usable addresses lie in whole pages above the first one and below `2 ^ 64`. -/
theorem bounds_of_mem_usable {map : StivaleMap} {x : ℕ} (hx : x ∈ map.usable) :
    pageSize ≤ x ∧ x < 2 ^ 64 := by
  obtain ⟨e, he, hxe⟩ := hx
  obtain ⟨hmem, huse⟩ := mem_regions.1 he
  have hbase : pageSize ≤ e.base :=
    Nat.le_of_dvd (Nat.pos_of_ne_zero (map.base_ne_zero e hmem huse)) (map.aligned e hmem huse).1
  have htop := map.top_lt e hmem huse
  rw [MmapEntry.mem_bytes] at hxe
  omega

end StivaleMap

/-- The extent of a list of regions. -/
def regionExtent (regions : List MmapEntry) : Extent :=
  (regions.map fun e => runExtent e.base e.length).sum

@[simp] theorem regionExtent_cons (e : MmapEntry) (regions : List MmapEntry) :
    regionExtent (e :: regions) = runExtent e.base e.length + regionExtent regions := rfl

/-- A byte is counted when a region has it. -/
theorem regionExtent_count_pos {regions : List MmapEntry} {x : ℕ} :
    0 < (regionExtent regions).1 x ↔ ∃ e ∈ regions, x ∈ e.bytes := by
  induction regions with
  | nil => simp [regionExtent]
  | cons e regions ih =>
    rw [regionExtent_cons, Prod.fst_add, Pi.add_apply, Nat.add_pos_iff_pos_or_pos, ih]
    by_cases hx : e.base ≤ x ∧ x < e.base + e.length <;>
      simp [runExtent, MmapEntry.mem_bytes, hx]

/-- Disjoint regions hold every address at most once. -/
theorem regionExtent_le_one {regions : List MmapEntry}
    (h : regions.Pairwise fun e f => Disjoint e.bytes f.bytes) (x : ℕ) :
    (regionExtent regions).1 x ≤ 1 := by
  induction regions with
  | nil => simp [regionExtent]
  | cons e regions ih =>
    obtain ⟨hhead, htail⟩ := List.pairwise_cons.1 h
    rw [regionExtent_cons, Prod.fst_add, Pi.add_apply]
    by_cases hx : x ∈ e.bytes
    · have hzero : (regionExtent regions).1 x = 0 := by
        apply Nat.eq_zero_of_not_pos
        intro hpos
        obtain ⟨f, hf, hxf⟩ := regionExtent_count_pos.1 hpos
        exact Set.disjoint_left.1 (hhead f hf) hx hxf
      rw [hzero, Nat.add_zero]
      simp only [runExtent]
      split_ifs <;> omega
    · have hhere : (runExtent e.base e.length).1 x = 0 := if_neg (mt MmapEntry.mem_bytes.2 hx)
      rw [hhere, Nat.zero_add]
      exact ih htail

/-- The extent of usable RAM. -/
def StivaleMap.extent (map : StivaleMap) : Extent := regionExtent map.regions

namespace StivaleMap

/-- The usable bytes are those counted. -/
theorem extent_count_pos {map : StivaleMap} {x : ℕ} : 0 < map.extent.1 x ↔ x ∈ map.usable :=
  regionExtent_count_pos

/-- Regions do not overlap, so no byte counts twice. -/
theorem extent_count_le_one (map : StivaleMap) (x : ℕ) : map.extent.1 x ≤ 1 :=
  regionExtent_le_one map.disjoint x

end StivaleMap

/-- The second page is not the null page. -/
theorem secondPage_ne_zero : (0x1000 : ℕ) ≠ 0 := by decide

/-- It begins a page. -/
theorem secondPage_aligned : pageSize ∣ 0x1000 := by decide

/-- A map of one usable region. -/
def singleRegion (base pages : ℕ) (hbase : base ≠ 0) (hpage : pageSize ∣ base)
    (htop : base + pages * pageSize < 2 ^ 64) : StivaleMap where
  entries := [⟨base, pages * pageSize, 1⟩]
  aligned := by
    simp only [List.mem_singleton, forall_eq]
    exact fun _ => ⟨hpage, Nat.dvd_mul_left _ _⟩
  disjoint := by simp [MmapEntry.Usable]
  base_ne_zero := by
    simp only [List.mem_singleton, forall_eq]
    exact fun _ => hbase
  top_lt := by
    simp only [List.mem_singleton, forall_eq]
    exact fun _ => htop

end Orionis.Mem
