import Mathlib.Data.Nat.ModEq
import Orionis.Mem.BitmapInit

/-!
# Where `init_pmm` writes

The stores of `init_pmm`, one by one. Where an entry has room for the bitmap they all go to this
entry. Where none has, the loops are run all the same, through the null pointer.
-/

namespace Orionis.Mem

open Orionis.Foundations

/-! ## The stores -/

/-- A byte of the bitmap is filled, or the bit of a page is cleared or set. -/
inductive BitmapStore
  | fill (i : ℕ)
  | clear (page : ℕ)
  | set (page : ℕ)
  deriving DecidableEq, Repr

/-- The byte of the bitmap that is written. -/
def BitmapStore.offset : BitmapStore → ℕ
  | .fill i => i
  | .clear page => page / 8
  | .set page => page / 8

/-- What a store does. -/
def Pmm.store (s : Pmm) : BitmapStore → Pmm
  | .fill i => { s with mem := Function.update s.mem (s.pmmBitmap + i) 0xFF }
  | .clear page => s.bitmapClear page
  | .set page => s.bitmapSet page

/-- The size `init_pmm` computes for the bitmap. -/
def bitmapSizeOf (entries : List MmapEntry) : ℕ := bitmapBytes (highestAddr entries / pageSize)

/-- The state of `init_pmm` before its first store. -/
def Pmm.place (s : Pmm) (entries : List MmapEntry) : Pmm :=
  { s with
    totalPages := highestAddr entries / pageSize
    pmmBitmap := placeBitmap entries (bitmapSizeOf entries) s.pmmBitmap }

/-- The stores for one entry of the map. -/
def entryStores (e : MmapEntry) : List BitmapStore :=
  if e.type = 1 then
    (List.range (e.length / pageSize)).map fun j => .clear (e.base / pageSize + j)
  else []

/-- All stores, loop after loop. -/
def initStores (bitmap : ℕ) (entries : List MmapEntry) : List BitmapStore :=
  (List.range (bitmapSizeOf entries)).map BitmapStore.fill ++ entries.flatMap entryStores ++
    (List.range (bitmapPages (bitmapSizeOf entries))).map fun i => .set (bitmap / pageSize + i)

/-! ## What is claimed of them -/

/-- A map whose usable entries are made of whole pages and do not wrap around. -/
structure WholePages (entries : List MmapEntry) : Prop where
  aligned : ∀ e ∈ entries, e.Usable → pageSize ∣ e.base ∧ pageSize ∣ e.length
  top_lt : ∀ e ∈ entries, e.Usable → e.base + e.length < 2 ^ 64

/-- A usable entry is large enough for the bitmap. -/
def HasRoom (entries : List MmapEntry) : Prop :=
  ∃ e ∈ entries, e.Usable ∧ bitmapSizeOf entries ≤ e.length

instance (entries : List MmapEntry) : Decidable (HasRoom entries) :=
  inferInstanceAs (Decidable (∃ e ∈ entries, _))

/-- The stores of `init_pmm` go to the bitmap, the bitmap lies in a usable entry, and without room
for it there are none. -/
structure StaysInside (s : Pmm) (entries : List MmapEntry) : Prop where
  usable : initStores (s.place entries).pmmBitmap entries ≠ [] → ∃ e ∈ entries, e.Usable ∧
    ∀ w ∈ initStores (s.place entries).pmmBitmap entries,
      (s.place entries).pmmBitmap + w.offset ∈ e.bytes
  within : ∀ w ∈ initStores (s.place entries).pmmBitmap entries, w.offset < bitmapSizeOf entries
  silent : ¬ HasRoom entries → initStores (s.place entries).pmmBitmap entries = []

/-! ## The loops as stores -/

section Loops

variable {s : Pmm} {entries : List MmapEntry} {w : BitmapStore}

/-- A store does not move the bitmap. -/
theorem store_pmmBitmap (s : Pmm) (w : BitmapStore) : (s.store w).pmmBitmap = s.pmmBitmap := by
  cases w <;> rfl

/-- Nor do any stores. -/
theorem foldl_store_pmmBitmap (s : Pmm) (stores : List BitmapStore) :
    (stores.foldl Pmm.store s).pmmBitmap = s.pmmBitmap := by
  induction stores generalizing s with
  | nil => rfl
  | cons w stores ih => exact (ih (s.store w)).trans (store_pmmBitmap s w)

/-- A store writes its byte of the bitmap. -/
theorem store_mem_of_ne {x : ℕ} (h : x ≠ s.pmmBitmap + w.offset) : (s.store w).mem x = s.mem x := by
  cases w <;> exact Function.update_of_ne h _ _

/-- Filling the bitmap stores each of its bytes. -/
theorem fillBitmap_eq_stores (size : ℕ) (s : Pmm) :
    fillBitmap size s = ((List.range size).map BitmapStore.fill).foldl Pmm.store s := by
  rw [List.foldl_map]
  rfl

/-- Clearing an entry stores a bit for each of its pages. -/
theorem clearEntry_eq_stores (s : Pmm) (e : MmapEntry) :
    clearEntry s e = (entryStores e).foldl Pmm.store s := by
  rw [clearEntry, entryStores]
  split
  · rw [List.foldl_map]
    rfl
  · rfl

/-- The loop over the entries as stores. -/
theorem clearEntries_eq_stores (s : Pmm) (entries : List MmapEntry) :
    entries.foldl clearEntry s = (entries.flatMap entryStores).foldl Pmm.store s := by
  induction entries generalizing s with
  | nil => rfl
  | cons e entries ih =>
    rw [List.foldl_cons, ih, List.flatMap_cons, List.foldl_append, clearEntry_eq_stores]

/-- Reserving the bitmap stores a bit for each of its own pages. -/
theorem reserveBitmap_eq_stores (count : ℕ) (s : Pmm) :
    reserveBitmap count s = ((List.range count).map fun i =>
      BitmapStore.set (s.pmmBitmap / pageSize + i)).foldl Pmm.store s := by
  induction count with
  | zero => rfl
  | succ count ih =>
    have hbitmap : (reserveBitmap count s).pmmBitmap = s.pmmBitmap := by
      rw [ih, foldl_store_pmmBitmap]
    have hlast : reserveBitmap (count + 1) s =
        (reserveBitmap count s).bitmapSet ((reserveBitmap count s).pmmBitmap / pageSize + count) := by
      rw [reserveBitmap, List.range_succ, List.foldl_append]
      rfl
    rw [hlast, hbitmap, ih, List.range_succ, List.map_append, List.foldl_append]
    rfl

/-- `init_pmm` places the bitmap and makes its stores. -/
theorem initPmm_eq_stores (s : Pmm) (entries : List MmapEntry) :
    initPmm s entries =
      (initStores (s.place entries).pmmBitmap entries).foldl Pmm.store (s.place entries) := by
  have hloops : initPmm s entries = reserveBitmap (bitmapPages (bitmapSizeOf entries))
      (entries.foldl clearEntry (fillBitmap (bitmapSizeOf entries) (s.place entries))) := rfl
  rw [hloops, reserveBitmap_eq_stores, clearEntries_eq_stores, fillBitmap_eq_stores,
    foldl_store_pmmBitmap, foldl_store_pmmBitmap, initStores, List.foldl_append, List.foldl_append]

/-- What lies outside the usable entries is not touched, where the stores stay inside. -/
theorem StaysInside.mem_eq (h : StaysInside s entries) {x : ℕ}
    (hx : ∀ e ∈ entries, e.Usable → x ∉ e.bytes) : (initPmm s entries).mem x = s.mem x := by
  have hkept (stores : List BitmapStore) (t : Pmm)
      (hne : ∀ w ∈ stores, x ≠ t.pmmBitmap + w.offset) :
      (stores.foldl Pmm.store t).mem x = t.mem x := by
    induction stores generalizing t with
    | nil => rfl
    | cons w stores ih =>
      obtain ⟨hw, hrest⟩ := List.forall_mem_cons.1 hne
      rw [← store_pmmBitmap t w] at hrest
      exact (ih (t.store w) hrest).trans (store_mem_of_ne hw)
  rw [initPmm_eq_stores]
  refine hkept _ (s.place entries) fun w hw heq => ?_
  obtain ⟨e, he, huse, hinside⟩ := h.usable (List.ne_nil_of_mem hw)
  exact hx e he huse (heq ▸ hinside w hw)

end Loops

/-! ## Bounds -/

section Bounds

variable {s : Pmm} {entries : List MmapEntry} {e : MmapEntry} {page : ℕ}

/-- The pages of a usable entry lie below the top. -/
theorem WholePages.page_lt (h : WholePages entries) (he : e ∈ entries) (huse : e.Usable)
    (hpage : page < e.base / pageSize + e.length / pageSize) :
    page / 8 < bitmapSizeOf entries := by
  apply lt_bitmapBytes
  have htop := le_highestAddr_of_lt h.top_lt he huse
  obtain ⟨hbase, -⟩ := h.aligned e he huse
  calc page < e.base / pageSize + e.length / pageSize := hpage
    _ = (e.base + e.length) / pageSize := (Nat.add_div_of_dvd_right hbase).symm
    _ ≤ highestAddr entries / pageSize := Nat.div_le_div_right htop

/-- A bitmap that fits into whole pages takes no more pages than these. -/
theorem bitmapPages_le {size length : ℕ} (hdvd : pageSize ∣ length) (hfits : size ≤ length) :
    bitmapPages size ≤ length / pageSize := by
  obtain ⟨pages, rfl⟩ := hdvd
  rw [Nat.mul_div_cancel_left pages (by decide), bitmapPages]
  unfold pageSize at hfits ⊢
  split <;> omega

/-- Where there is room, every store goes to the bitmap. -/
theorem WholePages.within (h : WholePages entries) (hroom : HasRoom entries) {w : BitmapStore}
    (hw : w ∈ initStores (s.place entries).pmmBitmap entries) :
    w.offset < bitmapSizeOf entries := by
  obtain ⟨e, he, huse, hfits, hplace⟩ := placeBitmap_of_room s.pmmBitmap hroom
  rw [initStores, List.mem_append, List.mem_append, List.mem_map, List.mem_flatMap, List.mem_map] at hw
  rcases hw with (⟨i, hi, rfl⟩ | ⟨f, hf, hw⟩) | ⟨i, hi, rfl⟩
  · exact List.mem_range.1 hi
  · rw [entryStores] at hw
    split at hw
    · next hfuse =>
      obtain ⟨j, hj, rfl⟩ := List.mem_map.1 hw
      exact h.page_lt hf hfuse (Nat.add_lt_add_left (List.mem_range.1 hj) _)
    · exact absurd hw List.not_mem_nil
  · have hbitmap : (s.place entries).pmmBitmap = e.base := hplace
    have hpages := bitmapPages_le (h.aligned e he huse).2 hfits
    rw [hbitmap]
    exact h.page_lt he huse (Nat.add_lt_add_left ((List.mem_range.1 hi).trans_le hpages) _)

/-- Without room the first loop still writes. -/
theorem not_staysInside (hsome : ∃ e ∈ entries, e.Usable) (hroom : ¬ HasRoom entries) :
    ¬ StaysInside s entries := by
  intro hinside
  obtain ⟨e, he, huse⟩ := hsome
  have hpos : 0 < bitmapSizeOf entries := by
    by_contra hzero
    exact hroom ⟨e, he, huse, (Nat.le_of_not_lt hzero).trans (Nat.zero_le _)⟩
  have hfirst : BitmapStore.fill 0 ∈ initStores (s.place entries).pmmBitmap entries :=
    List.mem_append_left _ (List.mem_append_left _ (List.mem_map_of_mem (List.mem_range.2 hpos)))
  rw [hinside.silent hroom] at hfirst
  exact absurd hfirst List.not_mem_nil

end Bounds

/-! ## Main result -/

/-- `init_pmm` stays inside usable memory exactly where an entry has room for the bitmap. -/
theorem staysInside_iff (s : Pmm) {entries : List MmapEntry} (h : WholePages entries)
    (hsome : ∃ e ∈ entries, e.Usable) : StaysInside s entries ↔ HasRoom entries := by
  constructor
  · intro hinside
    by_contra hroom
    exact not_staysInside hsome hroom hinside
  · intro hroom
    refine ⟨fun _ => ?_, fun w hw => h.within hroom hw, fun hnone => absurd hroom hnone⟩
    obtain ⟨e, he, huse, hfits, hplace⟩ := placeBitmap_of_room s.pmmBitmap hroom
    have hbitmap : (s.place entries).pmmBitmap = e.base := hplace
    refine ⟨e, he, huse, fun w hw => ?_⟩
    have hwithin := h.within hroom hw
    rw [hbitmap, MmapEntry.mem_bytes]
    omega

/-- The bitmap pointer before the first call is null. -/
def bootPmm : Pmm := { mem := fun _ => 0, pmmBitmap := 0, totalPages := 0, lastCheckedPage := 0 }

/-- One mebibyte behind the first page. -/
theorem staysInside_iff_mebibyte :
    let entries : List MmapEntry := [⟨0x1000, 0x100000, 1⟩]
    StaysInside bootPmm entries ∧ HasRoom entries := by
  intro entries
  have hwhole : WholePages entries := by constructor <;> decide
  have hroom : HasRoom entries := by decide
  exact ⟨(staysInside_iff bootPmm hwhole (by decide)).2 hroom, hroom⟩

/-- Two usable pages, one of them above 256 MiB: the bitmap needs more than a page, and it is
written at address 0. -/
theorem not_staysInside_sparse :
    ¬ ∀ (s : Pmm) (entries : List MmapEntry), WholePages entries → (∃ e ∈ entries, e.Usable) →
      StaysInside s entries := by
  intro hall
  let entries : List MmapEntry := [⟨0x1000, 0x1000, 1⟩, ⟨0x10000000, 0x1000, 1⟩]
  have hwhole : WholePages entries := by constructor <;> decide
  have hroom : ¬ HasRoom entries := by decide
  exact not_staysInside (by decide) hroom (hall bootPmm entries hwhole (by decide))

end Orionis.Mem
