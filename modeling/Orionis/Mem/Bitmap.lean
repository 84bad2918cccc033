import Orionis.Foundations.BitArray
import Orionis.Mem.MemoryMap

/-!
# The bitmap page allocator of `pmm.cpp`

One bit for every page below the top of usable RAM, set when the page is taken. The bitmap
lies in the first usable region large enough for it. Allocation scans from a cursor to the
end and then from the start to the cursor.

Page numbers and byte counts stay below `2 ^ 52` and need no wrap-around; the top of a
region is the only sum the code computes that could.
-/

namespace Orionis.Mem

open Orionis.Foundations

/-- The globals of the allocator and the memory its bitmap is in. -/
structure Pmm where
  mem : Memory
  pmmBitmap : ℕ
  totalPages : ℕ
  lastCheckedPage : ℕ

namespace Pmm

/-- `pmm_bitmap_set`. -/
def bitmapSet (s : Pmm) (page : ℕ) : Pmm := { s with mem := setBit s.mem s.pmmBitmap page }

/-- `pmm_bitmap_clear`. -/
def bitmapClear (s : Pmm) (page : ℕ) : Pmm := { s with mem := clearBit s.mem s.pmmBitmap page }

/-- `pmm_bitmap_test`. -/
def bitmapTest (s : Pmm) (page : ℕ) : Bool := testBit s.mem s.pmmBitmap page

end Pmm

/-! ## `init_pmm` -/

/-- The first loop: the highest end of a usable entry. -/
def highestAddr (entries : List MmapEntry) : ℕ :=
  entries.foldl (fun highest e =>
    if e.type = 1 then
      let top := (e.base + e.length) % 2 ^ 64
      if highest < top then top else highest
    else highest) 0

/-- One bit for each page, in whole bytes. -/
def bitmapBytes (pages : ℕ) : ℕ :=
  let size := pages / 8
  if size * 8 < pages then size + 1 else size

/-- The pages a number of bytes takes. -/
def bitmapPages (size : ℕ) : ℕ := if size % pageSize ≠ 0 then size / pageSize + 1 else size / pageSize

/-- The second loop: where the bitmap goes. -/
def placeBitmap (entries : List MmapEntry) (size old : ℕ) : ℕ :=
  match entries.find? fun e => e.type = 1 ∧ size ≤ e.length with
  | some e => e.base
  | none => old

/-- The third loop: mark every page as taken. -/
def fillBitmap (size : ℕ) (s : Pmm) : Pmm :=
  (List.range size).foldl
    (fun s i => { s with mem := Function.update s.mem (s.pmmBitmap + i) 0xFF }) s

/-- The fourth loop: mark the pages of one usable entry as free. -/
def clearEntry (s : Pmm) (e : MmapEntry) : Pmm :=
  if e.type = 1 then
    (List.range (e.length / pageSize)).foldl (fun s j => s.bitmapClear (e.base / pageSize + j)) s
  else s

/-- The last loop: mark the pages of the bitmap itself as taken. -/
def reserveBitmap (count : ℕ) (s : Pmm) : Pmm :=
  (List.range count).foldl (fun s i => s.bitmapSet (s.pmmBitmap / pageSize + i)) s

/-- `init_pmm`. -/
def initPmm (s : Pmm) (entries : List MmapEntry) : Pmm :=
  let pages := highestAddr entries / pageSize
  let size := bitmapBytes pages
  let s := { s with
    totalPages := pages
    pmmBitmap := placeBitmap entries size s.pmmBitmap }
  reserveBitmap (bitmapPages size) (entries.foldl clearEntry (fillBitmap size s))

/-! ## Allocation, freeing and statistics -/

/-- A scan for a clear bit among `count` pages from `i` on. -/
def scanClear (s : Pmm) : (count i : ℕ) → Option ℕ
  | 0, _ => none
  | count + 1, i => if ¬ s.bitmapTest i then some i else scanClear s count (i + 1)

/-- `pmm_alloc_page`: the address of the page, or null. -/
def pmmAllocPage (s : Pmm) : ℕ × Pmm :=
  match scanClear s (s.totalPages - s.lastCheckedPage) s.lastCheckedPage with
  | some i => (i * pageSize, { s.bitmapSet i with lastCheckedPage := i + 1 })
  | none =>
    match scanClear s s.lastCheckedPage 0 with
    | some i => (i * pageSize, { s.bitmapSet i with lastCheckedPage := i + 1 })
    | none => (0, s)

/-- `pmm_free_page`. -/
def pmmFreePage (s : Pmm) (page : ℕ) : Pmm :=
  if page = 0 then s
  else
    let index := page / pageSize
    let s := s.bitmapClear index
    if index < s.lastCheckedPage then { s with lastCheckedPage := index } else s

/-- `pmm_get_used_pages`. -/
def pmmGetUsedPages (s : Pmm) : ℕ :=
  (List.range s.totalPages).foldl (fun used i => if s.bitmapTest i then used + 1 else used) 0

end Orionis.Mem
