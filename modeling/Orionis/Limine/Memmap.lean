import Orionis.Foundations.ByteMemory
import Orionis.Foundations.SelectionSort
import Orionis.Mem.MemoryMap

/-!
# The memory map of the bootloader

`mm/pmm.c` of Limine starts from the memory map of the firmware. It cuts the usable entries until
they meet no other entry and consist of whole pages, takes ranges out of them for the kernel, its
modules and for itself, and at last hands the table to the kernel.
-/

namespace Orionis.Limine

open Orionis.Foundations Orionis.Mem

/-- Why a call does not return: a panic, or a loop that runs past the table. -/
inductive Stop
  /-- "A non-usable e820 entry is inside a usable section." -/
  | insideUsable
  /-- "Memory map exhausted." -/
  | mapExhausted
  /-- "Out of memory" -/
  | outOfMemory
  /-- "High memory allocator: Out of memory" -/
  | highOutOfMemory
  | pastTable
  deriving DecidableEq, Repr

/-- `MEMMAP_BASE`. -/
def memmapBase : ℕ := 0x100000

/-- `MEMMAP_MAX_ENTRIES`. -/
def memmapMaxEntries : ℕ := 256

/-- `MEMMAP_USABLE`. -/
def memmapUsable : ℕ := 1

/-- `MEMMAP_BOOTLOADER_RECLAIMABLE`. -/
def memmapBootloaderReclaimable : ℕ := 0x1000

/-- 64-bit addition and subtraction. -/
def add64 (x y : ℕ) : ℕ := (x + y) % 2 ^ 64
def sub64 (x y : ℕ) : ℕ := (x + 2 ^ 64 - y) % 2 ^ 64

/-- `ALIGN_UP`, on 64 bits. -/
def alignUp (x a : ℕ) : ℕ := add64 x (a - 1) / a * a

/-- `ALIGN_DOWN`. -/
def alignDown (x a : ℕ) : ℕ := x / a * a

/-- `base + length` of an entry. -/
def entryTop (e : MmapEntry) : ℕ := add64 e.base e.length

/-! ## Sanitising -/

/-- `align_entry`. Its `!length` asks for a null pointer and not for a length of zero. -/
def alignEntry (base length : ℕ) : Option (ℕ × ℕ) :=
  if length < pageSize then none
  else
    let origBase := base
    let base := alignUp base pageSize
    let length := alignDown (sub64 length (sub64 base origBase)) pageSize
    let top := add64 base length
    if base < memmapBase then
      if memmapBase < top then some (memmapBase, sub64 length (memmapBase - base)) else none
    else some (base, length)

/-- A usable entry is cut against another one. -/
def trimEntry (e res : MmapEntry) : Except Stop MmapEntry :=
  let base := e.base
  let top := entryTop e
  let resBase := res.base
  let resTop := entryTop res
  if (base ≤ resBase ∧ resBase < top) ∧ (base ≤ resTop ∧ resTop < top) then .error .insideUsable
  else
    let top := if base ≤ resBase ∧ resBase < top then resBase else top
    let base := if base ≤ resTop ∧ resTop < top then resTop else base
    .ok { e with base := base, length := sub64 top base }

/-- What becomes of a usable entry, none where it is taken out of the table. -/
def keepEntry (e : MmapEntry) : Option MmapEntry :=
  if e.length = 0 then none
  else (alignEntry e.base e.length).map fun r => { e with base := r.1, length := r.2 }

/-- The first loop of `sanitise_entries`, with `done` before the entry it looks at. -/
def trimEntries : (done rest : List MmapEntry) → Except Stop (List MmapEntry)
  | done, [] => .ok done
  | done, e :: rest =>
    if e.type ≠ memmapUsable then trimEntries (done ++ [e]) rest
    else do
      let e ← (done ++ rest).foldlM trimEntry e
      trimEntries (done ++ (keepEntry e).toList) rest

/-- The last loop: entries that follow it are merged into the first one while they abut. -/
def mergeInto (e : MmapEntry) : List MmapEntry → List MmapEntry
  | [] => [e]
  | next :: rest =>
    if e.type = memmapBootloaderReclaimable ∧ next.type = memmapBootloaderReclaimable ∧
        next.base = entryTop e then
      mergeInto { e with length := add64 e.length next.length } rest
    else e :: mergeInto next rest

/-- `sanitise_entries`. With no entry left the bound of the sorting loop wraps around. -/
def sanitiseEntries (memmap : List MmapEntry) : Except Stop (List MmapEntry) := do
  match selectionSort MmapEntry.base (← trimEntries [] memmap) with
  | [] => .error .pastTable
  | e :: rest => .ok (mergeInto e rest)

/-- `init_memmap`. The copy panics at the entry behind the last one that fits. -/
def initMemmap (e820Map : List MmapEntry) : Except Stop (List MmapEntry) :=
  if memmapMaxEntries < e820Map.length then .error .mapExhausted else sanitiseEntries e820Map

/-! ## Taking ranges out -/

/-- `memmap_alloc_range`, with `done` before the entry it looks at. -/
def allocRangeFrom (base length type : ℕ) :
    (done rest : List MmapEntry) → Except Stop (List MmapEntry)
  | _, [] => .error .outOfMemory
  | done, e :: rest =>
    let top := add64 base length
    if e.type = memmapUsable ∧ (e.base ≤ base ∧ base < entryTop e) ∧
        (e.base ≤ top ∧ top ≤ entryTop e) then
      let lower : MmapEntry := { e with length := base - e.base }
      let memmap := done ++ (if lower.length = 0 then [] else [lower]) ++ rest
      if memmapMaxEntries ≤ memmap.length then .error .mapExhausted
      else
        let memmap := if entryTop e - top ≠ 0 then
          memmap ++ [⟨top, entryTop e - top, memmapUsable⟩] else memmap
        if memmapMaxEntries ≤ memmap.length then .error .mapExhausted
        else .ok (memmap ++ [⟨base, length, type⟩])
    else allocRangeFrom base length type (done ++ [e]) rest

/-- `memmap_alloc_range`. -/
def memmapAllocRange (memmap : List MmapEntry) (base length type : ℕ) :
    Except Stop (List MmapEntry) := allocRangeFrom base length type [] memmap

/-- The memory map and the memory of the machine. -/
structure Boot where
  memmap : List MmapEntry
  mem : Memory

/-- A 64-bit number as a signed one, and back. -/
def toInt64 (n : ℕ) : ℤ := if n < 2 ^ 63 then n else n - 2 ^ 64
def ofInt64 (z : ℤ) : ℕ := (z % 2 ^ 64).toNat

/-- The loop of `ext_mem_alloc_aligned_type`, from the last entry on: `alloc_base` and
`aligned_length`. Its division rounds towards zero. -/
def findExt (count alignment : ℕ) : List MmapEntry → Option (ℕ × ℕ)
  | [] => none
  | e :: rest =>
    let base := toInt64 e.base
    let top := toInt64 (entryTop e)
    let allocBase := (top - count).tdiv alignment * alignment
    if e.type ≠ memmapUsable then findExt count alignment rest
    else if base ≥ 0x100000000 ∨ top ≥ 0x100000000 then findExt count alignment rest
    else if allocBase < base then findExt count alignment rest
    else some (ofInt64 allocBase, ofInt64 (top - allocBase))

/-- `memset` to zero. -/
def memsetZero (m : Memory) (a n : ℕ) : Memory := fun x => if a ≤ x ∧ x < a + n then 0 else m x

/-- `ext_mem_alloc_aligned_type`. A pointer has 32 bits. -/
def extMemAllocAlignedType (s : Boot) (count alignment type : ℕ) : Except Stop (ℕ × Boot) :=
  match findExt count alignment s.memmap.reverse with
  | none => .error .highOutOfMemory
  | some (allocBase, alignedLength) => do
    let memmap ← memmapAllocRange s.memmap allocBase alignedLength type
    let ret := allocBase % 2 ^ 32
    .ok (ret, ⟨← sanitiseEntries memmap, memsetZero s.mem ret count⟩)

/-- `ext_mem_alloc_aligned`. -/
def extMemAllocAligned (s : Boot) (count alignment : ℕ) : Except Stop (ℕ × Boot) :=
  extMemAllocAlignedType s count alignment memmapBootloaderReclaimable

end Orionis.Limine
