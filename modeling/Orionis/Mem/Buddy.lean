import Orionis.Foundations.ByteMemory
import Orionis.Mem.MemoryMap

/-!
# The buddy allocator

The functions of `pmm.cpp` that manage power-of-two blocks, statement by statement. A
free block stores the address of the next one in its own first eight bytes, so the state
holds the physical memory next to the list heads and the page counters. The console
output of the functions is left out.

Loops over the list walk memory that a client may have corrupted, so they take fuel; a
call that needs more fuel than given has no result. All other loops are bounded by the
code itself.
-/

namespace Orionis.Mem

open Orionis.Foundations

/-- `MIN_ORDER`: blocks of one page. -/
def minOrder : ℕ := 12

/-- `MAX_ORDER`: blocks of 64 KiB. -/
def maxOrder : ℕ := 16

/-- The globals of the allocator and the memory it manages. -/
structure Buddy where
  mem : Memory
  freeList : ℕ → ℕ
  totalPhysicalPages : ℕ
  buddyUsedPages : ℕ
  buddyTotalManagedPages : ℕ

/-- `size_for_order`: a 32-bit shift, whose count the processor takes modulo 32, widened
with its sign. -/
def sizeForOrder (order : ℕ) : ℕ :=
  if order % 32 < 31 then 2 ^ (order % 32) else 2 ^ 64 - 2 ^ 31

/-- The doubling loop of `get_order`, on a 64-bit block size. -/
def getOrderLoop (size : ℕ) : (fuel order blockSize : ℕ) → Option ℕ
  | 0, _, _ => none
  | fuel + 1, order, blockSize =>
    if blockSize < size then getOrderLoop size fuel (order + 1) (blockSize * 2 % 2 ^ 64)
    else some order

/-- `get_order`. Sixty-four rounds are enough: after that many the block size is zero and
stays so, and the loop never ends. -/
def getOrder (size : ℕ) : Option ℕ := getOrderLoop size 64 minOrder (2 ^ minOrder)

/-- `get_buddy`. -/
def getBuddy (addr order : ℕ) : ℕ := addr ^^^ sizeForOrder order

/-- `block->next`. -/
def nextOf (m : Memory) (block : ℕ) : ℕ := loadLE m 8 block

namespace Buddy

/-- Put `block` at the front of the list of the given order, as every insertion of the
source does. -/
def insertBlock (s : Buddy) (order block : ℕ) : Buddy :=
  { s with
    mem := storeLE s.mem 8 block (s.freeList (order - minOrder))
    freeList := Function.update s.freeList (order - minOrder) block }

end Buddy

/-! ## `buddy_init` -/

/-- The search for the largest order that fits the rest of a region and its alignment. -/
def carveOrder (current remaining : ℕ) : (order : ℕ) → ℕ
  | 0 => 0
  | order + 1 =>
    if remaining < 2 ^ (order + 1) ∨ current % 2 ^ (order + 1) ≠ 0 then
      if order < minOrder then order else carveOrder current remaining order
    else order + 1

/-- The loop that cuts one region into blocks. Every round takes at least a page, which
bounds the number of rounds. -/
def carveRegion : (rounds current remaining : ℕ) → Buddy → Buddy
  | 0, _, _, s => s
  | rounds + 1, current, remaining, s =>
    if pageSize ≤ remaining then
      let order := carveOrder current remaining maxOrder
      if order < minOrder then s
      else
        let s := s.insertBlock order current
        carveRegion rounds ((current + 2 ^ order) % 2 ^ 64) (remaining - 2 ^ order)
          { s with buddyTotalManagedPages :=
              (s.buddyTotalManagedPages + 2 ^ order / pageSize) % 2 ^ 64 }
    else s

/-- The pages of all usable entries, as the first loop of `buddy_init` adds them up. -/
def countPhysicalPages (entries : List MmapEntry) : ℕ :=
  entries.foldl (fun total e =>
    if e.type = 1 then (total + e.length / pageSize) % 2 ^ 64 else total) 0

/-- One round of the loop over the memory map. -/
def carveEntry (s : Buddy) (e : MmapEntry) : Buddy :=
  if e.type ≠ 1 then s else carveRegion (e.length / pageSize) e.base e.length s

/-- `buddy_init`, whatever the globals held before. -/
def buddyInit (s : Buddy) (entries : List MmapEntry) : Buddy :=
  entries.foldl carveEntry
    { s with
      freeList := fun _ => 0
      totalPhysicalPages := countPhysicalPages entries
      buddyUsedPages := 0
      buddyTotalManagedPages := 0 }

/-! ## `buddy_alloc` -/

/-- The splitting loop: give the upper half of the block to the list below until the
requested order is reached. -/
def splitBlock (block order : ℕ) : (i : ℕ) → Buddy → Buddy
  | 0, s => s
  | i + 1, s =>
    if order < i + 1 then
      splitBlock block order i (s.insertBlock i ((block + sizeForOrder i) % 2 ^ 64))
    else s

/-- The loop over the orders from `i` on, `count` of them. -/
def allocFrom (order : ℕ) : (count i : ℕ) → Buddy → ℕ × Buddy
  | 0, _, s => (0, s)
  | count + 1, i, s =>
    let block := s.freeList (i - minOrder)
    if block ≠ 0 then
      let s := { s with
        freeList := Function.update s.freeList (i - minOrder) (nextOf s.mem block) }
      let s := splitBlock block order i s
      (block, { s with
        buddyUsedPages := (s.buddyUsedPages + sizeForOrder order / pageSize) % 2 ^ 64 })
    else allocFrom order count (i + 1) s

/-- `buddy_alloc`: the address of the block, or null. No result where `get_order` does not
return. -/
def buddyAlloc (s : Buddy) (size : ℕ) : Option (ℕ × Buddy) :=
  (getOrder size).map fun order => allocFrom order (maxOrder + 1 - order) order s

/-! ## `buddy_free` -/

/-- A `MemoryBlock**`: a list head, or the `next` field of a block. -/
inductive Link
  | head (order : ℕ)
  | next (block : ℕ)
  deriving DecidableEq, Repr

/-- `*cur`. -/
def Buddy.read (s : Buddy) : Link → ℕ
  | .head order => s.freeList (order - minOrder)
  | .next block => nextOf s.mem block

/-- `*cur = value`. -/
def Buddy.write (s : Buddy) (cur : Link) (value : ℕ) : Buddy :=
  match cur with
  | .head order => { s with freeList := Function.update s.freeList (order - minOrder) value }
  | .next block => { s with mem := storeLE s.mem 8 block value }

/-- `while (*cur && *cur != buddy) cur = &((*cur)->next)`. -/
def findLink (s : Buddy) (buddy : ℕ) : (fuel : ℕ) → Link → Option Link
  | 0, _ => none
  | fuel + 1, cur =>
    if s.read cur ≠ 0 ∧ s.read cur ≠ buddy then findLink s buddy fuel (.next (s.read cur))
    else some cur

/-- The merging loop, with `levels` orders left below `MAX_ORDER`. -/
def mergeLoop (fuel : ℕ) : (levels addr order : ℕ) → Buddy → Option Buddy
  | 0, addr, _, s => some (s.insertBlock maxOrder addr)
  | levels + 1, addr, order, s => do
    let buddy := getBuddy addr order
    let cur ← findLink s buddy fuel (.head order)
    if s.read cur ≠ buddy then
      some (s.insertBlock order addr)
    else
      mergeLoop fuel levels (if buddy < addr then buddy else addr) (order + 1)
        (s.write cur (nextOf s.mem (s.read cur)))

/-- `buddy_free`. -/
def buddyFree (fuel : ℕ) (s : Buddy) (addr size : ℕ) : Option Buddy := do
  let order := (← getOrder size) % 2 ^ 8
  mergeLoop fuel (maxOrder - order) addr order
    { s with
      buddyUsedPages := (s.buddyUsedPages + 2 ^ 64 - sizeForOrder order / pageSize) % 2 ^ 64 }

/-! ## Page statistics -/

/-- `buddy_get_total_pages`. -/
def buddyGetTotalPages (s : Buddy) : ℕ := s.totalPhysicalPages

/-- `buddy_get_used_pages`. -/
def buddyGetUsedPages (s : Buddy) : ℕ := s.buddyUsedPages

/-- `buddy_get_free_pages`. -/
def buddyGetFreePages (s : Buddy) : ℕ :=
  (s.buddyTotalManagedPages + 2 ^ 64 - s.buddyUsedPages) % 2 ^ 64

end Orionis.Mem
