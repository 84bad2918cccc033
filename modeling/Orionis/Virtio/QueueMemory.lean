import Orionis.Mem.BuddyAlloc
import Orionis.Virtio.Queue

/-!
# The memory of a failed `virtq_alloc`

`virtq_alloc` takes four blocks of a page each: for `struct virtq`, for the table of buffers, for
the descriptors and for the two rings. It gives up where one of them is missing, or where the
device says that the queue is enabled already. Two of its five exits give a block back, but only
the first of them has no more than that one block to give back.
-/

namespace Orionis.Virtio

open Orionis.Foundations Orionis.Mem

/-! ## The allocator at work -/

/-- `buddy_alloc` on a heap. -/
def heapAlloc (h : Heap) (size : ℕ) : Option (ℕ × Heap) :=
  (buddyAlloc h.buddy size).map fun (p, b) => (p, ⟨b, if p = 0 then h.out else ⟨p, size⟩ :: h.out⟩)

/-- `buddy_free` on a heap. -/
def heapFree (fuel : ℕ) (h : Heap) (addr size : ℕ) : Option Heap :=
  (buddyFree fuel h.buddy addr size).map fun b => ⟨b, h.out.erase ⟨addr, size⟩⟩

/-- Memory is written. -/
def onMemory (f : Memory → Memory) (h : Heap) : Heap :=
  { h with buddy := { h.buddy with mem := f h.buddy.mem } }

/-- `memset` with zero. -/
def clear (a len : ℕ) (m : Memory) : Memory := storeBytes m a (List.replicate len 0)

/-! ## The source -/

/-- What `virtq_alloc` meets: its queue, the replies of the device, and the statics it copies. -/
structure QueueSetUp where
  qIdx : UInt16
  queueEnable : UInt16
  queueSize : UInt16
  queueNotifyOff : UInt16
  notifyCfgPtr : UInt64
  virtioNotifyMultiplier : UInt32

/-- Where `virtq_alloc` is when it has asked for all it is going to ask for: it returns null, it
gives `q` back and returns null, or it goes on with `q`. -/
inductive Attempt
  | null (h : Heap)
  | giveBack (q : ℕ) (h : Heap)
  | ready (q : ℕ) (h : Heap)

/-- The `next` fields of the descriptors, for the first `count` of them. -/
def chainNext (desc : ℕ) : (count : ℕ) → Memory → Memory
  | 0, m => m
  | i + 1, m => storeLE (chainNext desc i m) 2 (desc + 16 * i + 14) (i + 1)

/-- The stores of `virtq_alloc` behind its last allocation. -/
def setUpQueue (c : QueueSetUp) (q desc ringPage : ℕ) (m : Memory) : Memory :=
  let m := storeLE m 8 (q + 8) ringPage
  let m := storeLE m 8 (q + 16) (ringPage + 1024)
  let m := clear desc pageSize m
  let m := clear ringPage pageSize m
  let m := storeLE m 2 (q + 24) numDesc
  let m := storeLE m 2 (q + 26) c.qIdx.toNat
  chainNext desc (numDesc - 1) m

/-- `virtq_alloc` up to its last exit, for the 32 descriptors both callers ask for. -/
def virtqAttempt (c : QueueSetUp) (h : Heap) : Option Attempt := do
  let (q, h) ← heapAlloc h 64
  if q = 0 then return .null h
  let h := onMemory (clear q 64) h
  let (buffers, h) ← heapAlloc h 8
  let h := onMemory (fun m => storeLE m 8 (q + 56) buffers) h
  if buffers = 0 then return .giveBack q h
  let h := onMemory (clear buffers (numDesc * 8)) h
  let (desc, h) ← heapAlloc h 16
  let h := onMemory (fun m => storeLE m 8 q desc) h
  if desc = 0 then return .null h
  let (ringPage, h) ← heapAlloc h 8
  if ringPage = 0 then return .null h
  let h := onMemory (setUpQueue c q desc ringPage) h
  if c.queueEnable ≠ 0 then return .giveBack q h
  else return .ready q h

/-- What `virtq_alloc` writes behind its last exit. -/
def finishQueue (c : QueueSetUp) (q : ℕ) (m : Memory) : Memory :=
  let m := if c.queueSize.toNat < numDesc ∧ 0 < c.queueSize.toNat then
    storeLE m 2 (q + 24) c.queueSize.toNat else m
  let m := storeLE m 4 (q + 40) c.queueNotifyOff.toNat
  let m := storeLE m 8 (q + 32) c.notifyCfgPtr.toNat
  storeLE m 4 (q + 44) c.virtioNotifyMultiplier.toNat

/-- `virtq_alloc`: the address of the queue, or null. -/
def virtqAllocHeap (fuel : ℕ) (c : QueueSetUp) (h : Heap) : Option (ℕ × Heap) := do
  match ← virtqAttempt c h with
  | .null h => return (0, h)
  | .giveBack q h => return (0, ← heapFree fuel h q 64)
  | .ready q h => return (q, onMemory (finishQueue c q) h)

/-! ## What a failure must leave alone -/

/-- The blocks on the free lists have this many bytes. -/
def Available (h : Heap) (bytes : ℕ) : Prop :=
  ∃ lists, h.buddy.Spells lists ∧ bytes = ((listedBlocks lists).map fun b => 2 ^ b.order).sum

/-- The same blocks are held, as many pages are used and as many bytes are available. -/
structure Unchanged (h h' : Heap) : Prop where
  out : h'.out.Perm h.out
  used : buddyGetUsedPages h'.buddy = buddyGetUsedPages h.buddy
  available : ∃ bytes, Available h bytes ∧ Available h' bytes

/-- The call returns, and where it returns null the allocator is as it was. -/
def FailsAtomically (c : QueueSetUp) (h : Heap) : Prop :=
  ∃ need q h', (∀ fuel, virtqAllocHeap fuel c h = if need ≤ fuel then some (q, h') else none) ∧
    (q = 0 → Unchanged h h')

/-! ## Writes -/

/-- Only bytes of these pages are written. -/
def WritesPages (pages : List ℕ) (f : Memory → Memory) : Prop :=
  ∀ m x, (∀ a ∈ pages, ¬ (a ≤ x ∧ x < a + pageSize)) → f m x = m x

/-- Writes one after the other. -/
theorem WritesPages.comp {pages : List ℕ} {f g : Memory → Memory} (hg : WritesPages pages g)
    (hf : WritesPages pages f) : WritesPages pages fun m => g (f m) :=
  fun m x hx => (hg _ x hx).trans (hf m x hx)

/-- A number stored inside a page. -/
theorem writesPages_storeLE {pages : List ℕ} {a : ℕ} (ha : a ∈ pages) {n offset : ℕ}
    (hfits : offset + n ≤ pageSize) (v : ℕ) :
    WritesPages pages fun m => storeLE m n (a + offset) v := by
  intro m x hx
  have hout := hx a ha
  exact storeLE_of_outside _ _ _ _ _ (by omega)

/-- Memory cleared inside a page. -/
theorem writesPages_clear {pages : List ℕ} {a : ℕ} (ha : a ∈ pages) {len : ℕ}
    (hfits : len ≤ pageSize) : WritesPages pages (clear a len) := by
  intro m x hx
  have hout := hx a ha
  exact storeBytes_of_outside _ _ _ _ (by rw [List.length_replicate]; omega)

/-- Descriptors chained inside a page. -/
theorem writesPages_chainNext {pages : List ℕ} {a : ℕ} (ha : a ∈ pages) {count : ℕ}
    (hfits : 16 * count ≤ pageSize) : WritesPages pages (chainNext a count) := by
  induction count with
  | zero => exact fun _ _ _ => rfl
  | succ i ih =>
    have hstore := writesPages_storeLE ha (by omega : 16 * i + 14 + 2 ≤ pageSize) (i + 1)
    exact hstore.comp (ih (by omega))

/-! ## Blocks that are taken -/

section Taken

variable {map : StivaleMap} {h h' : Heap} {lists : ℕ → List ℕ} {taken : List Request}

/-- Free pages and held blocks make up usable RAM. -/
theorem freePages_add_held (hi : h.Inv map lists) :
    buddyGetFreePages h.buddy * pageSize + (extent h.outBlocks).2 =
      regionPages map.regions * pageSize := by
  have htotal := hi.accounted.total
  rw [buddyGetTotalPages, hi.total, buddyGetUsedPages] at htotal
  rw [htotal, Nat.add_mul, hi.used, Nat.add_comm]

/-- Without clients all pages are free. -/
theorem freePages_start (map : StivaleMap) (s : Buddy) :
    buddyGetFreePages (Heap.start map s).buddy = regionPages map.regions := by
  obtain ⟨lists, hi, -⟩ := Heap.inv_start map s
  have hsum := freePages_add_held hi
  have hnone : (extent (Heap.start map s).outBlocks).2 = 0 := rfl
  rw [hnone, Nat.add_zero] at hsum
  exact Nat.eq_of_mul_eq_mul_right (by decide) hsum

/-- The free pages of the allocator are available. -/
theorem available_of_inv (hi : h.Inv map lists) :
    Available h (buddyGetFreePages h.buddy * pageSize) :=
  ⟨lists, hi.accounted.spells, hi.accounted.free⟩

/-- From `h` to `h'` the call has taken these blocks, a page each. -/
structure Took (map : StivaleMap) (h h' : Heap) (taken : List Request) : Prop where
  out : h'.out = taken ++ h.out
  page : ∀ r ∈ taken, getOrder r.size = some minOrder
  free : buddyGetFreePages h.buddy = buddyGetFreePages h'.buddy + taken.length
  inv : ∃ lists, h'.Inv map lists

/-- Nothing was taken. -/
theorem Took.refl (hi : h.Inv map lists) : Took map h h [] :=
  ⟨rfl, nofun, (Nat.add_zero _).symm, lists, hi⟩

/-- Writing into the taken blocks changes nothing for the allocator. -/
theorem Took.onMemory (ht : Took map h h' taken) {f : Memory → Memory}
    (hf : WritesPages (taken.map (·.addr)) f) : Took map h (onMemory f h') taken := by
  obtain ⟨lists, hi⟩ := ht.inv
  refine ⟨ht.out, ht.page, ht.free, lists, ?_, hi.requests, hi.used, hi.managed, hi.total⟩
  refine hi.tiled.frame rfl fun b hb x hx => hf _ x fun a ha hin => ?_
  obtain ⟨r, hr, rfl⟩ := List.mem_map.1 ha
  -- the byte would lie in a held block and in a listed one
  have hblock : r.block = ⟨r.addr, minOrder⟩ := Request.block_of_order (ht.page r hr)
  have hheld : r.block ∈ h'.outBlocks := by
    rw [Heap.outBlocks, ht.out]
    exact List.mem_map_of_mem (List.mem_append_left _ hr)
  have hxr : x ∈ r.block.bytes := by
    rw [hblock]
    exact Block.mem_bytes.2 hin
  have htiled := hi.tiled
  rw [extent_perm (List.perm_cons_erase hheld), extent_cons] at htiled
  exact htiled.not_mem_held hb hxr hx

/-- An allocation of the heap is one of the allocator. -/
theorem buddyAlloc_of_heapAlloc {size p : ℕ} (hcall : heapAlloc h size = some (p, h')) :
    ∃ b, buddyAlloc h.buddy size = some (p, b) := by
  obtain ⟨⟨p', b⟩, hb, heq⟩ := Option.map_eq_some_iff.1 hcall
  obtain ⟨rfl, -⟩ := Prod.mk.inj heq
  exact ⟨b, hb⟩

/-- The next allocation of a page takes a block where there is a free page, and changes nothing
where there is none. -/
theorem Took.alloc (ht : Took map h h' taken) {size : ℕ} (hsize : getOrder size = some minOrder) :
    ∃ p h'', heapAlloc h' size = some (p, h'') ∧
      (p = 0 ∧ h'' = h' ∧ buddyGetFreePages h'.buddy = 0 ∨
        p ≠ 0 ∧ Took map h h'' (⟨p, size⟩ :: taken)) := by
  obtain ⟨lists, hi⟩ := ht.inv
  obtain ⟨⟨p, b⟩, hcall⟩ : ∃ r, buddyAlloc h'.buddy size = some r :=
    ⟨_, by rw [buddyAlloc, hsize]; rfl⟩
  obtain ⟨lists', hi', -⟩ := hi.alloc hcall
  refine ⟨p, _, by rw [heapAlloc, hcall]; rfl, ?_⟩
  by_cases hnull : p = 0
  · subst hnull
    obtain rfl := eq_of_buddyAlloc_null hcall
    refine .inl ⟨rfl, rfl, ?_⟩
    have hexact := hi.tiled.allocExact hsize
    have hempty : listedBlocks lists = [] := by
      rw [List.eq_nil_iff_forall_not_mem]
      intro b hb
      obtain ⟨hlo, hhi, hmem⟩ := mem_listedBlocks.1 hb
      rw [hexact.null_iff.1 ⟨_, hcall⟩ _ hlo hhi] at hmem
      exact List.not_mem_nil hmem
    have hfree := hi.accounted.free
    rw [hempty] at hfree
    exact (Nat.mul_eq_zero.1 hfree).resolve_right (by decide)
  · rw [if_neg hnull] at hi' ⊢
    have hbefore := freePages_add_held hi
    have hafter := freePages_add_held hi'
    have hout : extent (Heap.outBlocks ⟨b, ⟨p, size⟩ :: h'.out⟩) =
        (⟨p, minOrder⟩ : Block).extent + extent h'.outBlocks := by
      rw [Heap.outBlocks, List.map_cons, extent_cons, Request.block_of_order hsize]
      rfl
    have hsum : (extent (Heap.outBlocks ⟨b, ⟨p, size⟩ :: h'.out⟩)).2 =
        pageSize + (extent h'.outBlocks).2 := by
      rw [hout, Prod.snd_add]
      rfl
    have hone := ht.free
    rw [hsum] at hafter
    generalize regionPages map.regions * pageSize = total at hbefore hafter
    generalize (extent h'.outBlocks).2 = held at hbefore hafter
    have hpage : pageSize = 4096 := rfl
    have hcount : buddyGetFreePages h'.buddy = buddyGetFreePages b + 1 := by
      simp only [hpage] at hbefore hafter
      omega
    refine .inr ⟨hnull, by rw [ht.out]; rfl, List.forall_mem_cons.2 ⟨hsize, ht.page⟩, ?_, _, hi'⟩
    rw [hone, hcount, List.length_cons, Nat.add_assoc, Nat.add_comm 1]

/-- The stores behind the last allocation. -/
theorem writesPages_setUp (c : QueueSetUp) {pages : List ℕ} {q desc ringPage : ℕ} (hq : q ∈ pages)
    (hdesc : desc ∈ pages) (hring : ringPage ∈ pages) :
    WritesPages pages (setUpQueue c q desc ringPage) := by
  have hfits : ∀ {n : ℕ}, n ≤ 64 → n ≤ pageSize := fun hn => hn.trans (by decide)
  have hchain : WritesPages pages (chainNext desc (numDesc - 1)) :=
    writesPages_chainNext hdesc (by decide)
  exact hchain.comp ((writesPages_storeLE hq (hfits (by decide)) _).comp
    ((writesPages_storeLE hq (hfits (by decide)) _).comp ((writesPages_clear hring le_rfl).comp
      ((writesPages_clear hdesc le_rfl).comp ((writesPages_storeLE hq (hfits (by decide)) _).comp
        (writesPages_storeLE hq (hfits (by decide)) _))))))

/-! ## How far a call gets -/

/-- Where a call gets to, by the free pages it finds. -/
inductive Attempted (map : StivaleMap) (c : QueueSetUp) (h : Heap) : Attempt → Prop
  | none (hfree : buddyGetFreePages h.buddy = 0) : Attempted map c h (.null h)
  | one {q : ℕ} {h' : Heap} (hfree : buddyGetFreePages h.buddy = 1)
      (hpage : ∃ b, buddyAlloc h.buddy 64 = Option.some (q, b)) (ht : Took map h h' [⟨q, 64⟩]) :
      Attempted map c h (.giveBack q h')
  | some {h' : Heap} {taken : List Request}
      (hfree : buddyGetFreePages h.buddy = 2 ∨ buddyGetFreePages h.buddy = 3)
      (ht : Took map h h' taken) (hne : taken ≠ []) : Attempted map c h (.null h')
  | enabled {q : ℕ} {h' : Heap} {rest : List Request} (hfree : 4 ≤ buddyGetFreePages h.buddy)
      (henable : c.queueEnable ≠ 0) (ht : Took map h h' (rest ++ [⟨q, 64⟩])) (hne : rest ≠ []) :
      Attempted map c h (.giveBack q h')
  | ready {q : ℕ} {h' : Heap} (hfree : 4 ≤ buddyGetFreePages h.buddy)
      (henable : c.queueEnable = 0) (hq : q ≠ 0) : Attempted map c h (.ready q h')

/-- Every attempt comes to one of its ends. -/
theorem virtqAttempt_spec (hi : h.Inv map lists) (c : QueueSetUp) :
    ∃ attempt, virtqAttempt c h = some attempt ∧ Attempted map c h attempt := by
  -- the block for `struct virtq`
  obtain ⟨q, h₁, hcall₁, hcase₁⟩ :=
    (Took.refl hi).alloc (by decide : getOrder 64 = Option.some minOrder)
  rw [virtqAttempt, hcall₁]
  simp only [Option.bind_eq_bind, Option.bind_some]
  obtain ⟨rfl, rfl, hnone⟩ | ⟨hq, ht₁⟩ := hcase₁
  · exact ⟨.null h₁, rfl, .none hnone⟩
  have hclear := ht₁.onMemory
    (writesPages_clear List.mem_cons_self (by decide : 64 ≤ pageSize))
  -- the block for `buffers`
  obtain ⟨buffers, h₂, hcall₂, hcase₂⟩ :=
    hclear.alloc (by decide : getOrder 8 = Option.some minOrder)
  have hbuffersField : ∀ {pages : List ℕ}, q ∈ pages →
      WritesPages pages fun m => storeLE m 8 (q + 56) buffers := fun hmem =>
    writesPages_storeLE hmem (by decide : 56 + 8 ≤ pageSize) buffers
  simp only [if_neg hq, hcall₂, Option.bind_some]
  obtain ⟨rfl, rfl, hnone⟩ | ⟨hbuffers, ht₂⟩ := hcase₂
  · have hone := hclear.free
    rw [hnone] at hone
    exact ⟨_, rfl, .one hone (buddyAlloc_of_heapAlloc hcall₁)
      (hclear.onMemory (hbuffersField List.mem_cons_self))⟩
  have hclear := (ht₂.onMemory (hbuffersField (List.mem_cons_of_mem _ List.mem_cons_self))).onMemory
    (writesPages_clear List.mem_cons_self (by decide : numDesc * 8 ≤ pageSize))
  -- the block for `desc`
  obtain ⟨desc, h₃, hcall₃, hcase₃⟩ :=
    hclear.alloc (by decide : getOrder 16 = Option.some minOrder)
  have hdescField : ∀ {pages : List ℕ}, q ∈ pages →
      WritesPages pages fun m => storeLE m 8 q desc := fun hmem =>
    writesPages_storeLE hmem (by decide : 0 + 8 ≤ pageSize) desc
  simp only [if_neg hbuffers, hcall₃, Option.bind_some]
  obtain ⟨rfl, rfl, hnone⟩ | ⟨hdesc, ht₃⟩ := hcase₃
  · have htwo := hclear.free
    rw [hnone] at htwo
    exact ⟨_, rfl, .some (.inl htwo) (hclear.onMemory
      (hdescField (List.mem_cons_of_mem _ List.mem_cons_self))) (List.cons_ne_nil _ _)⟩
  have hstored := ht₃.onMemory
    (hdescField (List.mem_cons_of_mem _ (List.mem_cons_of_mem _ List.mem_cons_self)))
  -- the block for both rings
  obtain ⟨ringPage, h₄, hcall₄, hcase₄⟩ :=
    hstored.alloc (by decide : getOrder 8 = Option.some minOrder)
  simp only [if_neg hdesc, hcall₄, Option.bind_some]
  obtain ⟨rfl, rfl, hnone⟩ | ⟨hring, ht₄⟩ := hcase₄
  · have hthree := hstored.free
    rw [hnone] at hthree
    exact ⟨_, rfl, .some (.inr hthree) hstored (List.cons_ne_nil _ _)⟩
  have hfour := ht₄.free
  simp only [List.length_cons, List.length_nil] at hfour
  simp only [if_neg hring]
  by_cases henable : c.queueEnable ≠ 0
  · rw [if_pos henable]
    have hset : Took map h (onMemory (setUpQueue c q desc ringPage) h₄)
        ([⟨ringPage, 8⟩, ⟨desc, 16⟩, ⟨buffers, 8⟩] ++ [⟨q, 64⟩]) :=
      ht₄.onMemory (writesPages_setUp c (by simp) (by simp) (by simp))
    exact ⟨_, rfl, .enabled (by omega) henable hset (List.cons_ne_nil _ _)⟩
  · rw [if_neg henable]
    exact ⟨_, rfl, .ready (by omega) (not_not.1 henable) hq⟩

/-! ## Main result -/

/-- The only free page is not the one whose buddy is at null. -/
def LastPageAvoidsNull (h : Heap) : Prop :=
  buddyGetFreePages h.buddy = 1 → ∀ b, buddyAlloc h.buddy 64 ≠ some (2 ^ minOrder, b)

/-- Two heaps with the same blocks held have the same pages used and the same bytes available. -/
theorem unchanged_of_perm {lists' : ℕ → List ℕ} (hi : h.Inv map lists) (hi' : h'.Inv map lists')
    (hout : h'.out.Perm h.out) : Unchanged h h' := by
  have hextent : extent h'.outBlocks = extent h.outBlocks := extent_perm (hout.map _)
  have hused : h'.buddy.buddyUsedPages * pageSize = h.buddy.buddyUsedPages * pageSize := by
    rw [hi'.used, hi.used, hextent]
  have hfree := freePages_add_held hi
  have hfree' := freePages_add_held hi'
  rw [hextent, ← hfree] at hfree'
  refine ⟨hout, Nat.eq_of_mul_eq_mul_right (by decide) hused, _, available_of_inv hi, ?_⟩
  rw [← Nat.add_right_cancel hfree']
  exact available_of_inv hi'

/-- Where no page is free, a page merges with nothing: only its own buddy can be null. -/
theorem mergeAvoidsNull_of_full (hi : h.Inv map lists) (hfull : buddyGetFreePages h.buddy = 0)
    {q : ℕ} (hq : q ≠ 2 ^ minOrder) : MergeAvoidsNull h (.free q 64) := by
  have hempty : listedBlocks lists = [] := by
    have hsum := hi.accounted.free
    rw [hfull, Nat.zero_mul, eq_comm, List.sum_eq_zero_iff] at hsum
    rw [List.eq_nil_iff_forall_not_mem]
    intro b hb
    exact absurd (hsum _ (List.mem_map_of_mem hb)) (by simp)
  intro order horder hclimb
  obtain rfl := Option.some.inj (horder.symm.trans (by decide : getOrder 64 = some minOrder))
  rcases hclimb with hnull | ⟨hlisted, -⟩
  · rw [getBuddy, sizeForOrder_eq (by decide), Nat.xor_eq_zero_iff] at hnull
    exact hq hnull
  · have hmem := (hi.tiled.freeBlock_iff le_rfl (by decide)).1 hlisted
    have hblock : (⟨getBuddy q minOrder, minOrder⟩ : Block) ∈ listedBlocks lists :=
      mem_listedBlocks.2 ⟨le_rfl, (by decide : minOrder ≤ maxOrder), hmem⟩
    rw [hempty] at hblock
    exact List.not_mem_nil hblock

/-- The call that took the last page gives it back. -/
theorem heapFree_last (hone : buddyGetFreePages h.buddy = 1) {q : ℕ}
    (hq : q ≠ 2 ^ minOrder) (ht : Took map h h' [⟨q, 64⟩]) :
    ∃ need h'', (∀ fuel, heapFree fuel h' q 64 = if need ≤ fuel then some h'' else none) ∧
      h''.out = h.out ∧ ∃ lists, h''.Inv map lists := by
  obtain ⟨lists, hi⟩ := ht.inv
  have hfull : buddyGetFreePages h'.buddy = 0 := by
    have hfree := ht.free
    rw [hone, List.length_singleton] at hfree
    exact (Nat.succ.inj hfree).symm
  have hheld : ⟨q, 64⟩ ∈ h'.out := by
    rw [ht.out]
    exact List.mem_cons_self
  obtain ⟨b, lists', need, hrun, hi', -⟩ := hi.free hheld (mergeAvoidsNull_of_full hi hfull hq)
  refine ⟨need, _, fun fuel => ?_, ?_, lists', hi'⟩
  · rw [heapFree, hrun]
    split <;> rfl
  · rw [ht.out, List.singleton_append, List.erase_cons_head]

end Taken

section Exits

variable {c : QueueSetUp} {h h' : Heap} {q : ℕ}

/-- Without memory for the queue the call returns null. -/
theorem virtqAllocHeap_null (hattempt : virtqAttempt c h = some (.null h')) (fuel : ℕ) :
    virtqAllocHeap fuel c h = some (0, h') := by
  rw [virtqAllocHeap, hattempt]
  rfl

/-- With all its memory the queue is finished. -/
theorem virtqAllocHeap_ready (hattempt : virtqAttempt c h = some (.ready q h')) (fuel : ℕ) :
    virtqAllocHeap fuel c h = some (q, onMemory (finishQueue c q) h') := by
  rw [virtqAllocHeap, hattempt]
  rfl

/-- With a part of it the queue is given back. -/
theorem virtqAllocHeap_giveBack (hattempt : virtqAttempt c h = some (.giveBack q h'))
    (fuel : ℕ) : virtqAllocHeap fuel c h = (heapFree fuel h' q 64).map fun h'' => (0, h'') := by
  rw [virtqAllocHeap, hattempt]
  change (heapFree fuel h' q 64).bind (fun h => some (0, h)) = _
  cases heapFree fuel h' q 64 <;> rfl

/-- A call that returns null and holds more than before has not failed atomically. -/
theorem not_failsAtomically_of_more
    (hmore : ∀ fuel p h', virtqAllocHeap fuel c h = some (p, h') →
      p = 0 ∧ h.out.length < h'.out.length) : ¬ FailsAtomically c h := by
  rintro ⟨need, p, h', hcall, hunchanged⟩
  have hresult := hcall need
  rw [if_pos le_rfl] at hresult
  obtain ⟨hnull, hlt⟩ := hmore need p h' hresult
  have hlength := (hunchanged hnull).out.length_eq
  omega

end Exits

section Leaks

variable {map : StivaleMap} {c : QueueSetUp} {h h' : Heap} {q : ℕ}

/-- The exits behind the second and the third page give nothing back. -/
theorem not_failsAtomically_of_null {taken : List Request}
    (hattempt : virtqAttempt c h = some (.null h')) (ht : Took map h h' taken) (hne : taken ≠ []) :
    ¬ FailsAtomically c h := by
  apply not_failsAtomically_of_more
  intro fuel p h'' hcall
  rw [virtqAllocHeap_null hattempt] at hcall
  obtain ⟨rfl, rfl⟩ := Prod.mk.inj (Option.some.inj hcall)
  have hpos := List.length_pos_iff.2 hne
  refine ⟨rfl, ?_⟩
  rw [ht.out, List.length_append]
  omega

/-- The exit of a queue that is enabled already gives one page back of four. -/
theorem not_failsAtomically_of_giveBack {rest : List Request}
    (hattempt : virtqAttempt c h = some (.giveBack q h'))
    (ht : Took map h h' (rest ++ [⟨q, 64⟩])) (hne : rest ≠ []) : ¬ FailsAtomically c h := by
  apply not_failsAtomically_of_more
  intro fuel p h'' hcall
  rw [virtqAllocHeap_giveBack hattempt] at hcall
  obtain ⟨h₁, hfree, heq⟩ := Option.map_eq_some_iff.1 hcall
  obtain ⟨rfl, rfl⟩ := Prod.mk.inj heq
  obtain ⟨b, -, rfl⟩ := Option.map_eq_some_iff.1 hfree
  have hmem : ⟨q, 64⟩ ∈ h'.out := by
    rw [ht.out]
    exact List.mem_append_left _ (List.mem_append_right _ List.mem_cons_self)
  have hpos := List.length_pos_iff.2 hne
  refine ⟨rfl, ?_⟩
  rw [List.length_erase_of_mem hmem, ht.out, List.length_append, List.length_append,
    List.length_singleton]
  omega

end Leaks

/-- After every run of the allocator that does not merge into null, a failed call leaves the
allocator as it was exactly when there was at most one free page, or when the call cannot fail:
there were four, and the queue is not enabled yet. -/
theorem failsAtomically_iff_of_run {map : StivaleMap} {s : Buddy} {calls : List Call} {h : Heap}
    (hrun : Run (guarded MergeAvoidsNull HeapStep) (Heap.start map s) calls h)
    (hlast : LastPageAvoidsNull h) (c : QueueSetUp) : FailsAtomically c h ↔
      buddyGetFreePages h.buddy < 2 ∨ 4 ≤ buddyGetFreePages h.buddy ∧ c.queueEnable = 0 := by
  obtain ⟨lists, hi, -⟩ := Heap.inv_of_run hrun
  obtain ⟨attempt, hattempt, hspec⟩ := virtqAttempt_spec hi c
  cases hspec with
  | none hfree =>
    refine iff_of_true ⟨0, 0, h, fun fuel => ?_, fun _ => ?_⟩ (.inl (by omega))
    · rw [virtqAllocHeap_null hattempt, if_pos (Nat.zero_le fuel)]
    · exact unchanged_of_perm hi hi (List.Perm.refl _)
  | @one q h' hfree hpage ht =>
    have hq : q ≠ 2 ^ minOrder := by
      rintro rfl
      obtain ⟨b, hb⟩ := hpage
      exact hlast hfree b hb
    obtain ⟨need, h'', hcall, hout, lists'', hi''⟩ := heapFree_last hfree hq ht
    refine iff_of_true ⟨need, 0, h'', fun fuel => ?_, fun _ => ?_⟩ (.inl (by omega))
    · rw [virtqAllocHeap_giveBack hattempt, hcall]
      split <;> rfl
    · exact unchanged_of_perm hi hi'' (List.Perm.of_eq hout)
  | some hfree ht hne =>
    exact iff_of_false (not_failsAtomically_of_null hattempt ht hne) (by omega)
  | enabled hfree henable ht hne =>
    refine iff_of_false (not_failsAtomically_of_giveBack hattempt ht hne) fun hcond => ?_
    exact henable (hcond.resolve_left (by omega)).2
  | @ready q h' hfree henable hq =>
    refine iff_of_true ⟨0, q, onMemory (finishQueue c q) h', fun fuel => ?_, fun hnull =>
      absurd hnull hq⟩ (.inr ⟨hfree, henable⟩)
    rw [virtqAllocHeap_ready hattempt, if_pos (Nat.zero_le fuel)]

/-- The first queue of a device that has not enabled it. -/
def quietQueue : QueueSetUp := ⟨0, 0, 256, 0, 0xfe003000, 4⟩

/-- One page at 2 MiB. -/
def onePageMap : StivaleMap := singleRegion 0x200000 1 (by decide) (by decide) (by decide)

/-- With one page the call fails at its second allocation and gives the page back. -/
theorem failsAtomically_iff_of_run_onePage :
    FailsAtomically quietQueue (Heap.start onePageMap Buddy.blank) := by
  have hone : buddyGetFreePages (Heap.start onePageMap Buddy.blank).buddy = 1 :=
    freePages_start onePageMap Buddy.blank
  have hpage : (buddyAlloc (Heap.start onePageMap Buddy.blank).buddy 64).map Prod.fst =
      some 0x200000 := by decide
  refine (failsAtomically_iff_of_run (Run.nil _) ?_ quietQueue).2 (.inl ?_)
  · intro _ b hb
    rw [hb] at hpage
    have haddr : 2 ^ minOrder = 0x200000 := Option.some.inj hpage
    exact absurd haddr (by decide)
  · rw [hone]
    decide

/-- With two pages the call fails at the table of descriptors, and both stay taken. -/
theorem not_failsAtomically_twoPages :
    ¬ FailsAtomically quietQueue (Heap.start highMap Buddy.blank) := by
  obtain ⟨lists, hi, -⟩ := Heap.inv_start highMap Buddy.blank
  have htwo : buddyGetFreePages (Heap.start highMap Buddy.blank).buddy = 2 :=
    freePages_start highMap Buddy.blank
  obtain ⟨attempt, hattempt, hspec⟩ := virtqAttempt_spec hi quietQueue
  cases hspec with
  | none hfree => omega
  | one hfree => omega
  | some hfree ht hne => exact not_failsAtomically_of_null hattempt ht hne
  | enabled hfree => omega
  | ready hfree => omega

end Orionis.Virtio
