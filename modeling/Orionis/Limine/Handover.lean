import Orionis.Limine.Ranges
import Orionis.Mem.BuddySafety

/-!
# From the firmware to the heap of the kernel

A boot is `init_memmap`, then ranges for the kernel, its modules and the bootloader in any order, and
at last the table for the kernel. The table keeps the promises of the stivale protocol that both
allocators of the kernel rely on, and its usable entries meet none of the ranges taken. They begin at
1 MiB, where no buddy address is null: on such a map `buddy_free` needs no condition at all.
-/

namespace Orionis.Limine

open Orionis.Foundations Orionis.Mem

/-! ## Boots -/

/-- The bootloader with the ranges it has taken. -/
structure Loader where
  boot : Boot
  taken : List MmapEntry

/-- What the bootloader does with the table after `init_memmap`. -/
inductive LoaderCall
  | range (base length type : ℕ)
  | ext (count alignment type : ℕ)
  | get
  deriving DecidableEq, Repr

/-- A call. Of an allocation the bytes asked for are noted. -/
def Loader.call (s : Loader) : LoaderCall → Except Stop Loader
  | .range base length type => do
    let memmap ← memmapAllocRange s.boot.memmap base length type
    .ok ⟨{ s.boot with memmap }, ⟨base, length, type⟩ :: s.taken⟩
  | .ext count alignment type => do
    let (ret, boot) ← extMemAllocAlignedType s.boot count alignment type
    .ok ⟨boot, ⟨ret, count, type⟩ :: s.taken⟩
  | .get => do
    let memmap ← sanitiseEntries s.boot.memmap
    .ok { s with boot := { s.boot with memmap } }

/-- No range is taken as usable memory, and none ends above `2 ^ 64`. -/
def LoaderCall.Proper : LoaderCall → Prop
  | .range base length type => base + length < 2 ^ 64 ∧ type ≠ memmapUsable
  | .ext _ _ type => type ≠ memmapUsable
  | .get => True

/-- A call that returns. -/
def LoaderStep (s : Loader) (c : LoaderCall) (t : Loader) : Prop := c.Proper ∧ s.call c = .ok t

/-- What holds of the table throughout a boot. -/
structure Loader.Inv (firmware : List MmapEntry) (s : Loader) : Prop where
  bounded : ∀ e ∈ s.boot.memmap, Bounded e
  below : ∀ limit < 2 ^ 63, Below limit firmware → Below limit s.boot.memmap
  settled : s.boot.memmap.Pairwise Settled
  low : ∀ u ∈ s.boot.memmap, u.Usable → memmapBase ≤ u.base
  origin : Shrinks firmware s.boot.memmap
  reserved : ∀ u ∈ s.boot.memmap, u.Usable → ∀ r ∈ firmware, ¬ r.Usable → Apart u r
  clear : ∀ u ∈ s.boot.memmap, u.Usable → ∀ t ∈ s.taken, Clear u t
  ranges : ∀ t ∈ s.taken, memmapBase ≤ t.base ∧ ∃ e ∈ firmware, e.Usable ∧ Within t e
  disjoint : s.taken.Pairwise Clear

/-- Usable memory shrinks from table to table. -/
theorem Shrinks.trans {a b c : List MmapEntry} (h : Shrinks a b) (h' : Shrinks b c) :
    Shrinks a c := by
  intro u hu huse
  obtain ⟨v, hv, hv', huv⟩ := h' u hu huse
  obtain ⟨w, hw, hw', hvw⟩ := h v hv hv'
  exact ⟨w, hw, hw', huv.trans hvw⟩

variable {firmware memmap table : List MmapEntry} {s t : Loader} {mem : Memory}

/-- A table whose usable entries lie inside those before keeps what holds of them. -/
theorem Loader.Inv.shrink (hi : s.Inv firmware) (hbound : ∀ e ∈ memmap, Bounded e)
    (hbelow : ∀ limit < 2 ^ 63, Below limit s.boot.memmap → Below limit memmap)
    (hsettled : memmap.Pairwise Settled) (hshrink : Shrinks s.boot.memmap memmap) :
    Loader.Inv firmware ⟨⟨memmap, mem⟩, s.taken⟩ where
  bounded := hbound
  below limit hlt hfirmware := hbelow limit hlt (hi.below limit hlt hfirmware)
  settled := hsettled
  low u hu huse := by
    obtain ⟨v, hv, hv', huv⟩ := hshrink u hu huse
    exact (hi.low v hv hv').trans huv.1
  origin := hi.origin.trans hshrink
  reserved u hu huse r hr hr' := by
    obtain ⟨v, hv, hv', huv⟩ := hshrink u hu huse
    exact (hi.reserved v hv hv' r hr hr').within huv
  clear u hu huse t ht := by
    obtain ⟨v, hv, hv', huv⟩ := hshrink u hu huse
    exact (hi.clear v hv hv' t ht).within huv
  ranges := hi.ranges
  disjoint := hi.disjoint

/-- Taking out a range, of which a part is noted. -/
theorem Loader.Inv.take (hi : s.Inv firmware) {range part : MmapEntry}
    (h : RangeTaken s.boot.memmap memmap range) (hpart : Within part range) :
    Loader.Inv firmware ⟨⟨memmap, mem⟩, part :: s.taken⟩ := by
  obtain ⟨e, he, huse, hin⟩ := h.inside
  have hpe := hpart.trans hin
  have hshrunk := @Loader.Inv.shrink firmware memmap s mem hi h.bounded
    (fun _ _ => h.below) h.settled h.shrinks
  refine { hshrunk with clear := ?_, ranges := ?_, disjoint := ?_ }
  · intro u hu huse'
    exact List.forall_mem_cons.2
      ⟨((h.clear u hu huse').symm.within hpart).symm, hshrunk.clear u hu huse'⟩
  · refine List.forall_mem_cons.2 ⟨⟨(hi.low e he huse).trans hpe.1, ?_⟩, hi.ranges⟩
    obtain ⟨f, hf, hf', hef⟩ := hi.origin e he huse
    exact ⟨f, hf, hf', hpe.trans hef⟩
  · refine List.pairwise_cons.2 ⟨fun t ht => ?_, hi.disjoint⟩
    exact (hi.clear e he huse t ht).within hpe

/-- Sanitising keeps the invariant and gives a sanitised table. -/
theorem Loader.Inv.sanitise (hi : s.Inv firmware)
    (h : sanitiseEntries s.boot.memmap = .ok memmap) :
    Loader.Inv firmware ⟨⟨memmap, mem⟩, s.taken⟩ ∧ Sanitised memmap := by
  obtain ⟨hsane, hshrink, -⟩ := sanitiseEntries_spec hi.bounded h
  exact ⟨hi.shrink hsane.bounded (fun _ hlt hbelow => sanitiseEntries_below hlt hbelow h) hsane.settled
    hshrink, hsane⟩

/-- The table `init_memmap` leaves. -/
theorem Loader.inv_start (hfirmware : ∀ e ∈ firmware, Bounded e)
    (h : initMemmap firmware = .ok memmap) : Loader.Inv firmware ⟨⟨memmap, mem⟩, []⟩ := by
  rw [initMemmap] at h
  split at h
  · cases h
  obtain ⟨hsane, hshrink, hapart⟩ := sanitiseEntries_spec hfirmware h
  exact ⟨hsane.bounded, fun _ hlt hbelow => sanitiseEntries_below hlt hbelow h, hsane.settled, fun u hu huse => (hsane.whole u hu huse).2.2, hshrink, hapart,
    by simp, by simp, List.Pairwise.nil⟩

/-- Every call of the bootloader keeps the invariant. -/
theorem Loader.Inv.step {c : LoaderCall} (hi : s.Inv firmware) (hstep : LoaderStep s c t) :
    t.Inv firmware := by
  obtain ⟨hproper, hcall⟩ := hstep
  cases c with
  | range base length type =>
    obtain ⟨memmap, hrange, hcall⟩ := bind_eq_ok.1 hcall
    obtain rfl := Except.ok.inj hcall
    exact hi.take (memmapAllocRange_spec hi.bounded hi.settled hproper.1 hproper.2 hrange) (.refl _)
  | ext count alignment type =>
    obtain ⟨⟨ret, boot⟩, hext, hcall⟩ := bind_eq_ok.1 hcall
    obtain rfl := Except.ok.inj hcall
    have hpos : ∀ u ∈ s.boot.memmap, u.Usable → 0 < u.base :=
      fun u hu huse => Nat.lt_of_lt_of_le (by decide) (hi.low u hu huse)
    obtain ⟨length, memmap, htaken, hcount, -, -, hsane, -⟩ :=
      extMemAllocAlignedType_spec hi.bounded hpos hi.settled hproper hext
    have hpart : Within ⟨ret, count, type⟩ ⟨ret, length, type⟩ :=
      ⟨le_rfl, Nat.add_le_add_left hcount ret⟩
    exact ((@Loader.Inv.take firmware memmap s s.boot.mem hi _ _ htaken hpart).sanitise hsane).1
  | get =>
    obtain ⟨memmap, hsane, hcall⟩ := bind_eq_ok.1 hcall
    obtain rfl := Except.ok.inj hcall
    exact (hi.sanitise hsane).1

/-- It holds at every moment of a boot. -/
theorem Loader.inv_of_run {calls : List LoaderCall} (hfirmware : ∀ e ∈ firmware, Bounded e)
    (hinit : initMemmap firmware = .ok memmap)
    (hrun : Run LoaderStep ⟨⟨memmap, mem⟩, []⟩ calls s) : s.Inv firmware :=
  hrun.invariant (Loader.inv_start hfirmware hinit) fun _ _ _ hi hstep => hi.step hstep

/-- Two ranges taken do not meet. -/
theorem Loader.Inv.taken_clear {r q : MmapEntry} (hi : s.Inv firmware) (hr : r ∈ s.taken)
    (hq : q ∈ s.taken) (hne : r ≠ q) : Clear r q :=
  have : Std.Symm Clear := ⟨fun _ _ h => h.symm⟩
  hi.disjoint.forall hr hq hne

/-! ## The table for the kernel -/

/-- What the kernel can rely on: usable entries of whole pages from 1 MiB on, sorted and disjoint,
which the firmware reported as usable and which meet no range that was taken. Where the firmware
reported a byte of them as something else, an entry that begins below them covers them. -/
structure HandedOver (firmware taken table : List MmapEntry) : Prop where
  whole : ∀ u ∈ table, u.Usable → Whole u
  sorted : table.Pairwise fun e f => e.base ≤ f.base
  disjoint : (table.filter (·.Usable)).Pairwise fun e f => Disjoint e.bytes f.bytes
  usable : ∀ u ∈ table, u.Usable → ∃ e ∈ firmware, e.Usable ∧ u.bytes ⊆ e.bytes
  reserved : ∀ u ∈ table, u.Usable → ∀ r ∈ firmware, ¬ r.Usable →
    Disjoint u.bytes r.bytes ∨ r.base < u.base ∧ u.bytes ⊆ r.bytes
  free : ∀ u ∈ table, u.Usable → ∀ r ∈ taken, Disjoint u.bytes r.bytes
  ranges : ∀ r ∈ taken, memmapBase ≤ r.base ∧ ∃ e ∈ firmware, e.Usable ∧ r.bytes ⊆ e.bytes
  apart : taken.Pairwise fun r q => Disjoint r.bytes q.bytes

/-- The bytes of an entry inside another one. -/
theorem Within.bytes {e f : MmapEntry} (h : Within e f) : e.bytes ⊆ f.bytes :=
  fun _ hx => h.mem_bytes hx

/-- A sanitised table is as the kernel expects it. -/
theorem Loader.Inv.handedOver (hi : s.Inv firmware) (hsane : Sanitised s.boot.memmap) :
    HandedOver firmware s.taken s.boot.memmap where
  whole := hsane.whole
  sorted := hsane.sorted
  disjoint := by
    refine (hi.settled.filter _).imp_of_mem fun he hf hef => ?_
    have huse := fun {e : MmapEntry} (h : e ∈ s.boot.memmap.filter (·.Usable)) =>
      of_decide_eq_true (List.mem_filter.1 h).2
    exact clear_iff.1 (hef.clear (huse he) (huse hf))
  usable u hu huse := by
    obtain ⟨e, he, he', hin⟩ := hi.origin u hu huse
    exact ⟨e, he, he', hin.bytes⟩
  reserved u hu huse r hr hr' := by
    rcases hi.reserved u hu huse r hr hr' with hclear | ⟨hlt, hin⟩
    · exact .inl (clear_iff.1 hclear)
    · exact .inr ⟨hlt, hin.bytes⟩
  free u hu huse r hr := clear_iff.1 (hi.clear u hu huse r hr)
  ranges r hr := by
    obtain ⟨hlow, e, he, he', hin⟩ := hi.ranges r hr
    exact ⟨hlow, e, he, he', hin.bytes⟩
  apart := hi.disjoint.imp clear_iff.1

/-- The table as a map of the stivale protocol. -/
def Loader.stivaleMap (hi : s.Inv firmware) (h : HandedOver firmware s.taken s.boot.memmap) :
    StivaleMap where
  entries := s.boot.memmap
  aligned u hu huse := ⟨(h.whole u hu huse).1, (h.whole u hu huse).2.1⟩
  disjoint := h.disjoint
  base_ne_zero u hu huse := Nat.ne_of_gt (Nat.lt_of_lt_of_le (by decide) (h.whole u hu huse).2.2)
  top_lt u hu _ := (hi.bounded u hu).trans (by decide)

/-- Whatever the firmware reports and the bootloader loads, the table of `get_memmap` is as the
kernel expects it. -/
theorem handedOver_of_run {calls : List LoaderCall} (hfirmware : ∀ e ∈ firmware, Bounded e)
    (hinit : initMemmap firmware = .ok memmap)
    (hrun : Run LoaderStep ⟨⟨memmap, mem⟩, []⟩ calls s)
    (hget : sanitiseEntries s.boot.memmap = .ok table) : HandedOver firmware s.taken table := by
  have hi := Loader.inv_of_run hfirmware hinit hrun
  obtain ⟨hi', hsane⟩ := @Loader.Inv.sanitise firmware table s s.boot.mem hi hget
  exact hi'.handedOver hsane

/-! ## The heap of the kernel -/

/-- The heap is sound, every free returns, and each byte a client holds was usable to the firmware,
lies above 1 MiB and is in none of the ranges taken. -/
structure Sheltered (firmware taken : List MmapEntry) (map : StivaleMap) (h : Heap) : Prop where
  sound : ∃ lists, h.Safe map lists ∧ h.Accounted lists
  returns : ∀ r ∈ h.out, ∃ fuel b, buddyFree fuel h.buddy r.addr r.size = some b
  outside : ∀ b ∈ h.outBlocks, ∀ x ∈ b.bytes, memmapBase ≤ x ∧
    (∃ e ∈ firmware, e.Usable ∧ x ∈ e.bytes) ∧ ∀ r ∈ taken, x ∉ r.bytes

/-- The heap on such a table is sheltered in every run. -/
theorem HandedOver.sheltered {taken : List MmapEntry} {map : StivaleMap} {b : Buddy}
    {calls : List Call} {h : Heap} (ho : HandedOver firmware taken map.entries)
    (hrun : Run HeapStep (Heap.start map b) calls h) : Sheltered firmware taken map h := by
  have hlow : ∀ x ∈ map.usable, memmapBase ≤ x := by
    rintro x ⟨u, hu, hx⟩
    obtain ⟨hmem, huse⟩ := StivaleMap.mem_regions.1 hu
    exact (ho.whole u hmem huse).2.2.trans (MmapEntry.mem_bytes.1 hx).1
  have hhigh : ∀ x ∈ map.usable, 2 ^ maxOrder ≤ x := fun x hx => le_trans (by decide) (hlow x hx)
  obtain ⟨lists, hi, -⟩ := Heap.inv_of_run (Heap.guarded_of_high hhigh hrun)
  refine ⟨⟨lists, hi.safe, hi.accounted⟩, fun r hr => ?_, fun block hblock x hx => ?_⟩
  · obtain ⟨b', -, need, hreturns, -⟩ := hi.free hr (hi.freeAvoidsNull hhigh hr)
    exact ⟨need, b', by rw [hreturns, if_pos le_rfl]⟩
  · have husable := (hi.safe.covers x).1 ⟨block, List.mem_append_right _ hblock, hx⟩
    refine ⟨hlow x husable, ?_⟩
    obtain ⟨u, hu, hxu⟩ := husable
    obtain ⟨hmem, huse⟩ := StivaleMap.mem_regions.1 hu
    obtain ⟨e, he, he', hin⟩ := ho.usable u hmem huse
    exact ⟨⟨e, he, he', hin hxu⟩, fun r hr => Set.disjoint_left.1 (ho.free u hmem huse r hr) hxu⟩

/-- On the table of any boot the buddy allocator is safe in every run, with no condition on its
clients. -/
theorem sheltered_of_boot {calls : List LoaderCall} (hfirmware : ∀ e ∈ firmware, Bounded e)
    (hinit : initMemmap firmware = .ok memmap)
    (hrun : Run LoaderStep ⟨⟨memmap, mem⟩, []⟩ calls s)
    (hget : sanitiseEntries s.boot.memmap = .ok table) :
    ∃ map : StivaleMap, map.entries = table ∧ ∀ b requests h,
      Run HeapStep (Heap.start map b) requests h → Sheltered firmware s.taken map h := by
  have hi := Loader.inv_of_run hfirmware hinit hrun
  obtain ⟨hi', hsane⟩ := @Loader.Inv.sanitise firmware table s s.boot.mem hi hget
  have ho := hi'.handedOver hsane
  exact ⟨Loader.stivaleMap hi' ho, rfl, fun b requests h hheap => ho.sheltered hheap⟩

/-! ## An example boot -/

/-- 128 MiB as an emulator reports them, the table not sorted. -/
def sampleFirmware : List MmapEntry :=
  [⟨0x100000, 0x7ee0800, 1⟩, ⟨0, 0x9fc00, 1⟩, ⟨0x9fc00, 0x400, 2⟩, ⟨0xf0000, 0x10000, 2⟩,
    ⟨0x7fe0000, 0x20000, 2⟩]

/-- The table of `init_memmap`. -/
def sampleMemmap : List MmapEntry :=
  [⟨0x9fc00, 0x400, 2⟩, ⟨0xf0000, 0x10000, 2⟩, ⟨0x100000, 0x7ee0000, 1⟩, ⟨0x7fe0000, 0x20000, 2⟩]

/-- The table behind a kernel at 1 MiB and a page table below the last entry. -/
def sampleTable : List MmapEntry :=
  [⟨0x9fc00, 0x400, 2⟩, ⟨0xf0000, 0x10000, 2⟩, ⟨0x100000, 0x12345, 10⟩, ⟨0x113000, 0x7ecc000, 1⟩,
    ⟨0x7fdf000, 0x1000, 0x1000⟩, ⟨0x7fe0000, 0x20000, 2⟩]

/-- The entries of the emulator end far below the bound. -/
theorem sampleFirmware_bounded : ∀ e ∈ sampleFirmware, Bounded e := by
  unfold Bounded
  decide

/-- A kernel is loaded to 1 MiB and a page table taken behind it. -/
theorem sampleBoot (mem : Memory) : Run LoaderStep ⟨⟨sampleMemmap, mem⟩, []⟩
    [.range 0x100000 0x12345 10, .ext 0x1000 0x1000 0x1000]
    ⟨⟨sampleTable, memsetZero mem 0x7fdf000 0x1000⟩,
      [⟨0x7fdf000, 0x1000, 0x1000⟩, ⟨0x100000, 0x12345, 10⟩]⟩ := by
  have hkernel : LoaderStep ⟨⟨sampleMemmap, mem⟩, []⟩ (.range 0x100000 0x12345 10)
      ⟨⟨[⟨0x9fc00, 0x400, 2⟩, ⟨0xf0000, 0x10000, 2⟩, ⟨0x7fe0000, 0x20000, 2⟩,
        ⟨0x112345, 0x7ecdcbb, 1⟩, ⟨0x100000, 0x12345, 10⟩], mem⟩, [⟨0x100000, 0x12345, 10⟩]⟩ :=
    ⟨⟨by decide, by decide⟩, rfl⟩
  exact .cons hkernel (.single ⟨show 0x1000 ≠ memmapUsable by decide, rfl⟩)

/-- The table handed over after both calls. -/
theorem handedOver_of_run_sample : HandedOver sampleFirmware
    [⟨0x7fdf000, 0x1000, 0x1000⟩, ⟨0x100000, 0x12345, 10⟩] sampleTable :=
  handedOver_of_run sampleFirmware_bounded (by decide) (sampleBoot fun _ => 0) (by decide)

/-- The heap of the kernel after both calls. -/
theorem sheltered_of_boot_sample : ∃ map : StivaleMap, map.entries = sampleTable ∧ ∀ b requests h,
    Run HeapStep (Heap.start map b) requests h → Sheltered sampleFirmware
      [⟨0x7fdf000, 0x1000, 0x1000⟩, ⟨0x100000, 0x12345, 10⟩] map h :=
  sheltered_of_boot sampleFirmware_bounded (by decide) (sampleBoot fun _ => 0) (by decide)

/-- A usable entry inside a reserved one stays in the table. -/
example : initMemmap [⟨0x100000, 0x400000, 2⟩, ⟨0x200000, 0x1000, 1⟩] =
    .ok [⟨0x100000, 0x400000, 2⟩, ⟨0x200000, 0x1000, 1⟩] := by decide

end Orionis.Limine
