import Mathlib.Data.List.Perm.Subperm
import Mathlib.Logic.Function.Basic
import Orionis.Foundations.Links
import Orionis.Virtio.Queue

/-!
# What `virtio_net_init` reads from the configuration space

The file-level statics of `virtio_net.cpp`, the loop that reads the base address registers,
and the walk along the capability list that computes the configuration pointers. The statics
survive from call to call, so each base address and each pointer also carries, as ghost
data, the number of the call that wrote it.
-/

namespace Orionis.Virtio

open Orionis.Foundations

/-- What one call of `virtio_net_init` meets: the configuration space of the PCI function,
by double words, the replies to its register reads and the results of its `buddy_alloc`
calls, each in the order they are made. -/
structure Env where
  config : ℕ → UInt32
  reply : ℕ → ℕ
  alloc : ℕ → UInt64

/-- What the driver does to registers and memory. -/
inductive Effect
  /-- A register of the device is written, with the width in bits. -/
  | write (addr : UInt64) (width value : ℕ)
  /-- A register of the device is read. -/
  | read (addr : UInt64) (width : ℕ)
  /-- A block from `buddy_alloc` is filled with zeros. -/
  | store (addr : UInt64) (len : ℕ)
  /-- A buffer is put on the available ring. -/
  | post (addr : UInt64)
  /-- A block is given back with `buddy_free`. -/
  | free (addr : UInt64)
  deriving DecidableEq, Repr

/-- An entry of `pci_bars`, with the call that wrote it. -/
structure Bar where
  base : UInt64
  call : ℕ
  deriving DecidableEq, Repr

/-- A configuration pointer, with the call that wrote it and the call that wrote the base
address it was computed from. -/
structure Cfg where
  ptr : UInt64
  call : ℕ
  barCall : ℕ
  deriving DecidableEq, Repr

/-- A virtqueue with what `virtq_kick` needs, and whether `queue_enable` has been written
for it. -/
structure NetQueue where
  queue : Virtq
  queueNotifyOff : UInt32
  notifyOffMultiplier : UInt32
  enabled : Bool

/-- The statics of `virtio_net.cpp`, the configuration pointers by their `cfg_type`, and
what the current call has done so far. -/
structure Net where
  pciBars : ℕ → Bar
  cfg : UInt8 → Cfg
  notifyMultiplier : UInt32
  macAddr : ℕ → UInt8
  rxQ : Option NetQueue
  txQ : Option NetQueue
  irq : UInt8
  /-- How many calls of `virtio_net_init` have begun. -/
  calls : ℕ
  reads : ℕ
  allocs : ℕ
  trace : List Effect

namespace Net

/-- The statics before the first call. -/
def boot : Net where
  pciBars := fun _ => ⟨0, 0⟩
  cfg := fun _ => ⟨0, 0, 0⟩
  notifyMultiplier := 0
  macAddr := fun _ => 0
  rxQ := none
  txQ := none
  irq := 0
  calls := 0
  reads := 0
  allocs := 0
  trace := []

/-- `common_cfg_ptr`. -/
def commonCfgPtr (n : Net) : UInt64 := (n.cfg 1).ptr

/-- `notify_cfg_ptr`. -/
def notifyCfgPtr (n : Net) : UInt64 := (n.cfg 2).ptr

/-- `isr_cfg_ptr`. -/
def isrCfgPtr (n : Net) : UInt64 := (n.cfg 3).ptr

/-- `device_cfg_ptr`. -/
def deviceCfgPtr (n : Net) : UInt64 := (n.cfg 4).ptr

end Net

/-! ## Base address registers -/

/-- `pci_read_dword` on the function at hand. -/
def pciReadDword (env : Env) (offset : UInt8) : UInt32 := env.config (offset.toNat / 4)

/-- The register the loop calls `bar_val` in round `i`. -/
def barVal (env : Env) (i : ℕ) : UInt32 := pciReadDword env (UInt8.ofNat (0x10 + i * 4))

/-- The loop takes register `i` for the lower half of a 64-bit base address. -/
def wideBar (env : Env) (i : ℕ) : Prop := barVal env i &&& 0x4 = 0x4

instance (env : Env) (i : ℕ) : Decidable (wideBar env i) := inferInstanceAs (Decidable (_ = _))

/-- What the loop stores for slot `i`. -/
def barBase (env : Env) (i : ℕ) : UInt64 :=
  if wideBar env i then
    ((barVal env (i + 1)).toUInt64 <<< 32) ||| (barVal env i &&& 0xFFFFFFF0).toUInt64
  else (barVal env i &&& 0xFFFFFFF0).toUInt64

/-- The loop over the base address registers from slot `i`, in at most `fuel` rounds. -/
def readBars (env : Env) (call : ℕ) : (fuel i : ℕ) → (ℕ → Bar) → ℕ → Bar
  | 0, _, bars => bars
  | fuel + 1, i, bars =>
    if i < 6 then
      let bars := Function.update bars i ⟨barBase env i, call⟩
      if wideBar env i then readBars env call fuel (i + 2) bars
      else readBars env call fuel (i + 1) bars
    else bars

/-- The slots the loop writes from slot `i` on: the one after a 64-bit base address is
skipped. -/
def barSlots (env : Env) : (fuel i : ℕ) → List ℕ
  | 0, _ => []
  | fuel + 1, i =>
    if i < 6 then
      i :: if wideBar env i then barSlots env fuel (i + 2) else barSlots env fuel (i + 1)
    else []

/-- The slots of `pci_bars` that are read from this function. -/
def ownSlots (env : Env) : List ℕ := barSlots env 6 0

/-- No slot behind the loop counter is written again. -/
theorem le_of_mem_barSlots {env : Env} {fuel i j : ℕ} (h : j ∈ barSlots env fuel i) : i ≤ j := by
  induction fuel generalizing i with
  | zero => simp [barSlots] at h
  | succ fuel ih =>
    rw [barSlots] at h
    split at h
    · rcases List.mem_cons.1 h with rfl | hrest
      · exact le_rfl
      · split at hrest
        · exact (by omega : i ≤ i + 2).trans (ih hrest)
        · exact (by omega : i ≤ i + 1).trans (ih hrest)
    · simp at h

/-- The loop writes its slots and leaves the others as they were. -/
theorem readBars_apply (env : Env) (call fuel i : ℕ) (bars : ℕ → Bar) (j : ℕ) :
    readBars env call fuel i bars j =
      if j ∈ barSlots env fuel i then ⟨barBase env j, call⟩ else bars j := by
  induction fuel generalizing i bars with
  | zero => simp [readBars, barSlots]
  | succ fuel ih =>
    rw [readBars, barSlots]
    split
    · have hfirst : ∀ k, i < k → (i = j → j ∉ barSlots env fuel k) := fun k hik hij hmem => by
        have := le_of_mem_barSlots hmem
        omega
      have hrest : ∀ k, i < k →
          readBars env call fuel k (Function.update bars i ⟨barBase env i, call⟩) j =
            if j ∈ i :: barSlots env fuel k then ⟨barBase env j, call⟩ else bars j := by
        intro k hik
        rw [ih]
        by_cases hij : j = i
        · subst hij
          simp [hfirst k hik rfl]
        · simp [hij]
      split
      · exact hrest (i + 2) (by omega)
      · exact hrest (i + 1) (by omega)
    · simp

/-! ## Capabilities -/

/-- What the walk reads at one capability. -/
structure Cap where
  vndr : UInt8
  next : UInt8
  cfgType : UInt8
  bar : UInt8
  offset : UInt32
  multiplier : UInt32
  deriving DecidableEq, Repr

/-- The capability at an offset of the configuration space. -/
def capAt (env : Env) (ptr : UInt8) : Cap :=
  let capHeader := pciReadDword env ptr
  { vndr := (capHeader &&& 0xFF).toUInt8
    next := ((capHeader >>> 8) &&& 0xFF).toUInt8
    cfgType := ((capHeader >>> 24) &&& 0xFF).toUInt8
    bar := (pciReadDword env (ptr + 4) &&& 0xFF).toUInt8
    offset := pciReadDword env (ptr + 8)
    multiplier := pciReadDword env (ptr + 16) }

/-- The first `cap_ptr_offset`. -/
def capPointer (env : Env) : UInt8 := (pciReadDword env 0x34 &&& 0xFF).toUInt8

/-- The values of `cfg_type` the walk knows. -/
def cfgTypes : List UInt8 := [1, 2, 3, 4, 5]

/-- The configuration pointers `virtio_net_init` cannot do without. -/
def crucial : List UInt8 := [1, 2, 3, 4]

/-- The walk takes a capability: it is vendor specific, its type is known and its base
address is not zero. -/
def Cap.taken (bars : ℕ → Bar) (cap : Cap) : Prop :=
  cap.vndr = 0x09 ∧ cap.bar.toNat < 6 ∧ (bars cap.bar.toNat).base ≠ 0 ∧ cap.cfgType ∈ cfgTypes

instance (bars : ℕ → Bar) (cap : Cap) : Decidable (cap.taken bars) :=
  inferInstanceAs (Decidable (_ ∧ _))

/-- `base_ptr_for_cap`, as the walk stores it. -/
def Cap.entry (bars : ℕ → Bar) (call : ℕ) (cap : Cap) : Cfg where
  ptr := (bars cap.bar.toNat).base + cap.offset.toUInt64
  call := call
  barCall := (bars cap.bar.toNat).call

/-- One round of the walk. -/
def Net.takeCap (n : Net) (cap : Cap) : Net :=
  if cap.taken n.pciBars then
    { n with
      cfg := Function.update n.cfg cap.cfgType (cap.entry n.pciBars n.calls)
      notifyMultiplier := if cap.cfgType = 2 then cap.multiplier else n.notifyMultiplier }
  else n

/-- The walk along the capability list. A walk of more than 255 rounds has met an offset
twice and never ends, so that 256 as fuel loses nothing. -/
def walkCaps (env : Env) : (fuel : ℕ) → (capPtrOffset : UInt8) → Net → Option Net
  | 0, _, _ => none
  | fuel + 1, capPtrOffset, n =>
    if capPtrOffset = 0 then some n
    else
      let cap := capAt env capPtrOffset
      walkCaps env fuel cap.next (n.takeCap cap)

/-- The capabilities the walk meets. -/
def capList (env : Env) : (fuel : ℕ) → (capPtrOffset : UInt8) → List Cap
  | 0, _ => []
  | fuel + 1, capPtrOffset =>
    if capPtrOffset = 0 then []
    else
      let cap := capAt env capPtrOffset
      cap :: capList env fuel cap.next

/-- The capabilities of the function at hand. -/
def ownCaps (env : Env) : List Cap := capList env 256 (capPointer env)

/-- A walk that ends has taken the capabilities it met in their order. -/
theorem eq_of_walkCaps {env : Env} {fuel : ℕ} {capPtrOffset : UInt8} {n n' : Net}
    (h : walkCaps env fuel capPtrOffset n = some n') :
    n' = (capList env fuel capPtrOffset).foldl Net.takeCap n := by
  induction fuel generalizing capPtrOffset n with
  | zero => simp [walkCaps] at h
  | succ fuel ih =>
    rw [walkCaps] at h
    rw [capList]
    split at h
    · next hend =>
      rw [if_pos hend]
      exact (Option.some.inj h).symm
    · next hmore =>
      rw [if_neg hmore]
      exact ih h

/-- The capability list of the function at hand comes to an end. -/
def Acyclic (env : Env) : Prop :=
  ∃ visited, Links (fun ptr => (capAt env ptr).next) (capPointer env) visited 0 ∧ 0 ∉ visited

/-- There are 255 offsets for capabilities. -/
theorem length_lt_of_nodup {l : List UInt8} (h : l.Nodup) (h0 : 0 ∉ l) : l.length < 256 := by
  have hnodup : ((0 :: l).map UInt8.toNat).Nodup :=
    (List.nodup_cons.2 ⟨h0, h⟩).map fun _ _ => UInt8.toNat_inj.1
  have hsub : (0 :: l).map UInt8.toNat ⊆ List.range 256 := fun x hx => by
    obtain ⟨b, -, rfl⟩ := List.mem_map.1 hx
    exact List.mem_range.2 b.toNat_lt
  have hle := (List.subperm_of_subset hnodup hsub).length_le
  simp only [List.length_map, List.length_cons, List.length_range] at hle
  omega

/-- With more fuel than there are capabilities the walk ends. -/
theorem walkCaps_isSome {env : Env} {fuel : ℕ} {capPtrOffset : UInt8} {visited : List UInt8}
    (hlinks : Links (fun ptr => (capAt env ptr).next) capPtrOffset visited 0) (h0 : 0 ∉ visited)
    (hfuel : visited.length < fuel) (n : Net) : (walkCaps env fuel capPtrOffset n).isSome := by
  induction visited generalizing fuel capPtrOffset n with
  | nil =>
    obtain ⟨fuel, rfl⟩ := Nat.exists_eq_succ_of_ne_zero hfuel.ne'
    rw [walkCaps, if_pos (links_nil.1 hlinks)]
    rfl
  | cons ptr visited ih =>
    obtain ⟨rfl, hrest⟩ := hlinks
    obtain ⟨fuel, rfl⟩ := Nat.exists_eq_succ_of_ne_zero (Nat.ne_zero_of_lt hfuel)
    rw [walkCaps, if_neg fun hptr => h0 (by simp [hptr])]
    exact ih hrest (fun hmem => h0 (List.mem_cons_of_mem _ hmem)) (by simpa using hfuel) _

/-- A list that comes to an end is walked to its end. -/
theorem Acyclic.walkCaps_isSome {env : Env} (h : Acyclic env) (n : Net) :
    (walkCaps env 256 (capPointer env) n).isSome := by
  obtain ⟨visited, hlinks, h0⟩ := h
  exact Virtio.walkCaps_isSome hlinks h0 (length_lt_of_nodup (hlinks.nodup h0) h0) n

/-! ## The last capability of a type -/

/-- Taking capabilities changes the configuration pointers and the multiplier. -/
theorem Net.foldl_takeCap_eq (n : Net) (caps : List Cap) : ∃ cfg multiplier,
    caps.foldl takeCap n = { n with cfg := cfg, notifyMultiplier := multiplier } := by
  induction caps generalizing n with
  | nil => exact ⟨_, _, rfl⟩
  | cons cap caps ih =>
    rw [List.foldl_cons, takeCap]
    split
    · exact ih _
    · exact ih n

/-- The last capability of a type that the walk takes. -/
def lastTaken (bars : ℕ → Bar) (caps : List Cap) (cfgType : UInt8) : Option Cap :=
  (caps.filter fun cap => cap.taken bars ∧ cap.cfgType = cfgType).getLast?

/-- A configuration pointer is that of the last capability of its type, or what it was. -/
theorem Net.foldl_takeCap_cfg (n : Net) (caps : List Cap) (cfgType : UInt8) :
    (caps.foldl takeCap n).cfg cfgType =
      ((lastTaken n.pciBars caps cfgType).map fun cap => cap.entry n.pciBars n.calls).getD
        (n.cfg cfgType) := by
  induction caps using List.reverseRecOn with
  | nil => rfl
  | append_singleton caps cap ih =>
    obtain ⟨cfg, multiplier, heq⟩ := n.foldl_takeCap_eq caps
    have hbars : (caps.foldl takeCap n).pciBars = n.pciBars := by rw [heq]
    have hcalls : (caps.foldl takeCap n).calls = n.calls := by rw [heq]
    rw [List.foldl_append, List.foldl_cons, List.foldl_nil, takeCap, hbars, hcalls]
    by_cases htaken : cap.taken n.pciBars
    · rw [if_pos htaken]
      by_cases htype : cap.cfgType = cfgType
      · subst htype
        simp [lastTaken, htaken]
      · simpa [lastTaken, htype, Function.update_of_ne (Ne.symm htype)] using ih
    · rw [if_neg htaken]
      simpa [lastTaken, htaken] using ih

end Orionis.Virtio
