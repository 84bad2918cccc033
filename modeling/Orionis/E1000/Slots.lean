import Orionis.E1000.Transmit

/-!
# The transmit slots in memory

The descriptors of `e1000_send_packet` as the bytes they are, sixteen for each slot, and the blocks
their `addr` fields point to. The card may finish packets in any order. The one test of the DD bit
at `tx_cur` keeps the driver away from every slot in use, also where the ring is full.
-/

namespace Orionis.E1000

open Orionis.Foundations

/-! ## The driver -/

/-- `memcpy`. -/
def memcpy (m : Memory) (dest src n : ℕ) : Memory := copyRounds dest src (List.range n) m

/-- `E1000_REG_TDBAL` and the registers behind it. -/
def regTDBAL : ℕ := 0x03800
def regTDBAH : ℕ := 0x03804
def regTDLEN : ℕ := 0x03808
def regTDH : ℕ := 0x03810
def regTDT : ℕ := 0x03818

/-- `sizeof(struct e1000_tx_desc)`. -/
def descSize : ℕ := 16

/-- The transmit globals, the memory, and the registers of the card by their offsets. -/
structure TxMemory where
  mem : Memory
  txDescs : ℕ → ℕ
  txBuffers : ℕ → ℕ
  txCur : ℕ
  regs : ℕ → ℕ

/-- The blocks `e1000_init` is given for transmission, with what `buddy_alloc` writes for each of
the buffers. No two blocks meet, and an allocation leaves the ring alone. -/
structure TxBlocks extends Buffers where
  ring : ℕ
  ringApart : ∀ i < numDesc, ring + bufferSize ≤ addr i ∨ addr i + bufferSize ≤ ring
  addr_lt : ∀ i < numDesc, addr i < 2 ^ 64
  alloc : ℕ → Memory → Memory
  allocKeeps : ∀ i m x, ring ≤ x → x < ring + bufferSize → alloc i m x = m x

/-- `tx_descs[i]`. -/
def TxBlocks.desc (blocks : TxBlocks) (i : ℕ) : ℕ := blocks.ring + i * descSize

/-- One round of the loop of `e1000_init` over the transmit descriptors. -/
def initTxDesc (blocks : TxBlocks) (m : Memory) (i : ℕ) : Memory :=
  let m := blocks.alloc i m
  let m := storeLE m 8 (blocks.desc i) (blocks.addr i)
  let m := Function.update m (blocks.desc i + 11) 0
  let m := Function.update m (blocks.desc i + 12) statusDD
  storeLE m 2 (blocks.desc i + 8) 0

/-- The transmit ring as `e1000_init` sets it up. -/
def TxMemory.init (mem : Memory) (regs : ℕ → ℕ) (blocks : TxBlocks) : TxMemory where
  mem := (List.range numDesc).foldl (initTxDesc blocks) mem
  txDescs := blocks.desc
  txBuffers := blocks.addr
  txCur := 0
  regs :=
    let regs := Function.update regs regTDBAL (blocks.ring % 2 ^ 32)
    let regs := Function.update regs regTDBAH (blocks.ring / 2 ^ 32)
    let regs := Function.update regs regTDLEN (numDesc * descSize)
    let regs := Function.update regs regTDH 0
    Function.update regs regTDT 0

/-- What `e1000_send_packet` stores for a packet it takes. -/
def fillSlot (m : Memory) (desc buffer data len : ℕ) : Memory :=
  let m := memcpy m buffer data len
  let m := storeLE m 2 (desc + 8) len
  let m := Function.update m (desc + 11) cmdSend
  Function.update m (desc + 12) 0

/-- `e1000_send_packet`. -/
def TxMemory.sendPacket (s : TxMemory) (data len : ℕ) : Bool × TxMemory :=
  if len = 0 ∨ len > maxFrame then (false, s)
  else
    let desc := s.txDescs s.txCur
    if s.mem (desc + 12) &&& statusDD = 0 then (false, s)
    else
      let txCur := (s.txCur + 1) % numDesc
      (true, { s with
        mem := fillSlot s.mem desc (s.txBuffers s.txCur) data len
        txCur := txCur
        regs := Function.update s.regs regTDH txCur })

/-- What an accepted packet makes of the driver. -/
def TxMemory.fill (s : TxMemory) (data len : ℕ) : TxMemory :=
  { s with
    mem := fillSlot s.mem (s.txDescs s.txCur) (s.txBuffers s.txCur) data len
    txCur := (s.txCur + 1) % numDesc
    regs := Function.update s.regs regTDH ((s.txCur + 1) % numDesc) }

/-! ## Slots in use -/

/-- The card is done with a slot: its DD bit is set. -/
def TxMemory.Done (s : TxMemory) (i : ℕ) : Prop := s.mem (s.txDescs i + 12) &&& statusDD ≠ 0

instance (s : TxMemory) (i : ℕ) : Decidable (s.Done i) := inferInstanceAs (Decidable (_ ≠ _))

/-- The length of a packet is not valid, or the slot at `tx_cur` is in use. -/
def TxMemory.Refuses (s : TxMemory) (len : ℕ) : Prop :=
  (len = 0 ∨ len > maxFrame) ∨ ¬ s.Done s.txCur

instance (s : TxMemory) (len : ℕ) : Decidable (s.Refuses len) := inferInstanceAs (Decidable (_ ∨ _))

/-- The buffer the card reads for a slot. -/
def TxMemory.buffer (s : TxMemory) (i : ℕ) : ℕ := loadLE s.mem 8 (s.txDescs i)

/-- A byte of the descriptor or of the buffer of a slot. -/
def TxMemory.InSlot (s : TxMemory) (i x : ℕ) : Prop :=
  (s.txDescs i ≤ x ∧ x < s.txDescs i + descSize) ∨
    (s.buffer i ≤ x ∧ x < s.buffer i + bufferSize)

/-- A slot holds a packet that the card has not sent yet. -/
structure TxMemory.Holds (s : TxMemory) (i : ℕ) (packet : List UInt8) : Prop where
  length : loadLE s.mem 2 (s.txDescs i + 8) = packet.length
  cmd : s.mem (s.txDescs i + 11) = cmdSend
  busy : ¬ s.Done i
  bytes : loadBytes s.mem packet.length (s.buffer i) = packet

/-! ## Driver and card -/

/-- The driver with the slots of the packets it has accepted. -/
structure TxSlots where
  driver : TxMemory
  slots : List ℕ

/-- A call of the driver, a packet the card is done with, or what the rest of the kernel writes. -/
inductive TxAct
  | send (data len : ℕ)
  | done (i : ℕ)
  | other

namespace TxSlots

/-- After `e1000_init`. -/
def start (mem : Memory) (regs : ℕ → ℕ) (blocks : TxBlocks) : TxSlots :=
  ⟨TxMemory.init mem regs blocks, []⟩

/-- What a call of `e1000_send_packet` leaves. -/
def send (w : TxSlots) (data len : ℕ) : TxSlots :=
  let sent := w.driver.sendPacket data len
  ⟨sent.2, if sent.1 then w.slots ++ [w.driver.txCur] else w.slots⟩

/-- The memory is written. -/
def withMem (w : TxSlots) (m : Memory) : TxSlots := { w with driver := { w.driver with mem := m } }

/-- The card sets the DD bit of a slot. -/
def finish (w : TxSlots) (i : ℕ) : TxSlots :=
  let status := w.driver.txDescs i + 12
  w.withMem (Function.update w.driver.mem status (w.driver.mem status ||| statusDD))

/-- One event. The card works on slots whose DD bit is clear, and the rest of the kernel leaves the
blocks of the ring alone. -/
inductive Step (blocks : TxBlocks) : TxSlots → TxAct → TxSlots → Prop
  | send (w : TxSlots) (data len : ℕ) : Step blocks w (.send data len) (w.send data len)
  | done (w : TxSlots) {i : ℕ} (hi : i < numDesc) (hbusy : ¬ w.driver.Done i) :
      Step blocks w (.done i) (w.finish i)
  | other (w : TxSlots) {m : Memory}
      (hring : ∀ x, blocks.ring ≤ x → x < blocks.ring + bufferSize → m x = w.driver.mem x)
      (hbuffers : ∀ i < numDesc, ∀ x, blocks.addr i ≤ x → x < blocks.addr i + bufferSize →
        m x = w.driver.mem x) :
      Step blocks w .other (w.withMem m)

end TxSlots

/-- What a call does, in a state with some packets accepted. -/
structure SendSafe (w : TxSlots) (data len : ℕ) : Prop where
  untouched : ∀ i < numDesc, ¬ w.driver.Done i → ∀ x, w.driver.InSlot i x →
    (w.driver.sendPacket data len).2.mem x = w.driver.mem x
  refused : (w.driver.sendPacket data len).1 = false ↔
    len = 0 ∨ len > maxFrame ∨ ¬ w.driver.Done w.driver.txCur
  unchanged : (w.driver.sendPacket data len).1 = false → (w.driver.sendPacket data len).2 = w.driver
  accepted : (w.driver.sendPacket data len).1 = true →
    w.driver.txCur = w.slots.length % numDesc ∧
    ((∀ k < len, ¬ w.driver.InSlot w.driver.txCur (data + k)) →
      (w.driver.sendPacket data len).2.Holds w.driver.txCur (loadBytes w.driver.mem len data))

/-! ## Stores -/

section Stores

variable {m : Memory} {desc buffer data len x : ℕ}

/-- Copying changes nothing outside the buffer. -/
theorem memcpy_of_outside (h : x < buffer ∨ buffer + len ≤ x) :
    memcpy m buffer data len x = m x := by
  apply copyRounds_of_outside
  intro i hi
  have hlt := List.mem_range.1 hi
  omega

/-- A packet changes its part of the buffer and three fields. -/
theorem fillSlot_of_outside (hbuffer : x < buffer ∨ buffer + len ≤ x)
    (hdesc : x < desc + 8 ∨ desc + descSize ≤ x) : fillSlot m desc buffer data len x = m x := by
  unfold descSize at hdesc
  rw [fillSlot, Function.update_of_ne (by omega), Function.update_of_ne (by omega),
    storeLE_of_outside _ _ _ _ _ (by omega), memcpy_of_outside hbuffer]

/-- The descriptor has the length of the packet. -/
theorem loadLE_fillSlot (hlen : len ≤ maxFrame) :
    loadLE (fillSlot m desc buffer data len) 2 (desc + 8) = len := by
  have hstored := loadLE_storeLE_same (memcpy m buffer data len) 2 (desc + 8) len
  have hshort : len % 256 ^ 2 = len := Nat.mod_eq_of_lt (hlen.trans_lt (by decide))
  rw [hshort] at hstored
  refine (loadLE_congr fun x hlo hhi => ?_).trans hstored
  rw [fillSlot, Function.update_of_ne (by omega), Function.update_of_ne (by omega)]

/-- It has the command to send it. -/
theorem fillSlot_cmd : fillSlot m desc buffer data len (desc + 11) = cmdSend := by
  rw [fillSlot, Function.update_of_ne (by omega), Function.update_self]

/-- Its status is cleared. -/
theorem fillSlot_status : fillSlot m desc buffer data len (desc + 12) = 0 :=
  Function.update_self _ _ _

/-- A packet from outside the slot arrives in the buffer. -/
theorem loadBytes_fillSlot (hdesc : buffer + len ≤ desc ∨ desc + descSize ≤ buffer)
    (hdata : ∀ k < len, data + k < buffer ∨ buffer + len ≤ data + k) :
    loadBytes (fillSlot m desc buffer data len) len buffer = loadBytes m len data := by
  have hsize : descSize = 16 := rfl
  apply loadBytes_shift
  intro k hk
  rw [fillSlot, Function.update_of_ne (by omega), Function.update_of_ne (by omega),
    storeLE_of_outside _ _ _ _ _ (by omega)]
  apply copyRounds_apply _ _ (List.mem_range.2 hk)
  refine List.Pairwise.imp_of_mem ?_ List.pairwise_lt_range
  intro i j hi hj hlt
  have hbelow := List.mem_range.1 hi
  have houtside := hdata j (List.mem_range.1 hj)
  omega

end Stores

namespace TxBlocks

variable {blocks : TxBlocks} {i j : ℕ}

/-- The descriptors lie in the block of the ring, one behind the other. -/
theorem desc_bounds (hi : i < numDesc) :
    blocks.ring ≤ blocks.desc i ∧ blocks.desc i + descSize ≤ blocks.ring + bufferSize := by
  unfold numDesc at hi
  unfold desc descSize bufferSize
  omega

/-- Descriptors do not overlap. -/
theorem desc_apart (hij : i ≠ j) :
    blocks.desc i + descSize ≤ blocks.desc j ∨ blocks.desc j + descSize ≤ blocks.desc i := by
  unfold desc descSize
  omega

end TxBlocks

/-! ## Invariant -/

/-- The pointers are as `e1000_init` set them, and the packets accepted lie in consecutive slots,
from slot 0 on and with `tx_cur` behind them. -/
structure TxSlots.Sound (blocks : TxBlocks) (w : TxSlots) : Prop where
  descs : w.driver.txDescs = blocks.desc
  buffers : w.driver.txBuffers = blocks.addr
  addrs : ∀ i < numDesc, w.driver.buffer i = blocks.addr i
  consecutive : w.slots = (List.range w.slots.length).map (· % numDesc)
  cur : w.driver.txCur = w.slots.length % numDesc

section Init

variable {blocks : TxBlocks} {m : Memory} {i x : ℕ}

/-- A round of the loop changes one descriptor of the ring. -/
theorem initTxDesc_of_outside (hlo : blocks.ring ≤ x) (hhi : x < blocks.ring + bufferSize)
    (hdesc : x < blocks.desc i ∨ blocks.desc i + descSize ≤ x) :
    initTxDesc blocks m i x = m x := by
  unfold descSize at hdesc
  rw [initTxDesc, storeLE_of_outside _ _ _ _ _ (by omega), Function.update_of_ne (by omega),
    Function.update_of_ne (by omega), storeLE_of_outside _ _ _ _ _ (by omega),
    blocks.allocKeeps i m x hlo hhi]

/-- Every descriptor starts with the address of its buffer. -/
theorem loadLE_initTxDesc (hi : i < numDesc) :
    loadLE (initTxDesc blocks m i) 8 (blocks.desc i) = blocks.addr i := by
  have hstored : loadLE (initTxDesc blocks m i) 8 (blocks.desc i) =
      loadLE (storeLE (blocks.alloc i m) 8 (blocks.desc i) (blocks.addr i)) 8 (blocks.desc i) := by
    apply loadLE_congr
    intro x hlo hhi
    rw [initTxDesc, storeLE_of_outside _ _ _ _ _ (by omega), Function.update_of_ne (by omega),
      Function.update_of_ne (by omega)]
  rw [hstored, loadLE_storeLE_same]
  exact Nat.mod_eq_of_lt (blocks.addr_lt i hi)

/-- Every descriptor starts as done. -/
theorem initTxDesc_status : initTxDesc blocks m i (blocks.desc i + 12) = statusDD := by
  rw [initTxDesc, storeLE_of_outside _ _ _ _ _ (by omega), Function.update_self]

/-- Each descriptor stays as its own round has left it. -/
theorem initTxDescs_eq (blocks : TxBlocks) (m : Memory) {count : ℕ} (hcount : count ≤ numDesc)
    (hi : i < count) : ∃ m', ∀ x, blocks.desc i ≤ x → x < blocks.desc i + descSize →
      (List.range count).foldl (initTxDesc blocks) m x = initTxDesc blocks m' i x := by
  induction count with
  | zero => exact absurd hi (Nat.not_lt_zero i)
  | succ count ih =>
    rw [List.range_succ, List.foldl_append, List.foldl_cons, List.foldl_nil]
    by_cases hlast : i = count
    · rw [hlast]
      exact ⟨_, fun _ _ _ => rfl⟩
    · obtain ⟨m', hrounds⟩ := ih (Nat.le_of_succ_le hcount) (by omega)
      have hbounds := blocks.desc_bounds (Nat.lt_of_lt_of_le hi hcount)
      have hapart := blocks.desc_apart hlast
      refine ⟨m', fun x hlo hhi => (initTxDesc_of_outside ?_ ?_ ?_).trans (hrounds x hlo hhi)⟩ <;>
        omega

/-- The ring of the initialised card is sound. -/
theorem TxSlots.sound_start (mem : Memory) (regs : ℕ → ℕ) (blocks : TxBlocks) :
    (start mem regs blocks).Sound blocks where
  descs := rfl
  buffers := rfl
  addrs := by
    intro i hi
    obtain ⟨m', hrounds⟩ := initTxDescs_eq blocks mem le_rfl hi
    have hsize : descSize = 16 := rfl
    exact (loadLE_congr fun x hlo hhi => hrounds x hlo (by omega)).trans (loadLE_initTxDesc hi)
  consecutive := rfl
  cur := rfl

/-- No slot is in use at first. -/
theorem TxSlots.done_start (mem : Memory) (regs : ℕ → ℕ) (blocks : TxBlocks) (hi : i < numDesc) :
    (start mem regs blocks).driver.Done i := by
  obtain ⟨m', hrounds⟩ := initTxDescs_eq blocks mem le_rfl hi
  have hstatus := (hrounds (blocks.desc i + 12) (Nat.le_add_right _ _)
    (Nat.add_lt_add_left (by decide) _)).trans initTxDesc_status
  change (start mem regs blocks).driver.mem (blocks.desc i + 12) &&& statusDD ≠ 0
  rw [start, TxMemory.init]
  simp only [hstatus]
  decide

end Init

namespace TxSlots

variable {blocks : TxBlocks} {w : TxSlots} {data len i x : ℕ} {m : Memory}

/-! ## Calls -/

/-- A packet is taken if its length is valid and the card is done with the slot at `tx_cur`. -/
theorem sendPacket_eq (s : TxMemory) (data len : ℕ) :
    s.sendPacket data len = if s.Refuses len then (false, s) else (true, s.fill data len) := by
  rw [TxMemory.sendPacket]
  by_cases hlen : len = 0 ∨ len > maxFrame
  · have hrefused : s.Refuses len := Or.inl hlen
    rw [if_pos hlen, if_pos hrefused]
  · rw [if_neg hlen]
    by_cases hbusy : s.mem (s.txDescs s.txCur + 12) &&& statusDD = 0
    · have hrefused : s.Refuses len := Or.inr fun hdone => hdone hbusy
      rw [if_pos hrefused]
      exact if_pos hbusy
    · have hfree : ¬ s.Refuses len := not_or.2 ⟨hlen, not_not.2 hbusy⟩
      rw [if_neg hfree]
      exact if_neg hbusy

/-- An accepted packet fits a buffer. -/
theorem le_maxFrame_of_accepted {s : TxMemory} (h : ¬ s.Refuses len) : len ≤ maxFrame :=
  Nat.le_of_not_gt fun hlong => h (Or.inl (Or.inr hlong))

/-- A refused packet changes nothing. -/
theorem send_of_refused (h : w.driver.Refuses len) : w.send data len = w := by
  rw [send, sendPacket_eq, if_pos h]
  rfl

/-- An accepted packet fills the current slot. -/
theorem send_of_accepted (h : ¬ w.driver.Refuses len) :
    w.send data len = ⟨w.driver.fill data len, w.slots ++ [w.driver.txCur]⟩ := by
  rw [send, sendPacket_eq, if_neg h]
  rfl

/-- The descriptors keep their buffers. -/
theorem Sound.loadLE_desc (h : w.Sound blocks) (hi : i < numDesc) :
    loadLE w.driver.mem 8 (blocks.desc i) = blocks.addr i := by
  rw [← h.descs]
  exact h.addrs i hi

/-- The current descriptor is one of the ring. -/
theorem Sound.cur_lt (h : w.Sound blocks) : w.driver.txCur < numDesc := by
  rw [h.cur]
  exact Nat.mod_lt _ (by decide)

/-- Memory that keeps the pointers in the ring keeps the rest as well. -/
theorem Sound.withMem (h : w.Sound blocks)
    (haddrs : ∀ i < numDesc, loadLE m 8 (blocks.desc i) = blocks.addr i) :
    (w.withMem m).Sound blocks := by
  refine { h with addrs := fun i hi => ?_ }
  rw [TxMemory.buffer, TxSlots.withMem, h.descs]
  exact haddrs i hi

/-- The slot that is filled meets no other slot, and not the pointers in the ring. -/
theorem fillSlot_of_apart (hlen : len ≤ maxFrame) {cur : ℕ} (hcur : cur < numDesc) (hi : i < numDesc)
    (hslot : (blocks.desc i ≤ x ∧ x < blocks.desc i + descSize ∧ (i = cur → x < blocks.desc i + 8)) ∨
      (blocks.addr i ≤ x ∧ x < blocks.addr i + bufferSize ∧ i ≠ cur)) :
    fillSlot m (blocks.desc cur) (blocks.addr cur) data len x = m x := by
  have hbounds := blocks.desc_bounds hi
  have hcurBounds := blocks.desc_bounds hcur
  have hring := blocks.ringApart cur hcur
  have hfits : maxFrame ≤ bufferSize := by decide
  have hsize : 8 ≤ descSize := by decide
  rcases hslot with ⟨hlo, hhi, hfield⟩ | ⟨hlo, hhi, hne⟩
  · by_cases heq : i = cur
    · have hbefore := hfield heq
      rw [heq] at hlo hbefore hbounds
      exact fillSlot_of_outside (by omega) (Or.inl hbefore)
    · have hapart := blocks.desc_apart heq
      exact fillSlot_of_outside (by omega) (by omega)
  · have hapart := blocks.apart i cur hi hcur hne
    have hringSlot := blocks.ringApart i hi
    exact fillSlot_of_outside (by omega) (by omega)

/-- An accepted packet leaves the other slots alone. -/
theorem Sound.fill_of_other (h : w.Sound blocks) (hlen : len ≤ maxFrame) (hi : i < numDesc)
    (hne : i ≠ w.driver.txCur) (hx : w.driver.InSlot i x) :
    (w.driver.fill data len).mem x = w.driver.mem x := by
  rw [TxMemory.InSlot, h.descs, h.addrs i hi] at hx
  rw [TxMemory.fill, h.descs, h.buffers]
  apply fillSlot_of_apart hlen h.cur_lt hi
  exact hx.imp (fun hdesc => ⟨hdesc.1, hdesc.2, fun heq => absurd heq hne⟩)
    fun hbytes => ⟨hbytes.1, hbytes.2, hne⟩

/-- Sending keeps the ring sound. -/
theorem Sound.send (h : w.Sound blocks) (data len : ℕ) : (w.send data len).Sound blocks := by
  by_cases hrefused : w.driver.Refuses len
  · rw [send_of_refused hrefused]
    exact h
  · have hlen : len ≤ maxFrame := Nat.le_of_not_gt fun hlong => hrefused (Or.inl (Or.inr hlong))
    rw [send_of_accepted hrefused]
    refine ⟨h.descs, h.buffers, fun i hi => ?_, ?_, ?_⟩
    · rw [TxMemory.buffer, TxMemory.fill, h.descs, h.buffers]
      refine (loadLE_congr fun x hlo hhi => ?_).trans (h.loadLE_desc hi)
      have hsize : descSize = 16 := rfl
      exact fillSlot_of_apart hlen h.cur_lt hi (Or.inl ⟨hlo, by omega, fun _ => hhi⟩)
    · rw [List.length_append, List.length_singleton, List.range_succ, List.map_append,
        ← h.consecutive, h.cur]
      rfl
    · rw [TxMemory.fill, h.cur, Nat.mod_add_mod, List.length_append, List.length_singleton]

/-- The card keeps the ring sound. -/
theorem Sound.finish (h : w.Sound blocks) (i : ℕ) : (w.finish i).Sound blocks := by
  apply h.withMem
  intro j hj
  refine (loadLE_congr fun x hlo hhi => ?_).trans (h.loadLE_desc hj)
  rw [h.descs]
  apply Function.update_of_ne
  have hsize : descSize = 16 := rfl
  by_cases heq : j = i
  · rw [heq] at hhi
    omega
  · have hapart := blocks.desc_apart heq
    omega

/-- Every event keeps the invariant. -/
theorem Sound.step {w' : TxSlots} {act : TxAct} (h : w.Sound blocks) (hstep : Step blocks w act w') :
    w'.Sound blocks := by
  cases hstep with
  | send data len => exact h.send data len
  | done _ _ => exact h.finish _
  | other hring _ =>
    apply h.withMem
    intro i hi
    have hbounds := blocks.desc_bounds hi
    have hsize : descSize = 16 := rfl
    refine (loadLE_congr fun x hlo hhi => ?_).trans (h.loadLE_desc hi)
    exact hring x (by omega) (by omega)

/-- The ring is sound in every run. -/
theorem sound_of_run {mem : Memory} {regs : ℕ → ℕ} {acts : List TxAct}
    (hrun : Run (Step blocks) (start mem regs blocks) acts w) : w.Sound blocks :=
  hrun.invariant (sound_start mem regs blocks) fun _ _ _ h hstep => h.step hstep

/-! ## A call -/

/-- A filled slot keeps its buffer. -/
theorem Sound.buffer_fill (h : w.Sound blocks) (haccepted : ¬ w.driver.Refuses len)
    (hi : i < numDesc) : (w.driver.fill data len).buffer i = blocks.addr i := by
  have hsound := h.send data len
  rw [send_of_accepted haccepted] at hsound
  exact hsound.addrs i hi

/-- The slot of an accepted packet holds it. -/
theorem Sound.holds_fill (h : w.Sound blocks) (haccepted : ¬ w.driver.Refuses len)
    (hdata : ∀ k < len, ¬ w.driver.InSlot w.driver.txCur (data + k)) :
    (w.driver.fill data len).Holds w.driver.txCur (loadBytes w.driver.mem len data) := by
  have hlen := le_maxFrame_of_accepted haccepted
  have hcur := h.cur_lt
  have hbounds := blocks.desc_bounds hcur
  have hring := blocks.ringApart _ hcur
  have hfits : maxFrame ≤ bufferSize := by decide
  have hmem : (w.driver.fill data len).mem = fillSlot w.driver.mem (blocks.desc w.driver.txCur)
      (blocks.addr w.driver.txCur) data len := by rw [← h.descs, ← h.buffers]; rfl
  have hdesc : (w.driver.fill data len).txDescs = blocks.desc := h.descs
  have hbuffer : (w.driver.fill data len).buffer w.driver.txCur = blocks.addr w.driver.txCur :=
    h.buffer_fill haccepted hcur
  unfold TxMemory.InSlot at hdata
  rw [h.addrs _ hcur] at hdata
  refine ⟨?_, ?_, ?_, ?_⟩
  · rw [hmem, hdesc, length_loadBytes, loadLE_fillSlot hlen]
  · rw [hmem, hdesc, fillSlot_cmd]
  · rw [TxMemory.Done, hmem, hdesc, fillSlot_status]
    decide
  · rw [length_loadBytes, hbuffer, hmem]
    apply loadBytes_fillSlot (by omega)
    intro k hk
    have houtside := hdata k hk
    omega

/-- On a sound ring a packet is safe to send. -/
theorem Sound.sendSafe (h : w.Sound blocks) (data len : ℕ) : SendSafe w data len := by
  have hrefuses : w.driver.Refuses len ↔
      len = 0 ∨ len > maxFrame ∨ ¬ w.driver.Done w.driver.txCur := or_assoc
  by_cases hrefused : w.driver.Refuses len
  · have hsend : w.driver.sendPacket data len = (false, w.driver) := by
      rw [sendPacket_eq, if_pos hrefused]
    refine ⟨fun _ _ _ _ _ => ?_, ?_, fun _ => ?_, fun htaken => ?_⟩
    · rw [hsend]
    · rw [hsend, ← hrefuses]
      exact iff_of_true rfl hrefused
    · rw [hsend]
    · rw [hsend] at htaken
      exact absurd htaken Bool.false_ne_true
  · have hsend : w.driver.sendPacket data len = (true, w.driver.fill data len) := by
      rw [sendPacket_eq, if_neg hrefused]
    have hlen := le_maxFrame_of_accepted hrefused
    refine ⟨fun i hi hbusy x hx => ?_, ?_, fun hfalse => ?_, fun _ => ⟨h.cur, fun hdata => ?_⟩⟩
    · have hne : i ≠ w.driver.txCur := by
        rintro rfl
        exact hrefused (Or.inr hbusy)
      rw [hsend]
      exact h.fill_of_other hlen hi hne hx
    · rw [hsend, ← hrefuses]
      exact iff_of_false Bool.false_ne_true.symm hrefused
    · rw [hsend] at hfalse
      exact absurd hfalse.symm Bool.false_ne_true
    · rw [hsend]
      exact h.holds_fill hrefused hdata

/-! ## The table of descriptors -/

/-- The table of descriptors and the buffers show the memory. -/
structure ShownBy (s : TxMemory) (r : TxRing) : Prop where
  descs : ∀ i < numDesc, r.txDescs i =
    { addr := s.buffer i
      length := loadLE s.mem 2 (s.txDescs i + 8)
      cmd := s.mem (s.txDescs i + 11)
      status := s.mem (s.txDescs i + 12) }
  buffers : r.txBuffers = s.txBuffers
  cur : r.txCur = s.txCur
  head : r.tdh = s.regs regTDH
  tail : r.tdt = s.regs regTDT
  bytes : ∀ i < numDesc, ∀ x, s.buffer i ≤ x → x < s.buffer i + bufferSize → r.mem x = s.mem x

section Shown

variable {r : TxRing}

/-- The descriptors after an accepted packet. -/
theorem Sound.descs_fill (h : w.Sound blocks) (hshown : ShownBy w.driver r)
    (haccepted : ¬ w.driver.Refuses len)
    (hdata : ∀ k < len, ¬ w.driver.InSlot w.driver.txCur (data + k)) (hi : i < numDesc) :
    (r.fill (loadBytes w.driver.mem len data)).txDescs i =
      { addr := (w.driver.fill data len).buffer i
        length := loadLE (w.driver.fill data len).mem 2 (w.driver.txDescs i + 8)
        cmd := (w.driver.fill data len).mem (w.driver.txDescs i + 11)
        status := (w.driver.fill data len).mem (w.driver.txDescs i + 12) } := by
  have hlen := le_maxFrame_of_accepted haccepted
  have hholds := h.holds_fill haccepted hdata
  have hbuffer : (w.driver.fill data len).buffer i = w.driver.buffer i :=
    (h.buffer_fill haccepted hi).trans (h.addrs i hi).symm
  have hdescs : (r.fill (loadBytes w.driver.mem len data)).txDescs =
      Function.update r.txDescs w.driver.txCur { r.txDescs w.driver.txCur with
        length := (loadBytes w.driver.mem len data).length, cmd := cmdSend, status := 0 } := by
    rw [← hshown.cur]
    rfl
  rw [hdescs, hbuffer]
  by_cases heq : i = w.driver.txCur
  · have hstatus : (w.driver.fill data len).mem (w.driver.txDescs i + 12) = 0 := by
      rw [heq]
      exact fillSlot_status
    have hlength := hholds.length
    have hcmd := hholds.cmd
    rw [← heq] at hlength hcmd ⊢
    rw [Function.update_self, hshown.descs i hi, hstatus]
    exact congrArg₂ (fun length cmd => E1000TxDesc.mk _ length cmd 0) hlength.symm hcmd.symm
  · have hkept : ∀ k < descSize, (w.driver.fill data len).mem (w.driver.txDescs i + k) =
        w.driver.mem (w.driver.txDescs i + k) := fun k hk =>
      h.fill_of_other hlen hi heq (Or.inl ⟨Nat.le_add_right _ _, Nat.add_lt_add_left hk _⟩)
    have hlength : loadLE (w.driver.fill data len).mem 2 (w.driver.txDescs i + 8) =
        loadLE w.driver.mem 2 (w.driver.txDescs i + 8) :=
      loadLE_shift fun k hk => by
        rw [Nat.add_assoc]
        exact hkept (8 + k) (Nat.lt_of_lt_of_le (Nat.add_lt_add_left hk 8) (by decide))
    rw [Function.update_of_ne heq, hshown.descs i hi, hlength, hkept 11 (by decide),
      hkept 12 (by decide)]

/-- The buffers after an accepted packet. -/
theorem Sound.bytes_fill (h : w.Sound blocks) (hshown : ShownBy w.driver r)
    (haccepted : ¬ w.driver.Refuses len)
    (hdata : ∀ k < len, ¬ w.driver.InSlot w.driver.txCur (data + k)) (hi : i < numDesc)
    (hlo : blocks.addr i ≤ x) (hhi : x < blocks.addr i + bufferSize) :
    (r.fill (loadBytes w.driver.mem len data)).mem x = (w.driver.fill data len).mem x := by
  have hlen := le_maxFrame_of_accepted haccepted
  have hfits : maxFrame ≤ bufferSize := by decide
  have hslot : w.driver.InSlot i x := by
    rw [TxMemory.InSlot, h.addrs i hi]
    exact Or.inr ⟨hlo, hhi⟩
  have hbefore : r.mem x = w.driver.mem x := by
    apply hshown.bytes i hi <;> rw [h.addrs i hi] <;> assumption
  have hmem : (r.fill (loadBytes w.driver.mem len data)).mem =
      storeBytes r.mem (blocks.addr w.driver.txCur) (loadBytes w.driver.mem len data) := by
    rw [TxRing.fill, hshown.buffers, hshown.cur, h.buffers]
  have hlength := length_loadBytes w.driver.mem len data
  rw [hmem]
  by_cases heq : i = w.driver.txCur
  · rw [heq] at hlo hhi
    by_cases hpacket : x < blocks.addr w.driver.txCur + len
    · have hholds := (h.holds_fill haccepted hdata).bytes
      rw [h.buffer_fill haccepted h.cur_lt] at hholds
      have hstored := loadBytes_storeBytes_same r.mem (blocks.addr w.driver.txCur)
        (loadBytes w.driver.mem len data)
      rw [hlength] at hholds hstored
      exact loadBytes_inj (hstored.trans hholds.symm) hlo hpacket
    · have hring := blocks.ringApart _ h.cur_lt
      have hbounds := blocks.desc_bounds h.cur_lt
      have hkept : (w.driver.fill data len).mem x = w.driver.mem x := by
        rw [TxMemory.fill, h.descs, h.buffers]
        exact fillSlot_of_outside (by omega) (by omega)
      rw [storeBytes_of_outside _ _ _ _ (by omega), hkept, hbefore]
  · have hapart := blocks.apart i _ hi h.cur_lt heq
    rw [storeBytes_of_outside _ _ _ _ (by omega), hbefore, h.fill_of_other hlen hi heq hslot]

/-- The two models of `e1000_send_packet` take the same packets and leave the same behind. -/
theorem Sound.sendPacket_shownBy (h : w.Sound blocks) (hshown : ShownBy w.driver r)
    (hdata : ∀ k < len, ¬ w.driver.InSlot w.driver.txCur (data + k)) :
    (w.driver.sendPacket data len).1 = (e1000SendPacket r (loadBytes w.driver.mem len data)).1 ∧
      ShownBy (w.driver.sendPacket data len).2
        (e1000SendPacket r (loadBytes w.driver.mem len data)).2 := by
  have hrefuses : ¬ w.driver.Refuses len ↔
      (TxEvent.send (loadBytes w.driver.mem len data)).valid ∧
        (r.txDescs r.txCur).status &&& statusDD ≠ 0 := by
    rw [hshown.cur, hshown.descs _ h.cur_lt, TxMemory.Refuses, not_or, not_not]
    refine and_congr_left fun _ => ?_
    simp [TxEvent.valid, length_loadBytes]
  rw [sendPacket_eq, e1000SendPacket_eq]
  by_cases hrefused : w.driver.Refuses len
  · rw [if_pos hrefused, if_neg fun haccepted => hrefuses.2 haccepted hrefused]
    exact ⟨rfl, hshown⟩
  · rw [if_neg hrefused, if_pos (hrefuses.1 hrefused)]
    have hnext : (r.txCur + 1) % numDesc = (w.driver.txCur + 1) % numDesc := by rw [hshown.cur]
    have hregs : (w.driver.fill data len).regs =
        Function.update w.driver.regs regTDH ((w.driver.txCur + 1) % numDesc) := rfl
    have hhead : (w.driver.fill data len).regs regTDH = (w.driver.txCur + 1) % numDesc := by
      rw [hregs, Function.update_self]
    have htail : (w.driver.fill data len).regs regTDT = w.driver.regs regTDT := by
      rw [hregs, Function.update_of_ne (by decide)]
    refine ⟨rfl, fun i hi => h.descs_fill hshown hrefused hdata hi, hshown.buffers, hnext,
      hnext.trans hhead.symm, hshown.tail.trans htail.symm, ?_⟩
    intro i hi x hlo hhi
    rw [h.buffer_fill hrefused hi] at hlo hhi
    exact h.bytes_fill hshown hrefused hdata hi hlo hhi

end Shown

/-! ## Main result -/

/-- In every run the packets accepted occupy consecutive slots from slot 0 on, and the next call is
safe. -/
theorem sendSafe_of_run {mem : Memory} {regs : ℕ → ℕ} {acts : List TxAct}
    (hrun : Run (Step blocks) (start mem regs blocks) acts w) :
    w.slots = (List.range w.slots.length).map (· % numDesc) ∧
      ∀ data len, SendSafe w data len :=
  ⟨(sound_of_run hrun).consecutive, (sound_of_run hrun).sendSafe⟩

/-- Blocks one behind the other, given out by an allocator that writes nothing. -/
def plainBlocks : TxBlocks where
  toBuffers := Buffers.consecutive 0x200000
  ring := 0x100000
  ringApart := by
    intro i hi
    simp only [Buffers.consecutive, bufferSize]
    omega
  addr_lt := by
    intro i hi
    simp only [Buffers.consecutive, bufferSize, numDesc] at hi ⊢
    omega
  alloc := fun _ m => m
  allocKeeps := fun _ _ _ _ _ => rfl

/-- One packet is accepted. -/
theorem sendSafe_of_run_send :
    let w := (start (fun _ => 0) (fun _ => 0) plainBlocks).send 0x5000 64
    w.slots = [0] ∧ ∀ data len, SendSafe w data len := by
  intro w
  have hrun : Run (Step plainBlocks) (start (fun _ => 0) (fun _ => 0) plainBlocks)
      [.send 0x5000 64] w := .single (.send _ _ _)
  have haccepted : ¬ (start (fun _ => 0) (fun _ => 0) plainBlocks).driver.Refuses 64 :=
    not_or.2 ⟨by decide, not_not.2 (done_start _ _ _ (by decide))⟩
  have hslots : w.slots = [0] := congrArg TxSlots.slots (send_of_accepted haccepted)
  exact ⟨hslots, (sendSafe_of_run hrun).2⟩

end TxSlots

end Orionis.E1000
