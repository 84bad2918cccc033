import Mathlib.Data.List.Range
import Orionis.Foundations.ByteMemory

/-!
# The virtqueues of `virtio_net.cpp`

A split virtqueue as the driver keeps it: the descriptor table, the available ring the
driver writes, the used ring the device writes, and the driver's own indices. The free
descriptors are chained through their `next` fields. Indices are 16-bit and run freely.

The tables lie on pages of their own and do not overlap, so they are separate functions
here. Addresses are numbers, zero is null. Output to the console is left out.
-/

namespace Orionis.Virtio

open Orionis.Foundations

/-- `NUM_RX_DESC` and `NUM_TX_DESC`. -/
def numDesc : ℕ := 32

/-- `VIRTQ_DESC_F_WRITE`. -/
def descWrite : ℕ := 2

/-- `PAGE_SIZE`, the length of every receive buffer. -/
def bufferSize : ℕ := 4096

/-- `struct virtq_desc`. -/
structure VirtqDesc where
  addr : ℕ
  len : ℕ
  flags : ℕ
  next : ℕ
  deriving DecidableEq, Repr

/-- `struct virtq_used_elem`. -/
structure VirtqUsedElem where
  id : ℕ
  len : ℕ
  deriving DecidableEq, Repr

/-- `struct virtq` with the rings it points to. -/
structure Virtq where
  desc : ℕ → VirtqDesc
  availRing : ℕ → ℕ
  availIdx : ℕ
  usedRing : ℕ → VirtqUsedElem
  /-- `used->idx`, which only the device writes. -/
  deviceIdx : ℕ
  num : ℕ
  queueIdx : ℕ
  freeHead : ℕ
  /-- `used_idx`, how far the driver has come in the used ring. -/
  usedIdx : ℕ
  buffers : ℕ → ℕ

/-! ## Setting a queue up -/

/-- The loop of `virtq_alloc` that chains the descriptors of a zeroed table. -/
def chainDescs (numDescs : ℕ) : ℕ → VirtqDesc :=
  (List.range (numDescs - 1)).foldl
    (fun desc i => Function.update desc i { desc i with next := i + 1 }) fun _ => ⟨0, 0, 0, 0⟩

/-- The queue size `virtq_alloc` settles on. -/
def negotiate (numDescs maxSize : ℕ) : ℕ :=
  if maxSize < numDescs ∧ 0 < maxSize then maxSize else numDescs

/-- The queue `virtq_alloc` returns where its allocations succeed and the device has not
enabled the queue before. -/
def virtqAlloc (qIdx numDescs maxSize : ℕ) : Virtq where
  desc := chainDescs numDescs
  availRing := fun _ => 0
  availIdx := 0
  usedRing := fun _ => ⟨0, 0⟩
  deviceIdx := 0
  num := negotiate numDescs maxSize
  queueIdx := qIdx
  freeHead := 0
  usedIdx := 0
  buffers := fun _ => 0

/-- `virtq_add_buf`. -/
def virtqAddBuf (q : Virtq) (buf len flags : ℕ) : ℤ × Virtq :=
  let headIdx := q.freeHead
  let desc := { q.desc headIdx with addr := buf, len := len, flags := flags }
  (0, { q with
    desc := Function.update q.desc headIdx desc
    freeHead := desc.next
    availRing := Function.update q.availRing (q.availIdx % q.num) headIdx
    availIdx := (q.availIdx + 1) % 2 ^ 16 })

/-- The first `count` rounds of the loop of `virtio_net_init` that fills the receive queue. -/
def fillRx (bufs : ℕ → ℕ) (q : Virtq) : (count : ℕ) → Virtq
  | 0 => q
  | i + 1 =>
    let q := fillRx bufs q i
    let q := { q with buffers := Function.update q.buffers i (bufs i) }
    (virtqAddBuf q (q.buffers i) bufferSize descWrite).2

/-! ## Sending -/

/-- `virtio_net_send_packet`, with the buffer its `buddy_alloc` returned. -/
def virtioNetSendPacket (mem : Memory) (txQ : Virtq) (txBuffer : ℕ) (data : List UInt8) :
    Bool × Memory × Virtq :=
  if data.length = 0 ∨ 1514 < data.length then (false, mem, txQ)
  else
    let totalLen := (10 + data.length) % 2 ^ 16
    if txBuffer = 0 then (false, mem, txQ)
    else
      let mem := storeBytes mem txBuffer (List.replicate 10 0)
      let mem := storeBytes mem (txBuffer + 10) data
      let added := virtqAddBuf txQ txBuffer totalLen 0
      if added.1 ≠ 0 then (false, mem, added.2) else (true, mem, added.2)

/-! ## The interrupt handler -/

/-- The used entry the driver looks at next. -/
def nextUsed (q : Virtq) : VirtqUsedElem := q.usedRing (q.usedIdx % q.num)

/-- One round of the loop over finished transmissions. -/
def reclaimTx (q : Virtq) : Virtq :=
  let descIdx := (nextUsed q).id % 2 ^ 16
  { q with
    desc := Function.update q.desc descIdx { q.desc descIdx with next := q.freeHead }
    freeHead := descIdx
    usedIdx := (q.usedIdx + 1) % 2 ^ 16 }

/-- `packet_data`: the buffer the handler reads the packet from. -/
def packetData (q : Virtq) : ℕ := q.buffers ((nextUsed q).id % 2 ^ 16)

/-- One round of the loop over received packets. -/
def receiveRx (q : Virtq) : Virtq :=
  let added := virtqAddBuf q (packetData q) bufferSize descWrite
  { added.2 with usedIdx := (q.usedIdx + 1) % 2 ^ 16 }

/-- Where `virtio_net_handle_interrupt` is: what it does next, and the device indices it
has read. -/
inductive Irq
  | idle
  | readTx
  | readRx (txDeviceIdx : ℕ)
  | reclaim (txDeviceIdx rxDeviceIdx : ℕ)
  | receive (rxDeviceIdx : ℕ)
  deriving DecidableEq, Repr

/-- The bit of the ISR status that makes the handler look at the queues. -/
def isrQueue (isrStatus : UInt8) : Bool := isrStatus &&& 0x01 != 0

end Orionis.Virtio
