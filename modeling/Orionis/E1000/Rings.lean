import Orionis.Foundations.ByteMemory

/-!
# The descriptor rings of `e1000.cpp`

A transmit and a receive ring of 32 descriptors, each with a buffer of its own page, and
the head and tail registers of the card. The card works on the descriptors from head up to
but not including tail, and sets the DD bit of each one it is done with.

The descriptors lie in a page of their own and are a table here. Console output and the
setup of the card besides the rings are left out.
-/

namespace Orionis.E1000

open Orionis.Foundations

/-- `NUM_RX_DESC` and `NUM_TX_DESC`. -/
def numDesc : ℕ := 32

/-- The largest packet of `e1000_send_packet`, and the buffer size set in `RCTL`. -/
def maxFrame : ℕ := 2048

/-- The size of the blocks `buddy_alloc` returns for the buffers. -/
def bufferSize : ℕ := 4096

/-- The DD bit of a descriptor status. -/
def statusDD : UInt8 := 0x01

/-- A status in which the card has set the bit. -/
theorem done_of_set (status : UInt8) : (status ||| statusDD) &&& statusDD ≠ 0 := by
  have hself : (status ||| statusDD) &&& statusDD = statusDD := by
    apply UInt8.toBitVec_inj.1
    ext i
    simp only [UInt8.toBitVec_and, UInt8.toBitVec_or, BitVec.getElem_and, BitVec.getElem_or]
    grind
  rw [hself]
  decide

/-- `EOP` and `RS`. -/
def cmdSend : UInt8 := 0x01 ||| 0x08

/-- `struct e1000_rx_desc`, the fields in use. -/
structure E1000RxDesc where
  addr : ℕ
  length : ℕ
  status : UInt8
  deriving DecidableEq, Repr

/-- `struct e1000_tx_desc`, the fields in use. -/
structure E1000TxDesc where
  addr : ℕ
  length : ℕ
  cmd : UInt8
  status : UInt8
  deriving DecidableEq, Repr

/-- Buffers that `buddy_alloc` handed out: no two of them meet. -/
structure Buffers where
  addr : ℕ → ℕ
  apart : ∀ i j, i < numDesc → j < numDesc → i ≠ j →
    addr i + bufferSize ≤ addr j ∨ addr j + bufferSize ≤ addr i

/-- Pages one behind the other. -/
def Buffers.consecutive (first : ℕ) : Buffers where
  addr := fun i => first + bufferSize * i
  apart := by
    intro i j _ _ hij
    simp only [bufferSize]
    omega

/-! ## Transmission -/

/-- The transmit globals, the memory, and the registers `TDH` and `TDT`. -/
structure TxRing where
  mem : Memory
  txDescs : ℕ → E1000TxDesc
  txBuffers : ℕ → ℕ
  txCur : ℕ
  tdh : ℕ
  tdt : ℕ

/-- The transmit ring as `e1000_init` sets it up. -/
def TxRing.init (mem : Memory) (bufs : Buffers) : TxRing where
  mem := mem
  txDescs := fun i => { addr := bufs.addr i, length := 0, cmd := 0, status := statusDD }
  txBuffers := bufs.addr
  txCur := 0
  tdh := 0
  tdt := 0

/-- `e1000_send_packet`. The register written at the end is `TDH`. -/
def e1000SendPacket (r : TxRing) (data : List UInt8) : Bool × TxRing :=
  if data.length = 0 ∨ data.length > maxFrame then (false, r)
  else
    let desc := r.txDescs r.txCur
    if desc.status &&& statusDD = 0 then (false, r)
    else
      let desc := { desc with length := data.length, cmd := cmdSend, status := 0 }
      let txCur := (r.txCur + 1) % numDesc
      (true, { r with
        mem := storeBytes r.mem (r.txBuffers r.txCur) data
        txDescs := Function.update r.txDescs r.txCur desc
        txCur := txCur
        tdh := txCur })

/-- The card transmits the descriptor at `TDH`. -/
def TxRing.transmit (r : TxRing) : List UInt8 × TxRing :=
  let desc := r.txDescs r.tdh
  (loadBytes r.mem desc.length desc.addr,
    { r with
      txDescs := Function.update r.txDescs r.tdh { desc with status := desc.status ||| statusDD }
      tdh := (r.tdh + 1) % numDesc })

/-! ## Reception -/

/-- The receive globals, the memory, and the registers `RDH` and `RDT`. -/
structure RxRing where
  mem : Memory
  rxDescs : ℕ → E1000RxDesc
  rxBuffers : ℕ → ℕ
  rxCur : ℕ
  rdh : ℕ
  rdt : ℕ

/-- The receive ring as `e1000_init` sets it up. -/
def RxRing.init (mem : Memory) (bufs : Buffers) : RxRing where
  mem := mem
  rxDescs := fun i => { addr := bufs.addr i, length := 0, status := 0 }
  rxBuffers := bufs.addr
  rxCur := 0
  rdh := 0
  rdt := numDesc - 1

/-- The card stores a frame in the descriptor at `RDH`. -/
def RxRing.store (r : RxRing) (frame : List UInt8) : RxRing :=
  let desc := r.rxDescs r.rdh
  { r with
    mem := storeBytes r.mem desc.addr frame
    rxDescs := Function.update r.rxDescs r.rdh
      { desc with length := frame.length, status := desc.status ||| statusDD }
    rdh := (r.rdh + 1) % numDesc }

/-- The receive causes of `ICR` that `e1000_handle_interrupt` looks for. -/
def rxCause (icr : UInt32) : Bool := icr &&& (0x01 ||| 0x02) != 0

/-- The handler's next descriptor has been filled by the card. -/
def RxRing.done (r : RxRing) : Bool := (r.rxDescs r.rxCur).status &&& statusDD != 0

/-- The frame the handler reads: `len` bytes of `packet_data`. -/
def RxRing.packet (r : RxRing) : List UInt8 :=
  loadBytes r.mem (r.rxDescs r.rxCur).length (r.rxBuffers r.rxCur)

/-- The end of a round of its loop up to the write of `RDT`. -/
def RxRing.recycle (r : RxRing) : RxRing :=
  { r with
    rxDescs := Function.update r.rxDescs r.rxCur { r.rxDescs r.rxCur with status := 0 }
    rxCur := (r.rxCur + 1) % numDesc }

/-- Where `e1000_handle_interrupt` is: at the head of its loop, or about to write `RDT`,
each with the `RDH` it has read. -/
inductive Handler
  | idle
  | loop (currentRdh : ℕ)
  | publish (currentRdh : ℕ)
  deriving DecidableEq, Repr

end Orionis.E1000
