import Mathlib.Data.List.Basic
import Orionis.Foundations.Run
import Orionis.Virtio.Queue

/-!
# The network driver and its device

The driver sends packets and handles interrupts; the device returns descriptors. They share
the queues and interleave freely: the device writes a used entry and announces it in two
steps, the handler reads each device index and processes each entry in a step of its own.

Next to each queue stands what happened on it: the descriptors the device owns, the entries
it has announced, and those the handler has processed. The program does not see this
record.
-/

namespace Orionis.Virtio

open Orionis.Foundations

/-- A descriptor the device owns, as it was when it was posted. -/
structure Posting where
  id : ℕ
  addr : ℕ
  len : ℕ
  flags : ℕ
  deriving DecidableEq, Repr

/-- A descriptor the device returned, with the address it carried. -/
structure Completion where
  elem : VirtqUsedElem
  addr : ℕ
  deriving DecidableEq, Repr

/-- A queue and its history. -/
structure Lane where
  q : Virtq
  /-- Posted and not returned. -/
  posted : List Posting
  /-- Written to the used ring and not announced. -/
  pending : Option Completion
  /-- Announced, from the first on. -/
  completed : List Completion
  /-- Processed by the handler. -/
  taken : List VirtqUsedElem
  /-- The buffers the handler has read packets from. -/
  read : List ℕ
  /-- How many entries were announced when the handler last read the device index. -/
  seen : ℕ

namespace Lane

/-- The descriptors posted and not reclaimed: with the device, or in the used ring. -/
def inFlight (l : Lane) : List ℕ :=
  l.posted.map (·.id) ++ l.pending.toList.map (·.elem.id) ++
    (l.completed.drop l.taken.length).map (·.elem.id)

/-- The device writes an entry for a descriptor it owns into its next slot. -/
def deviceWrite (l : Lane) (elem : VirtqUsedElem) : Lane :=
  { l with
    q := { l.q with usedRing := Function.update l.q.usedRing (l.q.deviceIdx % l.q.num) elem }
    posted := l.posted.eraseP (·.id = elem.id)
    pending := some ⟨elem, (l.q.desc elem.id).addr⟩ }

/-- The device announces the entry it has written. -/
def devicePublish (l : Lane) (c : Completion) : Lane :=
  { l with
    q := { l.q with deviceIdx := (l.q.deviceIdx + 1) % 2 ^ 16 }
    pending := none
    completed := l.completed ++ [c] }

/-- The handler reads the device index. -/
def look (l : Lane) : Lane := { l with seen := l.completed.length }

/-- A packet goes out: the descriptor `virtq_add_buf` takes is the device's now. -/
def send (l : Lane) (sent : Bool) (q : Virtq) (addr len : ℕ) : Lane :=
  { l with
    q := q
    posted := if sent then l.posted ++ [⟨l.q.freeHead, addr, len, 0⟩] else l.posted }

/-- The handler takes back a sent packet. -/
def reclaim (l : Lane) : Lane :=
  { l with q := reclaimTx l.q, taken := l.taken ++ [nextUsed l.q] }

/-- The handler takes a received packet and posts a buffer in its place. -/
def receive (l : Lane) : Lane :=
  { l with
    q := receiveRx l.q
    posted := l.posted ++ [⟨l.q.freeHead, packetData l.q, bufferSize, descWrite⟩]
    taken := l.taken ++ [nextUsed l.q]
    read := l.read ++ [packetData l.q] }

end Lane

/-- The two queues. -/
inductive Side
  | rx
  | tx
  deriving DecidableEq, Repr

/-- Driver, device and memory. -/
structure World where
  mem : Memory
  rx : Lane
  tx : Lane
  irq : Irq

namespace World

/-- One of the two queues. -/
def lane (w : World) : Side → Lane
  | .rx => w.rx
  | .tx => w.tx

/-- Replace one of the two queues. -/
def set (w : World) (side : Side) (l : Lane) : World :=
  match side with
  | .rx => { w with rx := l }
  | .tx => { w with tx := l }

/-- After a successful `virtio_net_init`: the receive buffers are posted, the transmit queue
is empty. -/
def start (mem : Memory) (rxMaxSize txMaxSize : ℕ) (bufs : ℕ → ℕ) : World where
  mem := mem
  rx :=
    { q := fillRx bufs (virtqAlloc 0 numDesc rxMaxSize) numDesc
      posted := (List.range numDesc).map fun i =>
        ⟨(fillRx bufs (virtqAlloc 0 numDesc rxMaxSize) i).freeHead, bufs i, bufferSize, descWrite⟩
      pending := none
      completed := []
      taken := []
      read := []
      seen := 0 }
  tx :=
    { q := virtqAlloc 1 numDesc txMaxSize
      posted := []
      pending := none
      completed := []
      taken := []
      read := []
      seen := 0 }
  irq := .idle

end World

/-- What can happen next. -/
inductive Event
  | send (txBuffer : ℕ) (data : List UInt8)
  | deviceWrite (side : Side) (elem : VirtqUsedElem)
  | devicePublish (side : Side)
  | interrupt (isrStatus : UInt8)
  | handler
  deriving DecidableEq, Repr

/-- The handler's next step, if it runs. -/
def handlerStep (w : World) : Option World :=
  match w.irq with
  | .idle => none
  | .readTx => some { w with tx := w.tx.look, irq := .readRx w.tx.q.deviceIdx }
  | .readRx tx => some { w with rx := w.rx.look, irq := .reclaim tx w.rx.q.deviceIdx }
  | .reclaim tx rx =>
    if w.tx.q.usedIdx ≠ tx then some { w with tx := w.tx.reclaim }
    else some { w with irq := .receive rx }
  | .receive rx =>
    if w.rx.q.usedIdx ≠ rx then some { w with rx := w.rx.receive }
    else some { w with irq := .idle }

/-- What the event makes of the state. -/
def World.step (w : World) : Event → Option World
  | .send txBuffer data =>
    let sent := virtioNetSendPacket w.mem w.tx.q txBuffer data
    some { w with
      mem := sent.2.1
      tx := w.tx.send sent.1 sent.2.2 txBuffer ((10 + data.length) % 2 ^ 16) }
  | .deviceWrite side elem =>
    if (w.lane side).pending = none then some (w.set side ((w.lane side).deviceWrite elem))
    else none
  | .devicePublish side =>
    (w.lane side).pending.map fun c => w.set side ((w.lane side).devicePublish c)
  | .interrupt isrStatus =>
    if w.irq = .idle then some { w with irq := if isrQueue isrStatus then .readTx else .idle }
    else none
  | .handler => handlerStep w

/-- One event. -/
def WorldStep (w : World) (e : Event) (w' : World) : Prop := w.step e = some w'

/-- The device returns descriptors it owns. -/
def ReturnsPosted (w : World) : Event → Prop
  | .deviceWrite side elem => ∃ p ∈ (w.lane side).posted, p.id = elem.id
  | _ => True

instance (w : World) : (e : Event) → Decidable (ReturnsPosted w e)
  | .deviceWrite side elem =>
    inferInstanceAs (Decidable (∃ p ∈ (w.lane side).posted, p.id = elem.id))
  | .send _ _ | .devicePublish _ | .interrupt _ | .handler => isTrue trivial

/-! ## What a step does to one queue -/

/-- The device index the handler compares this queue with, while it does. -/
def Irq.target : Irq → Side → Option ℕ
  | .readRx tx, .tx => some tx
  | .reclaim tx _, .tx => some tx
  | .reclaim _ rx, .rx => some rx
  | .receive rx, .rx => some rx
  | _, _ => none

/-- One queue, and the device index the handler compares it with. -/
inductive LaneStep (side : Side) : Event → Lane → Option ℕ → Lane → Option ℕ → Prop
  | stay {e : Event} {l : Lane} {t : Option ℕ} : LaneStep side e l t l t
  | send {l : Lane} {t : Option ℕ} {mem mem' : Memory} {txBuffer : ℕ} {data : List UInt8}
      {sent : Bool} {q : Virtq} (hside : side = .tx)
      (hcall : virtioNetSendPacket mem l.q txBuffer data = (sent, mem', q)) :
      LaneStep side (.send txBuffer data) l t
        (l.send sent q txBuffer ((10 + data.length) % 2 ^ 16)) t
  | deviceWrite {l : Lane} {t : Option ℕ} {elem : VirtqUsedElem} (hpending : l.pending = none) :
      LaneStep side (.deviceWrite side elem) l t (l.deviceWrite elem) t
  | devicePublish {l : Lane} {t : Option ℕ} {c : Completion} (hpending : l.pending = some c) :
      LaneStep side (.devicePublish side) l t (l.devicePublish c) t
  | look {l : Lane} : LaneStep side .handler l none l.look (some l.q.deviceIdx)
  | reclaim {l : Lane} {t : ℕ} (hside : side = .tx) (hne : l.q.usedIdx ≠ t) :
      LaneStep side .handler l (some t) l.reclaim (some t)
  | receive {l : Lane} {t : ℕ} (hside : side = .rx) (hne : l.q.usedIdx ≠ t) :
      LaneStep side .handler l (some t) l.receive (some t)
  | finish {l : Lane} {t : ℕ} (heq : l.q.usedIdx = t) : LaneStep side .handler l (some t) l none

/-- Every event does one of these things to each queue. -/
theorem laneStep_of_step {w w' : World} {e : Event} (h : WorldStep w e w') (side : Side) :
    LaneStep side e (w.lane side) (w.irq.target side) (w'.lane side) (w'.irq.target side) := by
  cases e with
  | send txBuffer data =>
    obtain rfl := Option.some.inj h
    cases side with
    | rx => exact .stay
    | tx => exact .send rfl rfl
  | deviceWrite other elem =>
    obtain ⟨hpending, hw⟩ := Option.ite_none_right_eq_some.1 h
    obtain rfl := Option.some.inj hw
    cases side <;> cases other <;> first | exact .stay | exact .deviceWrite hpending
  | devicePublish other =>
    obtain ⟨c, hpending, rfl⟩ := Option.map_eq_some_iff.1 h
    cases side <;> cases other <;> first | exact .stay | exact .devicePublish hpending
  | interrupt isrStatus =>
    obtain ⟨hidle, hw⟩ := Option.ite_none_right_eq_some.1 h
    obtain rfl := Option.some.inj hw
    rw [hidle]
    cases isrQueue isrStatus <;> cases side <;> exact .stay
  | handler =>
    rw [WorldStep, World.step, handlerStep] at h
    cases hirq : w.irq with
    | idle =>
      rw [hirq] at h
      exact absurd h (by simp)
    | readTx =>
      rw [hirq] at h
      obtain rfl := Option.some.inj h
      cases side with
      | rx => exact .stay
      | tx => exact .look
    | readRx tx =>
      rw [hirq] at h
      obtain rfl := Option.some.inj h
      cases side with
      | rx => exact .look
      | tx => exact .stay
    | reclaim tx rx =>
      rw [hirq] at h
      simp only at h
      split at h
      · next hne =>
        obtain rfl := Option.some.inj h
        cases side with
        | rx => exact .stay
        | tx => exact .reclaim rfl hne
      · next heq =>
        obtain rfl := Option.some.inj h
        cases side with
        | rx => exact .stay
        | tx => exact .finish (not_not.1 heq)
    | receive rx =>
      rw [hirq] at h
      simp only at h
      split at h
      · next hne =>
        obtain rfl := Option.some.inj h
        cases side with
        | rx => exact .receive rfl hne
        | tx => exact .stay
      · next heq =>
        obtain rfl := Option.some.inj h
        cases side with
        | rx => exact .finish (not_not.1 heq)
        | tx => exact .stay

end Orionis.Virtio
