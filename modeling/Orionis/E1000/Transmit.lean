import Mathlib.Data.List.Basic
import Orionis.E1000.Rings
import Orionis.Foundations.Run

/-!
# What the card transmits

`e1000_send_packet` fills the descriptor behind the last one and then writes its index to
`TDH`, the register the card itself counts up. `TDT` stays at zero, so the card is given
every descriptor but the filled ones: the first frame it transmits is the empty one of a
descriptor that was never filled, and after 32 packets it has nothing left to transmit.
-/

namespace Orionis.E1000

open Orionis.Foundations

/-! ## Driver and card -/

/-- The ring, the packets that were accepted, and the frames that were transmitted. -/
structure TxWorld where
  ring : TxRing
  accepted : List (List UInt8)
  transmitted : List (List UInt8)

/-- A call of the driver, or a step of the card. -/
inductive TxEvent
  | send (data : List UInt8)
  | card
  deriving DecidableEq, Repr

namespace TxWorld

/-- After `e1000_init`. -/
def start (mem : Memory) (bufs : Buffers) : TxWorld := ⟨TxRing.init mem bufs, [], []⟩

/-- What a call of `e1000_send_packet` leaves. -/
def send (w : TxWorld) (data : List UInt8) : TxWorld :=
  let sent := e1000SendPacket w.ring data
  { w with ring := sent.2, accepted := if sent.1 then w.accepted ++ [data] else w.accepted }

/-- What the event makes of the state. The card works while its registers differ. -/
def step (w : TxWorld) : TxEvent → Option TxWorld
  | .send data => some (w.send data)
  | .card =>
    if w.ring.tdh ≠ w.ring.tdt then
      some { w with
        ring := w.ring.transmit.2
        transmitted := w.transmitted ++ [w.ring.transmit.1] }
    else none

/-- The card has transmitted accepted packets in order, and all of them once it has no
descriptor left. -/
def Delivers (w : TxWorld) : Prop :=
  w.transmitted <+: w.accepted ∧ (w.ring.tdh = w.ring.tdt → w.transmitted = w.accepted)

end TxWorld

/-- One event. -/
def TxStep (w : TxWorld) (e : TxEvent) (w' : TxWorld) : Prop := w.step e = some w'

/-- A call with a length the driver takes. -/
def TxEvent.valid : TxEvent → Bool
  | .send data => data.length ≠ 0 && data.length ≤ maxFrame
  | .card => false

/-! ## Before the card has worked -/

/-- Nothing has been transmitted and `count` packets have been accepted: the descriptors
behind them are as `e1000_init` left them. -/
structure TxWorld.Filled (w : TxWorld) (count : ℕ) : Prop where
  count_le : count ≤ numDesc
  accepted : w.accepted.length = count
  valid : ∀ p ∈ w.accepted, p ≠ []
  transmitted : w.transmitted = []
  cur : w.ring.txCur = count % numDesc
  head : w.ring.tdh = count % numDesc
  tail : w.ring.tdt = 0
  used : ∀ i < count, (w.ring.txDescs i).status = 0
  unused : ∀ i, count ≤ i → i < numDesc →
    (w.ring.txDescs i).status = statusDD ∧ (w.ring.txDescs i).length = 0

/-- The card has transmitted an empty frame first, which no packet is. -/
structure TxWorld.Spoiled (w : TxWorld) : Prop where
  first : ∃ frames, w.transmitted = [] :: frames
  valid : w.accepted ≠ [] ∧ ∀ p ∈ w.accepted, p ≠ []

section Steps

variable {w w' : TxWorld} {data : List UInt8} {count : ℕ}

/-- What an accepted packet makes of the ring. -/
def TxRing.fill (r : TxRing) (data : List UInt8) : TxRing :=
  { r with
    mem := storeBytes r.mem (r.txBuffers r.txCur) data
    txDescs := Function.update r.txDescs r.txCur
      { r.txDescs r.txCur with length := data.length, cmd := cmdSend, status := 0 }
    txCur := (r.txCur + 1) % numDesc
    tdh := (r.txCur + 1) % numDesc }

/-- A packet is accepted if its length is valid and the next descriptor is done. -/
theorem e1000SendPacket_eq (r : TxRing) (data : List UInt8) :
    e1000SendPacket r data =
      if (TxEvent.send data).valid ∧ (r.txDescs r.txCur).status &&& statusDD ≠ 0 then
        (true, r.fill data)
      else (false, r) := by
  have hvalid : (TxEvent.send data).valid ↔ ¬ (data.length = 0 ∨ data.length > maxFrame) := by
    simp [TxEvent.valid]
  rw [e1000SendPacket]
  by_cases hlen : data.length = 0 ∨ data.length > maxFrame
  · rw [if_pos hlen, if_neg (fun h => hvalid.1 h.1 hlen)]
  · rw [if_neg hlen]
    by_cases hdone : (r.txDescs r.txCur).status &&& statusDD = 0
    · simp only [if_pos hdone]
      rw [if_neg (fun h => h.2 hdone)]
    · simp only [if_neg hdone]
      rw [if_pos ⟨hvalid.2 hlen, hdone⟩]
      rfl

/-- A packet is accepted where it is valid and its descriptor done. -/
theorem TxWorld.send_of_accepted (h : (TxEvent.send data).valid ∧
    (w.ring.txDescs w.ring.txCur).status &&& statusDD ≠ 0) :
    w.send data = { w with ring := w.ring.fill data, accepted := w.accepted ++ [data] } := by
  rw [TxWorld.send, e1000SendPacket_eq, if_pos h]
  rfl

/-- Otherwise it changes nothing. -/
theorem TxWorld.send_of_refused (h : ¬ ((TxEvent.send data).valid ∧
    (w.ring.txDescs w.ring.txCur).status &&& statusDD ≠ 0)) : w.send data = w := by
  rw [TxWorld.send, e1000SendPacket_eq, if_neg h]
  rfl

/-- No descriptor is filled at the start. -/
theorem TxWorld.filled_start (mem : Memory) (bufs : Buffers) : (start mem bufs).Filled 0 :=
  ⟨Nat.zero_le _, rfl, by simp [start], rfl, rfl, rfl, rfl, fun i hi => absurd hi (by omega),
    fun _ _ _ => ⟨rfl, rfl⟩⟩

/-- Packets are accepted until all descriptors are filled. -/
theorem TxWorld.Filled.send (h : w.Filled count) (data : List UInt8) :
    (w.send data).Filled (min numDesc (count + if (TxEvent.send data).valid then 1 else 0)) := by
  have hle := h.count_le
  by_cases hvalid : (TxEvent.send data).valid
  · rw [if_pos hvalid]
    by_cases hfull : count = numDesc
    · -- the next descriptor is the first one, which is not done
      have hbusy : (w.ring.txDescs w.ring.txCur).status = 0 := by
        rw [h.cur, hfull, Nat.mod_self]
        exact h.used 0 (by rw [hfull]; decide)
      rw [send_of_refused (by simp [hbusy]), Nat.min_eq_left (by omega), ← hfull]
      exact h
    · have hlt : count < numDesc := by omega
      have hslot : count % numDesc = count := Nat.mod_eq_of_lt hlt
      have hdone : (w.ring.txDescs w.ring.txCur).status &&& statusDD ≠ 0 := by
        rw [h.cur, hslot, (h.unused count le_rfl hlt).1]
        decide
      rw [send_of_accepted ⟨hvalid, hdone⟩, Nat.min_eq_right (by omega)]
      have hne : data ≠ [] := by
        intro hnil
        rw [hnil] at hvalid
        cases hvalid
      have hnext : (w.ring.txCur + 1) % numDesc = (count + 1) % numDesc := by
        rw [h.cur, hslot]
      refine ⟨by omega, by simp [h.accepted], ?_, h.transmitted, hnext, hnext, h.tail, ?_, ?_⟩
      · intro p hp
        cases List.mem_append.1 hp with
        | inl hold => exact h.valid p hold
        | inr hnew => exact List.mem_singleton.1 hnew ▸ hne
      · intro i hi
        simp only [TxRing.fill, h.cur, hslot]
        by_cases hic : i = count
        · rw [hic, Function.update_self]
        · rw [Function.update_of_ne hic]
          exact h.used i (by omega)
      · intro i hlo hhi
        simp only [TxRing.fill, h.cur, hslot]
        rw [Function.update_of_ne (by omega)]
        exact h.unused i (by omega) hhi
  · rw [if_neg hvalid, send_of_refused (fun h => hvalid h.1), Nat.add_zero, Nat.min_eq_right hle]
    exact h

/-- The card starts behind the filled descriptors. -/
theorem TxWorld.Filled.card (h : w.Filled count) (hstep : TxStep w .card w') : w'.Spoiled := by
  obtain ⟨hwork, heq⟩ := Option.ite_none_right_eq_some.1 hstep
  obtain rfl := Option.some.inj heq
  rw [h.head, h.tail] at hwork
  have hlt : count < numDesc := by
    apply lt_of_le_of_ne h.count_le
    intro hfull
    rw [hfull, Nat.mod_self] at hwork
    exact hwork rfl
  rw [Nat.mod_eq_of_lt hlt] at hwork
  have hempty : w.ring.transmit.1 = [] := by
    have hlength : (w.ring.txDescs count).length = 0 := (h.unused count le_rfl hlt).2
    rw [TxRing.transmit, h.head, Nat.mod_eq_of_lt hlt]
    simp only [hlength, loadBytes]
  refine ⟨⟨[], by simp [h.transmitted, hempty]⟩, ?_, h.valid⟩
  intro hnone
  rw [← h.accepted, hnone] at hwork
  exact hwork rfl

/-- What was transmitted first stays first. -/
theorem TxWorld.Spoiled.step (h : w.Spoiled) {e : TxEvent} (hstep : TxStep w e w') :
    w'.Spoiled := by
  obtain ⟨⟨frames, hfirst⟩, hsome, hvalid⟩ := h
  cases e with
  | send data =>
    obtain rfl := Option.some.inj hstep
    by_cases haccept : (TxEvent.send data).valid ∧
        (w.ring.txDescs w.ring.txCur).status &&& statusDD ≠ 0
    · rw [send_of_accepted haccept]
      refine ⟨⟨frames, hfirst⟩, by simp, ?_⟩
      intro p hp
      cases List.mem_append.1 hp with
      | inl hold => exact hvalid p hold
      | inr hnew =>
        intro hnil
        rw [← List.mem_singleton.1 hnew, hnil] at haccept
        cases haccept.1
    · rw [send_of_refused haccept]
      exact ⟨⟨frames, hfirst⟩, hsome, hvalid⟩
  | card =>
    obtain ⟨-, heq⟩ := Option.ite_none_right_eq_some.1 hstep
    obtain rfl := Option.some.inj heq
    exact ⟨⟨frames ++ [w.ring.transmit.1], by simp [hfirst]⟩, hsome, hvalid⟩

/-- While the card has not worked, deliveries are only missing once it never will. -/
theorem TxWorld.Filled.delivers_iff (h : w.Filled count) : w.Delivers ↔ count < numDesc := by
  have hle := h.count_le
  rw [Delivers, h.transmitted, h.head, h.tail, and_iff_right List.nil_prefix]
  constructor
  · intro hall
    by_contra hfull
    have hcount : count = numDesc := by omega
    have hnone := hall (by rw [hcount, Nat.mod_self])
    have hlength := h.accepted
    rw [← hnone, hcount] at hlength
    cases hlength
  · intro hlt hzero
    rw [Nat.mod_eq_of_lt hlt] at hzero
    exact (List.length_eq_zero_iff.1 (h.accepted.trans hzero)).symm

/-- An empty frame was never a packet. -/
theorem TxWorld.Spoiled.not_delivers (h : w.Spoiled) : ¬ w.Delivers := by
  intro hdeliver
  obtain ⟨⟨frames, hfirst⟩, hsome, hvalid⟩ := h
  obtain ⟨rest, hrest⟩ := hdeliver.1
  rw [hfirst] at hrest
  exact hvalid [] (by rw [← hrest]; simp) rfl

end Steps

/-! ## Main result -/

/-- The card has worked and the order is spoiled, or it has not and the descriptors are
filled one after the other. -/
theorem TxWorld.cases_of_run {mem : Memory} {bufs : Buffers} {events : List TxEvent} {w : TxWorld}
    (hrun : Run TxStep (start mem bufs) events w) :
    (.card ∉ events ∧ w.Filled (min numDesc (events.countP TxEvent.valid))) ∨
      (.card ∈ events ∧ w.Spoiled) := by
  induction hrun with
  | nil => exact Or.inl ⟨by simp, filled_start mem bufs⟩
  | snoc _ he ih =>
    rename_i u v events e _
    cases ih with
    | inl hfilled =>
      obtain ⟨hnone, hfilled⟩ := hfilled
      cases e with
      | send data =>
        left
        obtain rfl := Option.some.inj he
        have hsend := hfilled.send data
        refine ⟨by simp [hnone], ?_⟩
        rw [List.countP_append, List.countP_singleton]
        convert hsend using 1
        omega
      | card => exact Or.inr ⟨by simp, hfilled.card he⟩
    | inr hspoiled => exact Or.inr ⟨by simp [hspoiled.1], hspoiled.2.step he⟩

/-- Delivery holds exactly until the card first works or the 32nd packet is accepted. -/
theorem TxWorld.delivers_iff_of_run {mem : Memory} {bufs : Buffers} {events : List TxEvent}
    {w : TxWorld} (hrun : Run TxStep (start mem bufs) events w) :
    w.Delivers ↔ .card ∉ events ∧ events.countP TxEvent.valid < numDesc := by
  cases cases_of_run hrun with
  | inl hfilled =>
    rw [hfilled.2.delivers_iff, and_iff_right hfilled.1]
    omega
  | inr hspoiled =>
    constructor
    · exact fun hdeliver => absurd hdeliver hspoiled.2.not_delivers
    · exact fun hnone => absurd hspoiled.1 hnone.1

/-- A packet is accepted and the card has not worked yet. -/
theorem TxWorld.delivers_iff_of_run_send :
    ∃ w : TxWorld, w.accepted = [[1, 2]] ∧ w.Delivers := by
  have hrun : ∃ w, Run TxStep (start (fun _ => 0) (.consecutive 0x100000)) [.send [1, 2]] w ∧
      w.accepted = [[1, 2]] := ⟨_, .single rfl, rfl⟩
  obtain ⟨w, hrun, haccepted⟩ := hrun
  exact ⟨w, haccepted, (delivers_iff_of_run hrun).2 (by decide)⟩

/-- The card transmits an empty frame in place of the packet. -/
theorem TxWorld.not_delivers_card : ∃ w, Run TxStep (start (fun _ => 0) (.consecutive 0x100000))
    [.send [1, 2], .card] w ∧ w.transmitted = [[]] ∧ ¬ w.Delivers := by
  have hrun : ∃ w, Run TxStep (start (fun _ => 0) (.consecutive 0x100000))
      [.send [1, 2], .card] w ∧ w.transmitted = [[]] ∧ w.accepted = [[1, 2]] :=
    ⟨_, .cons rfl (.single rfl), rfl, rfl⟩
  obtain ⟨w, hrun, htransmitted, haccepted⟩ := hrun
  refine ⟨w, hrun, htransmitted, ?_⟩
  intro hdeliver
  have hpre := hdeliver.1
  rw [htransmitted, haccepted] at hpre
  exact absurd hpre (by decide)

end Orionis.E1000
