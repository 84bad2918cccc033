import Orionis.Mem.BuddyHeap
import Orionis.Virtio.World

/-!
# The blocks behind sent packets

Every packet that is accepted takes a block from the buddy allocator. The handler that finds the
packet acknowledged puts its descriptor back on the free chain and leaves the block where it is:
the call that would free it is commented out. The driver holds as many blocks as there are packets
on the way in exactly those runs in which no packet is ever acknowledged.
-/

namespace Orionis.Virtio

open Orionis.Foundations Orionis.Mem

/-! ## Driver and allocator -/

/-- The driver with the allocator it takes its blocks from. -/
structure Machine where
  heap : Heap
  world : World
  /-- How many packets `virtio_net_send_packet` has returned true for. -/
  accepted : ℕ

/-- What can happen next: a call of `virtio_net_send_packet`, or a step of the device or of the
interrupt handler. -/
inductive MachineEvent
  | send (data : List UInt8)
  | other (e : Event)
  deriving DecidableEq, Repr

/-- The event is a send of the world, with a block from elsewhere. -/
def Event.isSend : Event → Bool
  | .send _ _ => true
  | _ => false

namespace Machine

/-- After a successful `virtio_net_init`, which leaves the allocator as `heap`. -/
def start (heap : Heap) (rxMaxSize txMaxSize : ℕ) (bufs : ℕ → ℕ) : Machine where
  heap := heap
  world := World.start heap.buddy.mem rxMaxSize txMaxSize bufs
  accepted := 0

/-- A send asks for its block behind the check of the length; nothing else calls the allocator.
The memory is that of the allocator. -/
def step (m : Machine) : MachineEvent → Option Machine
  | .send data =>
    if data.length = 0 ∨ 1514 < data.length then some m
    else
      (buddyAlloc m.heap.buddy 1).bind fun alloc =>
        let (txBuffer, buddy) := alloc
        let sent := virtioNetSendPacket buddy.mem m.world.tx.q txBuffer data
        (World.step { m.world with mem := buddy.mem } (.send txBuffer data)).map fun world =>
          { heap :=
              { buddy := { buddy with mem := world.mem }
                out := if txBuffer = 0 then m.heap.out else ⟨txBuffer, 1⟩ :: m.heap.out }
            world := world
            accepted := if sent.1 then m.accepted + 1 else m.accepted }
  | .other e =>
    if e.isSend then none
    else (World.step m.world e).map fun world =>
      { m with
        heap := { m.heap with buddy := { m.heap.buddy with mem := world.mem } }
        world := world }

/-- The acknowledged packets: the entries of the used ring that the handler has processed. -/
def acknowledged (m : Machine) : ℕ := m.world.tx.taken.length

/-- Since the start the driver has kept a block for every packet that is accepted and not
acknowledged, and with every packet acknowledged as many pages are used as at the start. -/
structure Conserved (m₀ m : Machine) : Prop where
  blocks : m.heap.out.length + m.acknowledged = m₀.heap.out.length + m.accepted
  used : m.acknowledged = m.accepted →
    buddyGetUsedPages m.heap.buddy = buddyGetUsedPages m₀.heap.buddy

end Machine

/-- One event. -/
def MachineStep (m : Machine) (e : MachineEvent) (m' : Machine) : Prop := m.step e = some m'

/-- The handler has come to an entry of the used ring of the transmit queue. -/
def World.AtReclaim (w : World) : Prop :=
  ∃ txDeviceIdx rxDeviceIdx, w.irq = .reclaim txDeviceIdx rxDeviceIdx ∧
    w.tx.q.usedIdx ≠ txDeviceIdx

/-- The step acknowledges no packet. -/
def AcknowledgesNone (m : Machine) (e : MachineEvent) : Prop :=
  e = .other .handler → ¬ m.world.AtReclaim

/-! ## One step -/

/-- The handler processes an entry of the transmit queue where it has come to one, and none
elsewhere. -/
theorem taken_of_handlerStep {w w' : World} (h : handlerStep w = some w') :
    w.AtReclaim ∧ w'.tx.taken.length = w.tx.taken.length + 1 ∨
      ¬ w.AtReclaim ∧ w'.tx.taken.length = w.tx.taken.length := by
  rw [handlerStep] at h
  cases hirq : w.irq with
  | idle =>
    rw [hirq] at h
    cases h
  | readTx =>
    rw [hirq] at h
    obtain rfl := Option.some.inj h
    refine .inr ⟨?_, rfl⟩
    rintro ⟨_, _, hat, -⟩
    cases hirq.symm.trans hat
  | readRx tx =>
    rw [hirq] at h
    obtain rfl := Option.some.inj h
    refine .inr ⟨?_, rfl⟩
    rintro ⟨_, _, hat, -⟩
    cases hirq.symm.trans hat
  | reclaim tx rx =>
    rw [hirq] at h
    dsimp only at h
    split at h
    · next hne =>
      obtain rfl := Option.some.inj h
      exact .inl ⟨⟨tx, rx, hirq, hne⟩, List.length_append⟩
    · next heq =>
      obtain rfl := Option.some.inj h
      refine .inr ⟨?_, rfl⟩
      rintro ⟨_, _, hat, hne⟩
      obtain ⟨rfl, -⟩ := Irq.reclaim.inj (hirq.symm.trans hat)
      exact heq hne
  | receive rx =>
    rw [hirq] at h
    dsimp only at h
    have hnot : ¬ w.AtReclaim := by
      rintro ⟨_, _, hat, -⟩
      cases hirq.symm.trans hat
    split at h
    · obtain rfl := Option.some.inj h
      exact .inr ⟨hnot, rfl⟩
    · obtain rfl := Option.some.inj h
      exact .inr ⟨hnot, rfl⟩

/-- A step of the world that is no send processes one entry of the transmit queue, or none. -/
theorem taken_of_step {w w' : World} {e : Event} (hsend : e.isSend = false) (h : WorldStep w e w') :
    (e = .handler ∧ w.AtReclaim) ∧ w'.tx.taken.length = w.tx.taken.length + 1 ∨
      ¬ (e = .handler ∧ w.AtReclaim) ∧ w'.tx.taken.length = w.tx.taken.length := by
  cases e with
  | send txBuffer data => cases hsend
  | deviceWrite side elem =>
    obtain ⟨-, hw⟩ := Option.ite_none_right_eq_some.1 h
    obtain rfl := Option.some.inj hw
    exact .inr ⟨fun hand => Event.noConfusion hand.1, by cases side <;> rfl⟩
  | devicePublish side =>
    obtain ⟨c, -, rfl⟩ := Option.map_eq_some_iff.1 h
    exact .inr ⟨fun hand => Event.noConfusion hand.1, by cases side <;> rfl⟩
  | interrupt isrStatus =>
    obtain ⟨-, hw⟩ := Option.ite_none_right_eq_some.1 h
    obtain rfl := Option.some.inj hw
    exact .inr ⟨fun hand => Event.noConfusion hand.1, rfl⟩
  | handler =>
    rcases taken_of_handlerStep h with ⟨hat, hlength⟩ | ⟨hat, hlength⟩
    · exact .inl ⟨⟨rfl, hat⟩, hlength⟩
    · exact .inr ⟨fun hand => hat hand.2, hlength⟩

namespace Machine

/-- A packet of a good length is accepted where there is a block for it. -/
theorem accepted_iff {mem : Memory} {q : Virtq} {txBuffer : ℕ} {data : List UInt8}
    (hlength : ¬ (data.length = 0 ∨ 1514 < data.length)) :
    (virtioNetSendPacket mem q txBuffer data).1 = true ↔ txBuffer ≠ 0 := by
  rw [virtioNetSendPacket, if_neg hlength]
  dsimp only
  by_cases hnull : txBuffer = 0
  · rw [if_pos hnull]
    exact iff_of_false Bool.false_ne_true (not_not.2 hnull)
  · rw [if_neg hnull]
    exact iff_of_true rfl hnull

/-- What a step does to the blocks, the counts and the pages. -/
structure Moves (m m' : Machine) : Prop where
  blocks : m'.heap.out.length + m.accepted = m.heap.out.length + m'.accepted
  accepted_le : m.accepted ≤ m'.accepted
  used : m'.accepted = m.accepted → m'.heap.buddy.buddyUsedPages = m.heap.buddy.buddyUsedPages

/-- Every event moves the machine on. -/
theorem moves_of_step {m m' : Machine} {e : MachineEvent} (h : MachineStep m e m') :
    Moves m m' := by
  cases e with
  | send data =>
    rw [MachineStep, step] at h
    by_cases hlength : data.length = 0 ∨ 1514 < data.length
    · rw [if_pos hlength] at h
      obtain rfl := Option.some.inj h
      exact ⟨rfl, le_rfl, fun _ => rfl⟩
    rw [if_neg hlength] at h
    obtain ⟨⟨txBuffer, buddy⟩, halloc, hrest⟩ := Option.bind_eq_some_iff.1 h
    obtain ⟨world, -, rfl⟩ := Option.map_eq_some_iff.1 hrest
    have haccepted := @accepted_iff buddy.mem m.world.tx.q txBuffer data hlength
    by_cases hnull : txBuffer = 0
    · subst hnull
      obtain rfl := eq_of_buddyAlloc_null halloc
      have hrefused := mt haccepted.1 (not_not.2 rfl)
      constructor
      · dsimp only
        rw [if_pos rfl, if_neg hrefused]
      · dsimp only
        rw [if_neg hrefused]
      · exact fun _ => rfl
    · have hsent := haccepted.2 hnull
      constructor
      · dsimp only
        rw [if_neg hnull, if_pos hsent, List.length_cons]
        omega
      · dsimp only
        rw [if_pos hsent]
        exact Nat.le_succ _
      · intro hsame
        dsimp only at hsame
        rw [if_pos hsent] at hsame
        omega
  | other e =>
    obtain ⟨-, hrest⟩ := Option.ite_none_left_eq_some.1 h
    obtain ⟨world, -, rfl⟩ := Option.map_eq_some_iff.1 hrest
    exact ⟨rfl, le_rfl, fun _ => rfl⟩

/-- A step acknowledges one packet, or none. -/
theorem acknowledged_of_step {m m' : Machine} {e : MachineEvent} (h : MachineStep m e m') :
    ¬ AcknowledgesNone m e ∧ m'.acknowledged = m.acknowledged + 1 ∨
      AcknowledgesNone m e ∧ m'.acknowledged = m.acknowledged := by
  cases e with
  | send data =>
    refine .inr ⟨nofun, ?_⟩
    rw [MachineStep, step] at h
    split at h
    · obtain rfl := Option.some.inj h
      rfl
    · obtain ⟨⟨txBuffer, buddy⟩, -, hrest⟩ := Option.bind_eq_some_iff.1 h
      obtain ⟨world, hworld, rfl⟩ := Option.map_eq_some_iff.1 hrest
      obtain rfl := Option.some.inj hworld
      rfl
  | other e =>
    obtain ⟨hsend, hrest⟩ := Option.ite_none_left_eq_some.1 h
    obtain ⟨world, hworld, rfl⟩ := Option.map_eq_some_iff.1 hrest
    rcases taken_of_step (Bool.eq_false_iff.2 hsend) hworld with
      ⟨⟨rfl, hat⟩, hlength⟩ | ⟨hnot, hlength⟩
    · exact .inl ⟨fun hnone => hnone rfl hat, hlength⟩
    · exact .inr ⟨fun heq hat => hnot ⟨MachineEvent.other.inj heq, hat⟩, hlength⟩

/-! ## Runs -/

variable {m₀ m : Machine} {events : List MachineEvent}

/-- So does every run. -/
theorem moves_of_run (hrun : Run MachineStep m₀ events m) : Moves m₀ m := by
  refine hrun.invariant (I := Moves m₀) ⟨rfl, le_rfl, fun _ => rfl⟩ ?_
  intro t e u ht hstep
  have hu := moves_of_step hstep
  have hblocks := ht.blocks
  have hblocks' := hu.blocks
  have hle := ht.accepted_le
  have hle' := hu.accepted_le
  refine ⟨by omega, hle.trans hle', fun hsame => ?_⟩
  rw [hu.used (by omega), ht.used (by omega)]

/-- Acknowledgements are not taken back. -/
theorem acknowledged_le_of_run (hrun : Run MachineStep m₀ events m) :
    m₀.acknowledged ≤ m.acknowledged := by
  refine hrun.invariant (I := fun m => m₀.acknowledged ≤ m.acknowledged) le_rfl ?_
  intro t e u ht hstep
  rcases acknowledged_of_step hstep with ⟨-, hcount⟩ | ⟨-, hcount⟩ <;> omega

/-- Where no event acknowledges anything their number stays. -/
theorem acknowledged_eq_of_run (hrun : Run (guarded AcknowledgesNone MachineStep) m₀ events m) :
    m.acknowledged = m₀.acknowledged := by
  refine hrun.invariant (I := fun m => m.acknowledged = m₀.acknowledged) rfl ?_
  intro t e u ht ⟨hnone, hstep⟩
  rcases acknowledged_of_step hstep with ⟨hsome, -⟩ | ⟨-, hcount⟩
  · exact absurd hnone hsome
  · exact hcount.trans ht

/-- Where no packet is acknowledged at the end, no step has acknowledged one. -/
theorem guarded_of_acknowledged_eq (hrun : Run MachineStep m₀ events m)
    (h : m.acknowledged = m₀.acknowledged) :
    Run (guarded AcknowledgesNone MachineStep) m₀ events m := by
  induction hrun with
  | nil => exact .nil _
  | snoc hrun hstep ih =>
    have hle := acknowledged_le_of_run hrun
    rcases acknowledged_of_step hstep with ⟨-, hcount⟩ | ⟨hnone, hcount⟩
    · omega
    · exact .snoc (ih (hcount.symm.trans h)) ⟨hnone, hstep⟩

/-- The blocks of sent packets are conserved in a run exactly when none of its steps
acknowledges a packet. -/
theorem conserved_iff_of_run {heap : Heap} {rxMaxSize txMaxSize : ℕ} {bufs : ℕ → ℕ}
    (hrun : Run MachineStep (start heap rxMaxSize txMaxSize bufs) events m) :
    Conserved (start heap rxMaxSize txMaxSize bufs) m ↔
      Run (guarded AcknowledgesNone MachineStep) (start heap rxMaxSize txMaxSize bufs) events m := by
  have hmoves := moves_of_run hrun
  have hblocks := hmoves.blocks
  have hzero : (start heap rxMaxSize txMaxSize bufs).accepted = 0 := rfl
  have hfresh : (start heap rxMaxSize txMaxSize bufs).acknowledged = 0 := rfl
  constructor
  · intro h
    have hcount := h.blocks
    exact guarded_of_acknowledged_eq hrun (by omega)
  · intro hguarded
    have hnone := acknowledged_eq_of_run hguarded
    refine ⟨by omega, fun hall => ?_⟩
    exact hmoves.used (by omega)

/-! ## One packet -/

/-- An allocator with one free page, behind the receive buffers and the blocks of both queues. -/
def onePage : Heap where
  buddy :=
    { mem := fun _ => 0
      freeList := fun i => if i = 0 then 0x200000 else 0
      totalPhysicalPages := 41
      buddyUsedPages := 40
      buddyTotalManagedPages := 41 }
  out := (List.range numDesc).map (fun i => ⟨0x100000 + bufferSize * i, 1⟩) ++
    [64, 8, 16, 8, 64, 8, 16, 8].mapIdx fun i size => ⟨0x120000 + bufferSize * i, size⟩

/-- The driver right after `virtio_net_init`. -/
def demo : Machine := start onePage 32 32 fun i => 0x100000 + bufferSize * i

/-- A packet goes out. -/
theorem conserved_iff_of_run_sent : ∃ m, Run MachineStep demo [.send [1]] m ∧ m.accepted = 1 ∧
    (Conserved demo m ↔ Run (guarded AcknowledgesNone MachineStep) demo [.send [1]] m) := by
  have hcall : (demo.step (.send [1])).map (·.accepted) = some 1 := by decide +kernel
  obtain ⟨m, hstep, haccepted⟩ := Option.map_eq_some_iff.1 hcall
  have hrun : Run MachineStep demo [.send [1]] m := .single hstep
  exact ⟨m, hrun, haccepted, conserved_iff_of_run hrun⟩

/-- A packet goes out, and the device returns its descriptor. -/
def onePacket : List MachineEvent :=
  [.send [1], .other (.deviceWrite .tx ⟨0, 0⟩), .other (.devicePublish .tx), .other (.interrupt 1),
    .other .handler, .other .handler, .other .handler, .other .handler, .other .handler]

/-- When the handler is through with it, its block is still held and its page is still used. -/
theorem not_conserved_onePacket : ∃ m, Run MachineStep demo onePacket m ∧ m.world.irq = .idle ∧
    m.acknowledged = m.accepted ∧ ¬ Conserved demo m := by
  have hcalls : (execute (fun _ _ => True) step demo onePacket).map (fun m =>
      (m.world.irq, m.acknowledged, m.accepted, m.heap.buddy.buddyUsedPages)) =
        some (.idle, 1, 1, 41) := by decide +kernel
  obtain ⟨m, hcalls, hstate⟩ := Option.map_eq_some_iff.1 hcalls
  obtain ⟨hirq, hacknowledged, haccepted, hused⟩ : m.world.irq = .idle ∧ m.acknowledged = 1 ∧
      m.accepted = 1 ∧ m.heap.buddy.buddyUsedPages = 41 := by simpa using hstate
  have hstep : ∀ s e t, step s e = some t → MachineStep s e t := fun _ _ _ h => h
  have hrun := run_of_execute hstep hcalls
  refine ⟨m, hrun.mono fun _ _ _ h => h.2, hirq, hacknowledged.trans haccepted.symm, fun h => ?_⟩
  have hpages := h.used (hacknowledged.trans haccepted.symm)
  rw [buddyGetUsedPages, hused] at hpages
  exact absurd hpages (by decide)

end Machine

end Orionis.Virtio
