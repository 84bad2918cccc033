import Orionis.Foundations.Links
import Orionis.Virtio.InFlight

/-!
# Transmit descriptors

The free chain and the descriptors in flight share out the table. A send takes the first
free descriptor, the handler puts a finished one back in front. The chain has no end mark:
`virtq_add_buf` follows it past the last free descriptor, back to one that is in flight. So
descriptors are safe in every run that never sends while the whole queue is in flight, and
the next send after that is accepted and overwrites a posted descriptor.
-/

namespace Orionis.Virtio

open Orionis.Foundations

/-! ## The free chain -/

/-- The chain `virtq_alloc` lays through a zeroed table. -/
theorem chainDescs_eq (numDescs i : ℕ) :
    chainDescs numDescs i = ⟨0, 0, 0, if i < numDescs - 1 then i + 1 else 0⟩ := by
  rw [chainDescs]
  generalize numDescs - 1 = count
  induction count with
  | zero => rfl
  | succ count ih =>
    rw [List.range_succ, List.foldl_append, List.foldl_cons, List.foldl_nil]
    by_cases hi : i = count
    · subst hi
      rw [Function.update_self, ih, if_pos (Nat.lt_succ_self i)]
    · have hiff : i < count ↔ i < count + 1 := by omega
      rw [Function.update_of_ne hi, ih, if_congr hiff rfl rfl]

/-- All descriptors of a fresh table, in order. -/
theorem links_chainDescs : Links (fun i => (chainDescs numDesc i).next) 0 (List.range numDesc) 0 := by
  have hcount (count : ℕ) (hcount : count < numDesc) :
      Links (fun i => (chainDescs numDesc i).next) 0 (List.range count) count := by
    induction count with
    | zero => rfl
    | succ count ih =>
      rw [List.range_succ]
      refine links_split.2 ⟨ih (by omega), ?_⟩
      rw [links_nil, chainDescs_eq]
      exact if_pos (by omega)
  have hlast : List.range numDesc = List.range (numDesc - 1) ++ [numDesc - 1] :=
    List.range_succ
  rw [hlast]
  refine links_split.2 ⟨hcount _ (by decide), ?_⟩
  rw [links_nil, chainDescs_eq]
  rfl

/-- The descriptor describes the packet that was posted with it. -/
def VirtqDesc.Describes (d : VirtqDesc) (p : Posting) : Prop :=
  d.addr = p.addr ∧ d.len = p.len ∧ d.flags = p.flags

/-- The free chain visits exactly the descriptors that are not in flight. -/
structure Lane.TxInv (l : Lane) (free : List ℕ) : Prop where
  num : l.q.num = numDesc
  chain : ∃ last, Links (fun i => (l.q.desc i).next) l.q.freeHead free last
  split : (free ++ l.inFlight).Perm (List.range numDesc)
  described : ∀ p ∈ l.posted, (l.q.desc p.id).Describes p

namespace Lane.TxInv

variable {l : Lane} {free : List ℕ} {target : Option ℕ}

/-- No descriptor is free and in flight, or one of them twice. -/
theorem nodup (h : l.TxInv free) : (free ++ l.inFlight).Nodup :=
  h.split.nodup_iff.2 List.nodup_range

/-- Every descriptor is free or in flight. -/
theorem length_add (h : l.TxInv free) : free.length + l.inFlight.length = numDesc := by
  rw [← List.length_append, h.split.length_eq, List.length_range]

/-- With room left, the chain starts at a free descriptor. -/
theorem free_eq_cons (h : l.TxInv free) (hroom : l.inFlight.length < l.q.num) :
    ∃ rest, free = l.q.freeHead :: rest := by
  obtain ⟨last, hchain⟩ := h.chain
  have hlen := h.length_add
  rw [h.num] at hroom
  cases free with
  | nil =>
    simp only [List.length_nil] at hlen
    omega
  | cons a rest =>
    rw [links_cons] at hchain
    exact ⟨rest, by rw [hchain.1]⟩

/-- Changes of the history alone, as long as the same descriptors stay in flight. -/
theorem congr {l' : Lane} (h : l.TxInv free) (hnum : l'.q.num = l.q.num)
    (hdesc : l'.q.desc = l.q.desc) (hhead : l'.q.freeHead = l.q.freeHead)
    (hflight : l'.inFlight.Perm l.inFlight) (hposted : ∀ p ∈ l'.posted, p ∈ l.posted) :
    l'.TxInv free := by
  refine ⟨hnum.trans h.num, ?_, (hflight.append_left free).trans h.split, ?_⟩
  · rw [hdesc, hhead]
    exact h.chain
  · intro p hp
    rw [hdesc]
    exact h.described p (hposted p hp)

/-- Posting takes the first free descriptor. -/
theorem post (h : l.TxInv free) (hroom : l.inFlight.length < l.q.num) (addr len : ℕ) :
    ∃ free', (l.send true (virtqAddBuf l.q addr len 0).2 addr len).TxInv free' := by
  obtain ⟨rest, rfl⟩ := h.free_eq_cons hroom
  obtain ⟨last, -, hchain⟩ := h.chain
  have hnodup := h.nodup
  have hnew : l.q.freeHead ∉ l.inFlight := by
    intro hmem
    exact (List.nodup_cons.1 hnodup).1 (List.mem_append_right rest hmem)
  have hnext : (fun i => ((virtqAddBuf l.q addr len 0).2.desc i).next) =
      fun i => (l.q.desc i).next := by
    funext i
    by_cases hi : i = l.q.freeHead
    · subst hi
      simp [virtqAddBuf]
    · simp [virtqAddBuf, Function.update_of_ne hi]
  refine ⟨rest, h.num, ⟨last, ?_⟩, ?_, ?_⟩
  · change Links (fun i => ((virtqAddBuf l.q addr len 0).2.desc i).next) _ rest last
    rw [hnext]
    exact hchain
  · refine List.Perm.trans ?_ h.split
    have hflight : (l.send true (virtqAddBuf l.q addr len 0).2 addr len).inFlight.Perm
        (l.q.freeHead :: l.inFlight) := by
      simp only [Lane.send, Lane.inFlight, if_true, List.map_append, List.map_cons, List.map_nil,
        List.append_assoc, List.singleton_append]
      exact List.perm_middle
    exact (hflight.append_left rest).trans List.perm_middle
  · intro p hp
    have hold : p ∈ l.posted → p.id ≠ l.q.freeHead := by
      intro hp heq
      apply hnew
      rw [← heq, Lane.inFlight, List.append_assoc]
      exact List.mem_append_left _ (List.mem_map_of_mem hp)
    change (Function.update l.q.desc l.q.freeHead _ p.id).Describes p
    apply (List.mem_append.1 hp).elim
    · intro hp
      rw [Function.update_of_ne (hold hp)]
      exact h.described p hp
    · intro hp
      rw [List.mem_singleton.1 hp, Function.update_self]
      exact ⟨rfl, rfl, rfl⟩

/-- Reclaiming puts the descriptor of the oldest entry back in front. -/
theorem reclaim (h : l.TxInv free) (htracks : l.Tracks target)
    (hlt : l.taken.length < l.completed.length) : ∃ free', l.reclaim.TxInv free' := by
  have hsize : QueueSize l.q.num := h.num ▸ queueSize_numDesc
  have hflight := Lane.inFlight_take hlt
  have hused := htracks.nextUsed_eq hsize hlt
  generalize l.completed[l.taken.length] = c at hflight hused
  have hsplit := (hflight.append_left free).symm.trans h.split
  have hmem : c.elem.id < numDesc :=
    List.mem_range.1 (hsplit.mem_iff.1 (List.mem_append_right _ List.mem_cons_self))
  have hid : (nextUsed l.q).id % 2 ^ 16 = c.elem.id := by
    rw [hused]
    apply Nat.mod_eq_of_lt
    exact hmem.trans (by decide)
  have hnew : c.elem.id ∉ free := by
    intro hfree
    have hnodup := hsplit.nodup_iff.2 List.nodup_range
    exact (List.disjoint_of_nodup_append hnodup) hfree List.mem_cons_self
  obtain ⟨last, hchain⟩ := h.chain
  have hnext : (fun i => (l.reclaim.q.desc i).next) =
      Function.update (fun i => (l.q.desc i).next) c.elem.id l.q.freeHead := by
    funext i
    simp only [Lane.reclaim, reclaimTx, hid]
    by_cases hi : i = c.elem.id
    · rw [hi, Function.update_self, Function.update_self]
    · rw [Function.update_of_ne hi, Function.update_of_ne hi]
  refine ⟨c.elem.id :: free, h.num, ⟨last, ?_⟩, ?_, ?_⟩
  · rw [hnext, links_cons, Function.update_self]
    exact ⟨hid, hchain.update hnew⟩
  · have hrest : l.reclaim.inFlight = l.posted.map (·.id) ++ l.pending.toList.map (·.elem.id) ++
        (l.completed.drop (l.taken.length + 1)).map (·.elem.id) := by
      rw [Lane.inFlight]
      change _ ++ (l.completed.drop (l.taken ++ [nextUsed l.q]).length).map _ = _
      rw [List.length_append, List.length_singleton]
      rfl
    rw [hrest, List.cons_append]
    exact List.perm_middle.symm.trans hsplit
  · intro p hp
    obtain ⟨haddr, hlen, hflags⟩ := h.described p hp
    change (Function.update l.q.desc _ _ p.id).Describes p
    by_cases hp : p.id = (nextUsed l.q).id % 2 ^ 16
    · rw [hp, Function.update_self, ← hp]
      exact ⟨haddr, hlen, hflags⟩
    · rw [Function.update_of_ne hp]
      exact ⟨haddr, hlen, hflags⟩

end Lane.TxInv

/-! ## Runs -/

/-- No packet is sent while the whole transmit queue is in flight. -/
def BelowCapacity (w : World) : Event → Prop
  | .send _ _ => w.tx.inFlight.length < w.tx.q.num
  | _ => True

/-- A step of a device that returns what it owns, below capacity, keeps the transmit queue
consistent. -/
theorem Lane.TxInv.step {e : Event} {l l' : Lane} {t t' : Option ℕ} {free : List ℕ}
    (h : l.TxInv free) (htracks : l.Tracks t)
    (hsend : ∀ txBuffer data, e = .send txBuffer data → l.inFlight.length < l.q.num)
    (hreturn : ∀ elem, e = .deviceWrite .tx elem → ∃ p ∈ l.posted, p.id = elem.id)
    (hstep : LaneStep .tx e l t l' t') : (∃ free', l'.TxInv free') ∧ l'.Tracks t' := by
  have hsize : QueueSize l.q.num := h.num ▸ queueSize_numDesc
  have hle : l.inFlight.length ≤ l.q.num := by
    have hlen := h.length_add
    rw [h.num]
    omega
  have hroom : l.HasRoom .tx e := by
    cases e with
    | deviceWrite side elem =>
      intro heq
      subst heq
      exact Lane.room_of_inFlight hle (hreturn elem rfl)
    | _ => trivial
  refine ⟨?_, htracks.step hsize hroom hstep⟩
  cases hstep with
  | stay => exact ⟨free, h⟩
  | look => exact ⟨free, h.congr rfl rfl rfl (List.Perm.refl _) fun _ hp => hp⟩
  | finish => exact ⟨free, h⟩
  | send _ hcall =>
    rcases virtioNetSendPacket_cases hcall with ⟨rfl, rfl⟩ | ⟨rfl, rfl, -⟩
    · exact h.post (hsend _ _ rfl) _ _
    · exact ⟨free, h.congr rfl rfl rfl (List.Perm.refl _) fun _ hp => hp⟩
  | deviceWrite hpending =>
    exact ⟨free, h.congr rfl rfl rfl (Lane.inFlight_deviceWrite hpending (hreturn _ rfl))
      fun _ hp => List.mem_of_mem_eraseP hp⟩
  | devicePublish hpending =>
    exact ⟨free, h.congr rfl rfl rfl (Lane.inFlight_devicePublish hpending htracks.counts.1)
      fun _ hp => hp⟩
  | reclaim _ hne => exact h.reclaim htracks ((htracks.taken_lt_seen hne).trans_le htracks.seen)
  | receive hside => cases hside

/-- Packets in flight have a descriptor of their own, which describes them while the device
owns it, and with room left the next one gets a descriptor that is free. -/
structure World.TxSafe (w : World) : Prop where
  distinct : w.tx.inFlight.Nodup
  described : ∀ p ∈ w.tx.posted, (w.tx.q.desc p.id).Describes p
  fresh : w.tx.inFlight.length < w.tx.q.num →
    w.tx.q.freeHead < w.tx.q.num ∧ w.tx.q.freeHead ∉ w.tx.inFlight

/-- The invariant makes the lane safe. -/
theorem Lane.TxInv.txSafe {w : World} {free : List ℕ} (h : w.tx.TxInv free) : w.TxSafe := by
  have hnodup := h.nodup
  refine ⟨(List.nodup_append.1 hnodup).2.1, h.described, ?_⟩
  intro hroom
  obtain ⟨rest, rfl⟩ := h.free_eq_cons hroom
  constructor
  · rw [h.num, ← List.mem_range, ← h.split.mem_iff]
    exact List.mem_cons_self
  · intro hmem
    exact (List.nodup_cons.1 hnodup).1 (List.mem_append_right rest hmem)

/-- In every run below capacity no transmit descriptor is reused while it is in flight. -/
theorem World.txSafe_of_run {mem : Memory} {rxMaxSize txMaxSize : ℕ} {bufs : ℕ → ℕ}
    (hnum : (World.start mem rxMaxSize txMaxSize bufs).tx.q.num = 32) {events : List Event}
    {w : World} (hrun : Run (guarded BelowCapacity (guarded ReturnsPosted WorldStep))
      (World.start mem rxMaxSize txMaxSize bufs) events w) : w.TxSafe := by
  have hinv : (∃ free, w.tx.TxInv free) ∧ w.tx.Tracks (w.irq.target .tx) := by
    apply hrun.invariant (I := fun w => (∃ free, w.tx.TxInv free) ∧ w.tx.Tracks (w.irq.target .tx))
    · refine ⟨⟨List.range numDesc, hnum, ⟨0, links_chainDescs⟩, ?_, ?_⟩, ?_⟩
      · exact List.Perm.of_eq (List.append_nil _)
      · intro p hp
        exact absurd hp List.not_mem_nil
      · exact Lane.tracks_of_fresh ⟨rfl, rfl, rfl⟩ rfl ⟨rfl, rfl⟩
    · intro t e u ⟨⟨free, hfree⟩, htracks⟩ ⟨hbelow, hreturn, hstep⟩
      apply hfree.step htracks ?_ ?_ (laneStep_of_step hstep .tx)
      · intro txBuffer data heq
        subst heq
        exact hbelow
      · intro elem heq
        subst heq
        exact hreturn
  obtain ⟨⟨free, hfree⟩, -⟩ := hinv
  exact hfree.txSafe

instance (w : World) : (e : Event) → Decidable (BelowCapacity w e)
  | .send _ _ => inferInstanceAs (Decidable (w.tx.inFlight.length < w.tx.q.num))
  | .deviceWrite _ _ | .devicePublish _ | .interrupt _ | .handler => isTrue trivial

/-- Three packets, the second of which the device returns first. -/
theorem World.txSafe_demo : ∃ w : World, w.tx.inFlight = [0, 2, 1] ∧ w.TxSafe := by
  have hcalls : (execute (fun w e => BelowCapacity w e ∧ ReturnsPosted w e) World.step World.demo
      [.send 0x200000 [1], .send 0x201000 [2], .deviceWrite .tx ⟨1, 0⟩, .devicePublish .tx,
        .interrupt 1, .handler, .send 0x202000 [3]]).map (·.tx.inFlight) = some [0, 2, 1] := by
    decide +kernel
  obtain ⟨w, hcalls, hflight⟩ := Option.map_eq_some_iff.1 hcalls
  have hstep : ∀ s e t, World.step s e = some t → WorldStep s e t := fun _ _ _ h => h
  refine ⟨w, hflight, World.txSafe_of_run (by decide) ((run_of_execute hstep hcalls).mono ?_)⟩
  intro _ _ _ ⟨⟨hbelow, hreturn⟩, hstep⟩
  exact ⟨hbelow, hreturn, hstep⟩

/-- Thirty-three packets without an interrupt. -/
def thirtyThreeSends : List Event :=
  (List.range 33).map fun i => .send (0x200000 + bufferSize * i) [0]

/-- The last of them is accepted, and shares the descriptor of the first. -/
theorem World.not_txSafe_full : ∃ w, Run (guarded ReturnsPosted WorldStep) World.demo
    thirtyThreeSends w ∧ w.tx.posted.length = 33 ∧ ¬ w.TxSafe := by
  have hcalls : (execute ReturnsPosted World.step World.demo thirtyThreeSends).map
      (fun w => (w.tx.posted.length, decide w.tx.inFlight.Nodup)) = some (33, false) := by
    decide +kernel
  obtain ⟨w, hcalls, hpair⟩ := Option.map_eq_some_iff.1 hcalls
  obtain ⟨hsent, hshared⟩ := Prod.mk.inj hpair
  have hshared := of_decide_eq_false hshared
  exact ⟨w, run_of_execute (fun _ _ _ h => h) hcalls, hsent, fun hsafe => hshared hsafe.distinct⟩

end Orionis.Virtio
