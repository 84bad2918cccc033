import Orionis.Virtio.Transmit

/-!
# Receive buffers

The handler reads a packet from the buffer with the number of the completed descriptor, and
then posts this buffer through whatever descriptor `free_head` points to. The two numbers
agree as long as the entries come back in the order in which their descriptors were posted;
then every descriptor keeps its own buffer. The first entry out of order overwrites a
descriptor the device still owns.
-/

namespace Orionis.Virtio

open Orionis.Foundations

/-- The receive queue after the first rounds of the filling loop. -/
theorem fillRx_spec (bufs : ℕ → ℕ) (maxSize count : ℕ) (hcount : count ≤ numDesc) :
    let q := fillRx bufs (virtqAlloc 0 numDesc maxSize) count
    q.freeHead = count % numDesc ∧
      (∀ i < count, (q.desc i).addr = bufs i ∧ (q.desc i).len = bufferSize ∧
        (q.desc i).flags = descWrite ∧ q.buffers i = bufs i) ∧
      ∀ i, (q.desc i).next = (chainDescs numDesc i).next := by
  induction count with
  | zero => exact ⟨rfl, fun i hi => absurd hi (Nat.not_lt_zero i), fun _ => rfl⟩
  | succ count ih =>
    obtain ⟨hhead, hfilled, hnext⟩ := ih (by omega)
    have hheadEq : (fillRx bufs (virtqAlloc 0 numDesc maxSize) count).freeHead = count := by
      rw [hhead]
      exact Nat.mod_eq_of_lt hcount
    refine ⟨?_, ?_, ?_⟩
    · change ((fillRx bufs (virtqAlloc 0 numDesc maxSize) count).desc
        (fillRx bufs (virtqAlloc 0 numDesc maxSize) count).freeHead).next = _
      rw [hnext, hheadEq, chainDescs_eq]
      split
      · next hlt =>
        have hlt' : count + 1 < numDesc := by omega
        exact (Nat.mod_eq_of_lt hlt').symm
      · next hlt =>
        have hlast : count + 1 = numDesc := by omega
        rw [hlast, Nat.mod_self]
    · intro i hi
      simp only [fillRx, virtqAddBuf, hheadEq]
      by_cases hlast : i = count
      · subst hlast
        simp only [Function.update_self, and_self]
      · simp only [Function.update_of_ne hlast]
        exact hfilled i (by omega)
    · intro i
      simp only [fillRx, virtqAddBuf, hheadEq]
      by_cases hlast : i = count
      · subst hlast
        rw [Function.update_self]
        exact hnext i
      · rw [Function.update_of_ne hlast]
        exact hnext i

/-- Every descriptor is in flight or was just taken, and carries its own buffer. -/
structure Lane.RxInv (bufs : ℕ → ℕ) (l : Lane) : Prop where
  num : l.q.num = numDesc
  all : l.inFlight.Perm (List.range numDesc)
  buffers : ∀ i < numDesc, l.q.buffers i = bufs i
  desc : ∀ i < numDesc, (l.q.desc i).Describes ⟨i, bufs i, bufferSize, descWrite⟩
  posted : ∀ p ∈ l.posted, p = ⟨p.id, bufs p.id, bufferSize, descWrite⟩
  pending : ∀ c, l.pending = some c → c.addr = bufs c.elem.id
  carried : ∀ c ∈ l.completed, c.addr = bufs c.elem.id
  read : l.read = (l.completed.take l.taken.length).map (·.addr)

namespace Lane.RxInv

variable {bufs : ℕ → ℕ} {l : Lane} {target : Option ℕ}

/-- Descriptors in flight are those of the table. -/
theorem id_lt (h : l.RxInv bufs) {i : ℕ} (hi : i ∈ l.inFlight) : i < numDesc :=
  List.mem_range.1 (h.all.mem_iff.1 hi)

/-- Returning a posted descriptor keeps the invariant. -/
theorem deviceWrite (h : l.RxInv bufs) (hpending : l.pending = none) {elem : VirtqUsedElem}
    (hreturn : ∃ p ∈ l.posted, p.id = elem.id) : (l.deviceWrite elem).RxInv bufs := by
  refine ⟨h.num, (Lane.inFlight_deviceWrite hpending hreturn).trans h.all, h.buffers, h.desc,
    fun p hp => h.posted p (List.mem_of_mem_eraseP hp), ?_, h.carried, h.read⟩
  intro c hc
  obtain rfl := Option.some.inj hc
  obtain ⟨p, hp, hid⟩ := hreturn
  have hmem : p.id ∈ l.inFlight := by
    rw [Lane.inFlight, List.append_assoc]
    exact List.mem_append_left _ (List.mem_map_of_mem hp)
  exact (h.desc elem.id (hid ▸ h.id_lt hmem)).1

/-- Publishing a completion keeps it. -/
theorem devicePublish (h : l.RxInv bufs) {c : Completion} (hpending : l.pending = some c)
    (hle : l.taken.length ≤ l.completed.length) : (l.devicePublish c).RxInv bufs := by
  refine ⟨h.num, (Lane.inFlight_devicePublish hpending hle).trans h.all, h.buffers, h.desc,
    h.posted, fun c hc => absurd hc (by simp [Lane.devicePublish]), ?_, ?_⟩
  · intro d hd
    apply (List.mem_append.1 hd).elim
    · exact h.carried d
    · intro hd
      rw [List.mem_singleton.1 hd]
      exact h.pending c hpending
  · change l.read = ((l.completed ++ [c]).take l.taken.length).map (·.addr)
    rw [List.take_append_of_le_length hle]
    exact h.read

/-- Where the oldest entry names the descriptor `virtq_add_buf` takes next, the handler
reads from the buffer the entry carried and posts it in the descriptor it came from. -/
theorem receive (h : l.RxInv bufs) (htracks : l.Tracks target)
    (hlt : l.taken.length < l.completed.length) (horder : (nextUsed l.q).id = l.q.freeHead) :
    l.receive.RxInv bufs := by
  have hsize : QueueSize l.q.num := h.num ▸ queueSize_numDesc
  have hused := htracks.nextUsed_eq hsize hlt
  have hflight := (Lane.inFlight_take hlt).symm.trans h.all
  have hid : (nextUsed l.q).id < numDesc := by
    rw [hused]
    exact List.mem_range.1 (hflight.mem_iff.1 List.mem_cons_self)
  have hdata : packetData l.q = bufs l.q.freeHead := by
    rw [packetData, Nat.mod_eq_of_lt (hid.trans (by decide)), ← horder]
    exact h.buffers _ hid
  have htaken : l.receive.taken.length = l.taken.length + 1 := List.length_append
  refine ⟨h.num, ?_, h.buffers, ?_, ?_, h.pending, h.carried, ?_⟩
  · have hnew : l.receive.inFlight = (l.posted.map (·.id) ++ [l.q.freeHead]) ++
        l.pending.toList.map (·.elem.id) ++
          (l.completed.drop (l.taken.length + 1)).map (·.elem.id) := by
      simp only [Lane.inFlight, Lane.receive, List.map_append, List.map_cons, List.map_nil,
        List.length_append, List.length_singleton]
    rw [hnew]
    refine List.Perm.trans ?_ hflight
    rw [← hused, horder]
    simp only [List.append_assoc, List.singleton_append]
    exact List.perm_middle
  · intro i hi
    change (Function.update l.q.desc l.q.freeHead _ i).Describes _
    by_cases hhead : i = l.q.freeHead
    · rw [hhead, Function.update_self]
      exact ⟨hdata, rfl, rfl⟩
    · rw [Function.update_of_ne hhead]
      exact h.desc i hi
  · intro p hp
    apply (List.mem_append.1 hp).elim
    · exact h.posted p
    · intro hp
      rw [List.mem_singleton.1 hp, hdata]
  · have hcarried := h.carried _ (List.getElem_mem hlt)
    change l.read ++ [packetData l.q] = (l.completed.take l.receive.taken.length).map (·.addr)
    rw [htaken, List.take_add_one, List.getElem?_eq_getElem hlt, List.map_append, hdata, h.read,
      ← horder, hused, ← hcarried]
    rfl

end Lane.RxInv

/-! ## Runs -/

/-- The handler takes receive entries in the order in which their descriptors were posted:
each names the descriptor that `virtq_add_buf` takes next. -/
def ReceivesInOrder (w : World) : Event → Prop
  | .handler => ∀ rx, w.irq = .receive rx → w.rx.q.usedIdx ≠ rx →
    (nextUsed w.rx.q).id = w.rx.q.freeHead
  | _ => True

/-- Only the loops of the handler take entries off a queue. -/
theorem LaneStep.taken_eq_or {side : Side} {e : Event} {l l' : Lane} {t t' : Option ℕ}
    (hstep : LaneStep side e l t l' t') :
    l'.taken = l.taken ∨ e = .handler ∧ ∃ n, t = some n ∧ l.q.usedIdx ≠ n := by
  cases hstep with
  | reclaim _ hne => exact Or.inr ⟨rfl, _, rfl, hne⟩
  | receive _ hne => exact Or.inr ⟨rfl, _, rfl, hne⟩
  | _ => exact Or.inl rfl

/-- Only the receive loop takes one off the receive queue. -/
theorem receive_of_step {w w' : World} {e : Event} (hstep : WorldStep w e w')
    (hrx : w'.rx = w.rx.receive) :
    e = .handler ∧ ∃ rx, w.irq = .receive rx ∧ w.rx.q.usedIdx ≠ rx := by
  have hmore : w'.rx.taken ≠ w.rx.taken := by
    rw [hrx]
    exact fun h => absurd (congrArg List.length h) (by simp [Lane.receive])
  rcases (laneStep_of_step hstep .rx).taken_eq_or with hsame | ⟨rfl, n, htarget, hne⟩
  · exact absurd hsame hmore
  · refine ⟨rfl, ?_⟩
    cases hirq : w.irq with
    | receive rx =>
      rw [hirq] at htarget
      obtain rfl := Option.some.inj htarget
      exact ⟨rx, rfl, hne⟩
    | reclaim tx rx =>
      rw [WorldStep, World.step, handlerStep, hirq] at hstep
      simp only at hstep
      split at hstep <;> obtain rfl := Option.some.inj hstep <;> exact absurd rfl hmore
    | _ =>
      rw [hirq] at htarget
      cases htarget

/-- Every step of the lane keeps it. -/
theorem Lane.RxInv.step {bufs : ℕ → ℕ} {e : Event} {l l' : Lane} {t t' : Option ℕ}
    (h : l.RxInv bufs) (htracks : l.Tracks t)
    (hreturn : ∀ elem, e = .deviceWrite .rx elem → ∃ p ∈ l.posted, p.id = elem.id)
    (horder : l' = l.receive → (nextUsed l.q).id = l.q.freeHead)
    (hstep : LaneStep .rx e l t l' t') : l'.RxInv bufs ∧ l'.Tracks t' := by
  have hsize : QueueSize l.q.num := h.num ▸ queueSize_numDesc
  have hle : l.inFlight.length ≤ l.q.num := by
    rw [h.all.length_eq, List.length_range, h.num]
  have hroom : l.HasRoom .rx e := by
    cases e with
    | deviceWrite side elem =>
      intro heq
      subst heq
      exact Lane.room_of_inFlight hle (hreturn elem rfl)
    | _ => trivial
  refine ⟨?_, htracks.step hsize hroom hstep⟩
  cases hstep with
  | stay => exact h
  | look => exact ⟨h.num, h.all, h.buffers, h.desc, h.posted, h.pending, h.carried, h.read⟩
  | finish => exact h
  | send hside => cases hside
  | deviceWrite hpending => exact h.deviceWrite hpending (hreturn _ rfl)
  | devicePublish hpending => exact h.devicePublish hpending htracks.counts.1
  | reclaim hside => cases hside
  | receive _ hne =>
    exact h.receive htracks ((htracks.taken_lt_seen hne).trans_le htracks.seen) (horder rfl)

/-- Receive descriptors are posted once and stay as posted, they hold the driver's buffers
each once, none gets lost, and every packet was read where it was received. -/
structure World.RxSafe (w : World) : Prop where
  once : (w.rx.posted.map (·.id)).Nodup
  unaltered : ∀ p ∈ w.rx.posted, (w.rx.q.desc p.id).Describes p
  distinct : (w.rx.posted.map fun p => (w.rx.q.desc p.id).addr).Nodup
  own : ∀ p ∈ w.rx.posted, ∃ i < numDesc, (w.rx.q.desc p.id).addr = w.rx.q.buffers i
  all : w.rx.posted.length + w.rx.pending.toList.length +
    (w.rx.completed.length - w.rx.taken.length) = numDesc
  read : w.rx.read = (w.rx.completed.take w.rx.taken.length).map (·.addr)

/-- The invariant makes the lane safe. -/
theorem Lane.RxInv.rxSafe {bufs : ℕ → ℕ} {w : World} (h : w.rx.RxInv bufs)
    (hbufs : ∀ i < numDesc, ∀ j < numDesc, bufs i = bufs j → i = j) : w.RxSafe := by
  have hnodup : w.rx.inFlight.Nodup := h.all.nodup_iff.2 List.nodup_range
  have honce : (w.rx.posted.map (·.id)).Nodup := by
    rw [Lane.inFlight, List.append_assoc] at hnodup
    exact (List.nodup_append.1 hnodup).1
  have hlt (p : Posting) (hp : p ∈ w.rx.posted) : p.id < numDesc := by
    apply h.id_lt
    rw [Lane.inFlight, List.append_assoc]
    exact List.mem_append_left _ (List.mem_map_of_mem hp)
  refine ⟨honce, ?_, ?_, ?_, ?_, h.read⟩
  · intro p hp
    rw [h.posted p hp]
    exact h.desc p.id (hlt p hp)
  · have haddr : (w.rx.posted.map fun p => (w.rx.q.desc p.id).addr) =
        (w.rx.posted.map (·.id)).map bufs := by
      rw [List.map_map]
      apply List.map_congr_left
      intro p hp
      exact (h.desc p.id (hlt p hp)).1
    rw [haddr]
    apply honce.map_on
    intro i hi j hj
    obtain ⟨p, hp, rfl⟩ := List.mem_map.1 hi
    obtain ⟨q, hq, rfl⟩ := List.mem_map.1 hj
    exact hbufs _ (hlt p hp) _ (hlt q hq)
  · intro p hp
    exact ⟨p.id, hlt p hp, (h.desc p.id (hlt p hp)).1.trans (h.buffers p.id (hlt p hp)).symm⟩
  · have hlen := h.all.length_eq
    simp only [Lane.inFlight, List.length_append, List.length_map, List.length_drop,
      List.length_range] at hlen
    exact hlen

/-- It holds at the start. -/
theorem World.rxInv_start {mem : Memory} {rxMaxSize txMaxSize : ℕ} {bufs : ℕ → ℕ}
    (hnum : (World.start mem rxMaxSize txMaxSize bufs).rx.q.num = 32) :
    (World.start mem rxMaxSize txMaxSize bufs).rx.RxInv bufs := by
  obtain ⟨-, hfilled, -⟩ := fillRx_spec bufs rxMaxSize numDesc le_rfl
  have hposted : (World.start mem rxMaxSize txMaxSize bufs).rx.posted =
      (List.range numDesc).map fun i => ⟨i, bufs i, bufferSize, descWrite⟩ := by
    apply List.map_congr_left
    intro i hi
    have hi := List.mem_range.1 hi
    rw [(fillRx_spec bufs rxMaxSize i hi.le).1, Nat.mod_eq_of_lt hi]
  refine ⟨hnum, ?_, fun i hi => (hfilled i hi).2.2.2, ?_, ?_, fun c hc => absurd hc (by simp [start]),
    fun c hc => absurd hc List.not_mem_nil, rfl⟩
  · rw [Lane.inFlight, hposted, List.map_map]
    apply List.Perm.of_eq
    simp [start, Function.comp_def]
  · intro i hi
    obtain ⟨haddr, hlen, hflags, -⟩ := hfilled i hi
    exact ⟨haddr, hlen, hflags⟩
  · intro p hp
    rw [hposted] at hp
    obtain ⟨i, -, rfl⟩ := List.mem_map.1 hp
    rfl

/-- In every run in which receive entries are taken in posting order, the receive buffers
stay consistent. -/
theorem World.rxSafe_of_run {mem : Memory} {rxMaxSize txMaxSize : ℕ} {bufs : ℕ → ℕ}
    (hnum : (World.start mem rxMaxSize txMaxSize bufs).rx.q.num = 32)
    (hbufs : ∀ i < numDesc, ∀ j < numDesc, bufs i = bufs j → i = j) {events : List Event}
    {w : World} (hrun : Run (guarded ReceivesInOrder (guarded ReturnsPosted WorldStep))
      (World.start mem rxMaxSize txMaxSize bufs) events w) : w.RxSafe := by
  have hinv : w.rx.RxInv bufs ∧ w.rx.Tracks (w.irq.target .rx) := by
    apply hrun.invariant (I := fun w => w.rx.RxInv bufs ∧ w.rx.Tracks (w.irq.target .rx))
    · refine ⟨World.rxInv_start hnum, ?_⟩
      obtain ⟨-, hdevice, hused, -⟩ := sameUsed_fillRx bufs (virtqAlloc 0 numDesc rxMaxSize) numDesc
      exact Lane.tracks_of_fresh ⟨rfl, rfl, rfl⟩ rfl ⟨hdevice, hused⟩
    · intro t e u ⟨hrx, htracks⟩ ⟨horder, hreturn, hstep⟩
      apply hrx.step htracks ?_ ?_ (laneStep_of_step hstep .rx)
      · intro elem heq
        subst heq
        exact hreturn
      · intro hreceive
        obtain ⟨rfl, rx, hirq, hne⟩ := receive_of_step hstep hreceive
        exact horder rx hirq hne
  exact hinv.1.rxSafe hbufs

instance (w : World) : (e : Event) → Decidable (ReceivesInOrder w e)
  | .handler =>
    match h : w.irq with
    | .receive rx => decidable_of_iff (w.rx.q.usedIdx ≠ rx → (nextUsed w.rx.q).id = w.rx.q.freeHead)
        ⟨fun hrx _ heq => by
          obtain rfl := Irq.receive.inj (h.symm.trans heq)
          exact hrx, fun hall => hall rx h⟩
    | .idle | .readTx | .readRx _ | .reclaim _ _ => isTrue fun _ heq => by simp [h] at heq
  | .send _ _ | .deviceWrite _ _ | .devicePublish _ | .interrupt _ => isTrue trivial

/-- The handler processes one packet that came back in order. -/
theorem World.rxSafe_demo : ∃ w : World, w.rx.read = [0x100000] ∧ w.RxSafe := by
  have hcalls : (execute (fun w e => ReceivesInOrder w e ∧ ReturnsPosted w e) World.step World.demo
      [.deviceWrite .rx ⟨0, 64⟩, .devicePublish .rx, .interrupt 1, .handler, .handler, .handler,
        .handler, .handler]).map (·.rx.read) = some [0x100000] := by decide +kernel
  obtain ⟨w, hcalls, hread⟩ := Option.map_eq_some_iff.1 hcalls
  have hstep : ∀ s e t, World.step s e = some t → WorldStep s e t := fun _ _ _ h => h
  refine ⟨w, hread, World.rxSafe_of_run (by decide) ?_ ((run_of_execute hstep hcalls).mono ?_)⟩
  · intro i _ j _ heq
    exact Nat.eq_of_mul_eq_mul_left (by decide : 0 < bufferSize) (Nat.add_left_cancel heq)
  · intro _ _ _ ⟨⟨horder, hreturn⟩, hstep⟩
    exact ⟨horder, hreturn, hstep⟩

/-- The device returns descriptor 1 first, and the handler overwrites descriptor 0. -/
theorem World.not_rxSafe_out_of_order : ∃ w, Run (guarded ReturnsPosted WorldStep) World.demo
    [.deviceWrite .rx ⟨1, 64⟩, .devicePublish .rx, .interrupt 1, .handler, .handler, .handler,
      .handler] w ∧ ¬ w.RxSafe := by
  have hcalls : (execute ReturnsPosted World.step World.demo
      [.deviceWrite .rx ⟨1, 64⟩, .devicePublish .rx, .interrupt 1, .handler, .handler, .handler,
        .handler]).map (fun w => decide (w.rx.posted.map (·.id)).Nodup) = some false := by
    decide +kernel
  obtain ⟨w, hcalls, htwice⟩ := Option.map_eq_some_iff.1 hcalls
  have htwice := of_decide_eq_false htwice
  exact ⟨w, run_of_execute (fun _ _ _ h => h) hcalls, fun hsafe => htwice hsafe.once⟩

end Orionis.Virtio
