import Mathlib.Data.Nat.Prime.Basic
import Orionis.Foundations.IndexRing
import Orionis.Virtio.World

/-!
# The used rings are consumed in order

The two 16-bit indices of a used ring count the entries announced and the entries processed,
and differ by at most the queue size. The handler's snapshot of the device index names one
point in between, so its loop stops exactly there, whatever the device does meanwhile.
-/

namespace Orionis.Virtio

open Orionis.Foundations

/-- A power of two that a 16-bit size can hold. -/
structure QueueSize (num : ℕ) : Prop where
  pos : 0 < num
  dvd : num ∣ 2 ^ 16
  lt : num < 2 ^ 16

/-- The driver's index counts the entries it took, the device's those it announced, and the
slots in between hold what was announced. A snapshot in use lies in between as well. -/
structure Lane.Tracks (l : Lane) (target : Option ℕ) : Prop where
  ring : IndexRing l.q.num l.q.usedRing (l.completed.map (·.elem)) l.taken
  deviceIdx : l.q.deviceIdx = l.completed.length % 2 ^ 16
  usedIdx : l.q.usedIdx = l.taken.length % 2 ^ 16
  pending : ∀ c, l.pending = some c → l.completed.length < l.taken.length + l.q.num ∧
    l.q.usedRing (l.completed.length % l.q.num) = c.elem
  seen : l.seen ≤ l.completed.length
  looking : ∀ t, target = some t → t = l.seen % 2 ^ 16 ∧ l.taken.length ≤ l.seen
  caughtUp : target = none → l.seen ≤ l.taken.length

/-- The fields the device and the loops over the used ring work on. -/
def Virtq.SameUsed (q q' : Virtq) : Prop :=
  q'.usedRing = q.usedRing ∧ q'.deviceIdx = q.deviceIdx ∧ q'.usedIdx = q.usedIdx ∧ q'.num = q.num

/-- Posting a buffer leaves the used ring. -/
theorem sameUsed_virtqAddBuf (q : Virtq) (buf len flags : ℕ) :
    q.SameUsed (virtqAddBuf q buf len flags).2 := ⟨rfl, rfl, rfl, rfl⟩

/-- Filling the queue leaves the used ring. -/
theorem sameUsed_fillRx (bufs : ℕ → ℕ) (q : Virtq) (count : ℕ) : q.SameUsed (fillRx bufs q count) := by
  induction count with
  | zero => exact ⟨rfl, rfl, rfl, rfl⟩
  | succ i ih => exact ih

/-- A packet that goes out is in the one descriptor `virtq_add_buf` took, or nothing changed. -/
theorem virtioNetSendPacket_cases {mem mem' : Memory} {q q' : Virtq} {txBuffer : ℕ}
    {data : List UInt8} {sent : Bool}
    (h : virtioNetSendPacket mem q txBuffer data = (sent, mem', q')) :
    (sent = true ∧ q' = (virtqAddBuf q txBuffer ((10 + data.length) % 2 ^ 16) 0).2) ∨
      (sent = false ∧ q' = q ∧ mem' = mem) := by
  rw [virtioNetSendPacket] at h
  split at h
  · obtain ⟨rfl, hrest⟩ := Prod.mk.inj h
    obtain ⟨rfl, rfl⟩ := Prod.mk.inj hrest
    exact Or.inr ⟨rfl, rfl, rfl⟩
  · simp only at h
    split at h
    · obtain ⟨rfl, hrest⟩ := Prod.mk.inj h
      obtain ⟨rfl, rfl⟩ := Prod.mk.inj hrest
      exact Or.inr ⟨rfl, rfl, rfl⟩
    · split at h
      · next hfail => exact absurd rfl hfail
      · obtain ⟨rfl, hrest⟩ := Prod.mk.inj h
        exact Or.inl ⟨rfl, (Prod.mk.inj hrest).2.symm⟩

/-! ## One step -/

namespace Lane.Tracks

variable {l l' : Lane} {target : Option ℕ}

/-- Steps that leave the used ring alone. -/
theorem congr (h : l.Tracks target) (hq : l.q.SameUsed l'.q) (hpending : l'.pending = l.pending)
    (hcompleted : l'.completed = l.completed) (htaken : l'.taken = l.taken)
    (hseen : l'.seen = l.seen) : l'.Tracks target := by
  obtain ⟨hring, hdevice, hused, hnum⟩ := hq
  constructor
  · rw [hring, hnum, hcompleted, htaken]
    exact h.ring
  · rw [hdevice, hcompleted]
    exact h.deviceIdx
  · rw [hused, htaken]
    exact h.usedIdx
  · rw [hring, hnum, hcompleted, htaken, hpending]
    exact h.pending
  · rw [hseen, hcompleted]
    exact h.seen
  · rw [hseen, htaken]
    exact h.looking
  · rw [hseen, htaken]
    exact h.caughtUp

/-- The counts of announced and processed entries. -/
theorem counts (h : l.Tracks target) : l.taken.length ≤ l.completed.length ∧
    l.completed.length ≤ l.taken.length + l.q.num := by
  have hlen := h.ring.taken.length_le
  have hroom := h.ring.room
  rw [List.length_map] at hlen hroom
  exact ⟨hlen, hroom⟩

/-- An element written where there is room keeps the rings in step. -/
theorem deviceWrite (h : l.Tracks target) (hsize : QueueSize l.q.num)
    (hroom : l.completed.length < l.taken.length + l.q.num) (elem : VirtqUsedElem) :
    (l.deviceWrite elem).Tracks target := by
  have hslot : l.q.deviceIdx % l.q.num = l.completed.length % l.q.num := by
    rw [h.deviceIdx, mod_mod_of_dvd hsize.dvd]
  refine ⟨?_, h.deviceIdx, h.usedIdx, ?_, h.seen, h.looking, h.caughtUp⟩
  · have hwrite := h.ring.write (by rwa [List.length_map]) elem
    rwa [List.length_map, ← hslot] at hwrite
  · intro c hc
    obtain rfl := Option.some.inj hc
    refine ⟨hroom, ?_⟩
    change Function.update l.q.usedRing (l.q.deviceIdx % l.q.num) elem _ = elem
    rw [hslot]
    exact Function.update_self _ _ _

/-- So does publishing it. -/
theorem devicePublish (h : l.Tracks target) {c : Completion} (hc : l.pending = some c) :
    (l.devicePublish c).Tracks target := by
  obtain ⟨hroom, hslot⟩ := h.pending c hc
  refine ⟨?_, ?_, h.usedIdx, fun c hc => absurd hc (by simp [Lane.devicePublish]), ?_, h.looking,
    h.caughtUp⟩
  · change IndexRing l.q.num l.q.usedRing ((l.completed ++ [c]).map (·.elem)) l.taken
    rw [List.map_append]
    apply h.ring.announce
    · rwa [List.length_map]
    · rwa [List.length_map]
  · change (l.q.deviceIdx + 1) % 2 ^ 16 = (l.completed ++ [c]).length % 2 ^ 16
    rw [h.deviceIdx, succ_mod, List.length_append, List.length_singleton]
  · change l.seen ≤ (l.completed ++ [c]).length
    rw [List.length_append]
    exact h.seen.trans (Nat.le_add_right _ _)

/-- So does the look at the index. -/
theorem look (h : l.Tracks none) : l.look.Tracks (some l.q.deviceIdx) := by
  refine ⟨h.ring, h.deviceIdx, h.usedIdx, h.pending, le_rfl, ?_, fun hnone => absurd hnone (by simp)⟩
  intro t ht
  obtain rfl := Option.some.inj ht
  exact ⟨h.deviceIdx, h.counts.1⟩

/-- The loop goes on only while entries seen at the snapshot are left. -/
theorem taken_lt_seen {t : ℕ} (h : l.Tracks (some t)) (hne : l.q.usedIdx ≠ t) :
    l.taken.length < l.seen := by
  obtain ⟨ht, hle⟩ := h.looking t rfl
  apply lt_of_le_of_ne hle
  intro heq
  rw [h.usedIdx, ht, heq] at hne
  exact hne rfl

/-- The entry the handler looks at is the oldest announced one it has not taken. -/
theorem nextUsed_eq (h : l.Tracks target) (hsize : QueueSize l.q.num)
    (hlt : l.taken.length < l.completed.length) :
    nextUsed l.q = l.completed[l.taken.length].elem := by
  rw [nextUsed, h.usedIdx, mod_mod_of_dvd hsize.dvd, h.ring.slot _ (by rwa [List.length_map]) le_rfl,
    List.getElem_map]

/-- Processing one entry. -/
theorem take {t : ℕ} (h : l.Tracks (some t)) (hsize : QueueSize l.q.num) (hne : l.q.usedIdx ≠ t)
    (hring : l'.q.usedRing = l.q.usedRing) (hdevice : l'.q.deviceIdx = l.q.deviceIdx)
    (hused : l'.q.usedIdx = (l.q.usedIdx + 1) % 2 ^ 16) (hnum : l'.q.num = l.q.num)
    (hpending : l'.pending = l.pending) (hcompleted : l'.completed = l.completed)
    (htaken : l'.taken = l.taken ++ [nextUsed l.q]) (hseen : l'.seen = l.seen) :
    l'.Tracks (some t) := by
  have hlt := h.taken_lt_seen hne
  have hslot : l.q.usedIdx % l.q.num = l.taken.length % l.q.num := by
    rw [h.usedIdx, mod_mod_of_dvd hsize.dvd]
  have hlen : l'.taken.length = l.taken.length + 1 := by
    rw [htaken, List.length_append, List.length_singleton]
  constructor
  · rw [hring, hnum, hcompleted, htaken, nextUsed, hslot]
    apply h.ring.take
    rw [List.length_map]
    exact hlt.trans_le h.seen
  · rw [hdevice, hcompleted]
    exact h.deviceIdx
  · rw [hused, hlen, h.usedIdx, succ_mod]
  · intro c hc
    obtain ⟨hroom, hval⟩ := h.pending c (hpending ▸ hc)
    rw [hring, hnum, hcompleted, hlen]
    exact ⟨by omega, hval⟩
  · rw [hseen, hcompleted]
    exact h.seen
  · intro s hs
    rw [hseen, hlen]
    exact ⟨(h.looking s hs).1, hlt⟩
  · intro hnone
    exact absurd hnone (by simp)

/-- The loop stops at the snapshot. -/
theorem finish {t : ℕ} (h : l.Tracks (some t)) (hsize : QueueSize l.q.num) (heq : l.q.usedIdx = t) :
    l.Tracks none := by
  obtain ⟨ht, hle⟩ := h.looking t rfl
  have hroom := h.counts.2
  have hseen := h.seen
  have hlt := hsize.lt
  have hall : l.taken.length = l.seen := by
    have hmod : l.taken.length % 2 ^ 16 = l.seen % 2 ^ 16 := by
      rw [← h.usedIdx, heq, ht]
    refine eq_of_mod_eq hle ?_ hmod
    omega
  exact ⟨h.ring, h.deviceIdx, h.usedIdx, h.pending, h.seen, fun _ hs => absurd hs (by simp),
    fun _ => hall.ge⟩

end Lane.Tracks

/-- The device has room in the used ring of the queue it writes to. -/
def Lane.HasRoom (l : Lane) (side : Side) : Event → Prop
  | .deviceWrite side' _ => side' = side → l.completed.length < l.taken.length + l.q.num
  | _ => True

/-- No step changes the size of the queue. -/
theorem LaneStep.num_eq {side : Side} {e : Event} {l l' : Lane} {t t' : Option ℕ}
    (hstep : LaneStep side e l t l' t') : l'.q.num = l.q.num := by
  cases hstep with
  | send _ hcall =>
    rcases virtioNetSendPacket_cases hcall with ⟨-, rfl⟩ | ⟨-, rfl, -⟩ <;> rfl
  | _ => rfl

/-- Whatever happens, indices and counts stay together while the device has room. -/
theorem Lane.Tracks.step {side : Side} {e : Event} {l l' : Lane} {t t' : Option ℕ}
    (h : l.Tracks t) (hsize : QueueSize l.q.num) (hroom : l.HasRoom side e)
    (hstep : LaneStep side e l t l' t') : l'.Tracks t' := by
  cases hstep with
  | stay => exact h
  | send _ hcall =>
    rcases virtioNetSendPacket_cases hcall with ⟨-, rfl⟩ | ⟨-, rfl, -⟩
    · exact h.congr (sameUsed_virtqAddBuf _ _ _ _) rfl rfl rfl rfl
    · exact h.congr ⟨rfl, rfl, rfl, rfl⟩ rfl rfl rfl rfl
  | deviceWrite => exact h.deviceWrite hsize (hroom rfl) _
  | devicePublish hpending => exact h.devicePublish hpending
  | look => exact h.look
  | reclaim _ hne => exact h.take hsize hne rfl rfl rfl rfl rfl rfl rfl rfl
  | receive _ hne => exact h.take hsize hne rfl rfl rfl rfl rfl rfl rfl rfl
  | finish heq => exact h.finish hsize heq

/-! ## Runs -/

/-- What holds of both queues in every state reached. -/
def World.Tracks (w : World) : Prop :=
  ∀ side, QueueSize (w.lane side).q.num ∧ (w.lane side).Tracks (w.irq.target side)

/-- Every event keeps both lanes in step. -/
theorem World.Tracks.step {w w' : World} {e : Event} (h : w.Tracks)
    (hroom : ∀ side, (w.lane side).HasRoom side e) (hstep : WorldStep w e w') : w'.Tracks := by
  intro side
  obtain ⟨hsize, htracks⟩ := h side
  have hlane := laneStep_of_step hstep side
  exact ⟨hlane.num_eq ▸ hsize, htracks.step hsize (hroom side) hlane⟩

/-- A queue is not larger than the driver's table. -/
theorem negotiate_le (maxSize : ℕ) : negotiate numDesc maxSize ≤ numDesc := by
  rw [negotiate]
  split <;> omega

/-- A lane that starts with the size negotiated and nothing in the used ring. -/
theorem Lane.tracks_of_fresh {l : Lane} (hring : l.completed = [] ∧ l.taken = [] ∧ l.pending = none)
    (hseen : l.seen = 0) (hidx : l.q.deviceIdx = 0 ∧ l.q.usedIdx = 0) : l.Tracks none := by
  obtain ⟨hcompleted, htaken, hpending⟩ := hring
  constructor
  · rw [hcompleted, htaken]
    exact ⟨List.prefix_rfl, Nat.zero_le _, fun j hj => absurd hj (Nat.not_lt_zero j)⟩
  · rw [hidx.1, hcompleted]
    rfl
  · rw [hidx.2, htaken]
    rfl
  · rw [hpending]
    exact fun _ hc => absurd hc (by simp)
  · rw [hseen]
    exact Nat.zero_le _
  · exact fun _ hs => absurd hs (by simp)
  · rw [hseen]
    exact fun _ => Nat.zero_le _

section Start

variable {mem : Memory} {rxMaxSize txMaxSize : ℕ} {bufs : ℕ → ℕ}

/-- The size a lane starts with. -/
theorem World.start_num (side : Side) : ((World.start mem rxMaxSize txMaxSize bufs).lane side).q.num =
    negotiate numDesc (match side with | .rx => rxMaxSize | .tx => txMaxSize) := by
  cases side with
  | rx => exact (sameUsed_fillRx bufs _ _).2.2.2
  | tx => rfl

/-- With sizes that are powers of two both lanes start in step. -/
theorem World.tracks_start
    (hsize : ∀ side, ∃ k, ((World.start mem rxMaxSize txMaxSize bufs).lane side).q.num = 2 ^ k) :
    (World.start mem rxMaxSize txMaxSize bufs).Tracks := by
  intro side
  constructor
  · obtain ⟨k, hk⟩ := hsize side
    have hle : 2 ^ k ≤ 2 ^ 5 := by
      rw [← hk, World.start_num]
      exact negotiate_le _
    have hk5 : k ≤ 5 := (Nat.pow_le_pow_iff_right (by decide)).1 hle
    rw [hk]
    exact ⟨Nat.two_pow_pos k, pow_dvd_pow 2 (by omega), Nat.pow_lt_pow_right (by decide) (by omega)⟩
  · cases side with
    | rx =>
      obtain ⟨-, hdevice, hused, -⟩ := sameUsed_fillRx bufs (virtqAlloc 0 numDesc rxMaxSize) numDesc
      exact Lane.tracks_of_fresh ⟨rfl, rfl, rfl⟩ rfl ⟨hdevice, hused⟩
    | tx => exact Lane.tracks_of_fresh ⟨rfl, rfl, rfl⟩ rfl ⟨rfl, rfl⟩

end Start

/-! ## The handler comes to its end -/

section Drain

variable {w : World}

/-- The handler's own steps need nothing of the device. -/
theorem World.Tracks.handler {w' : World} (h : w.Tracks) (hstep : handlerStep w = some w') :
    w'.Tracks :=
  h.step (fun _ => trivial) (e := .handler) hstep

/-- From here the handler returns if the device keeps quiet. -/
def World.Returns (w : World) : Prop :=
  ∃ n w', Run WorldStep w (List.replicate n Event.handler) w' ∧ w'.irq = .idle

/-- A handler that returns from a later state returns from this one. -/
theorem World.Returns.before {w' : World} (h : w'.Returns) (hstep : handlerStep w = some w') :
    w.Returns := by
  obtain ⟨n, u, hrun, hidle⟩ := h
  refine ⟨n + 1, u, ?_, hidle⟩
  rw [List.replicate_succ]
  exact .cons hstep hrun

/-- At its snapshot the receive loop ends, and the handler with it. -/
theorem World.returns_of_received {rx : ℕ} (hirq : w.irq = .receive rx)
    (hstop : w.rx.q.usedIdx = rx) : w.Returns := by
  have hstep : handlerStep w = some { w with irq := .idle } := by
    rw [handlerStep, hirq]
    exact if_neg (not_not.2 hstop)
  exact World.Returns.before ⟨0, _, .nil _, rfl⟩ hstep

/-- The receive loop reaches its snapshot. -/
theorem World.Tracks.returns_receive (left : ℕ) {rx : ℕ} (h : w.Tracks) (hirq : w.irq = .receive rx)
    (hleft : w.rx.seen - w.rx.taken.length = left) : w.Returns := by
  induction left generalizing w with
  | zero =>
    apply World.returns_of_received hirq
    by_contra hne
    have hlt := (hirq ▸ (h .rx).2).taken_lt_seen hne
    change w.rx.taken.length < w.rx.seen at hlt
    omega
  | succ left ih =>
    by_cases hstop : w.rx.q.usedIdx = rx
    · exact World.returns_of_received hirq hstop
    · have hstep : handlerStep w = some { w with rx := w.rx.receive } := by
        rw [handlerStep, hirq]
        exact if_pos hstop
      have hlen : w.rx.receive.taken.length = w.rx.taken.length + 1 := List.length_append
      refine World.Returns.before (ih (h.handler hstep) hirq ?_) hstep
      change w.rx.seen - w.rx.receive.taken.length = left
      omega

/-- So does the loop over finished transmissions. -/
theorem World.Tracks.returns_reclaim (left : ℕ) {tx rx : ℕ} (h : w.Tracks)
    (hirq : w.irq = .reclaim tx rx) (hleft : w.tx.seen - w.tx.taken.length = left) : w.Returns := by
  have hdone (u : World) (hu : u.Tracks) (hirq : u.irq = .reclaim tx rx)
      (hstop : u.tx.q.usedIdx = tx) : u.Returns := by
    have hstep : handlerStep u = some { u with irq := .receive rx } := by
      rw [handlerStep, hirq]
      exact if_neg (not_not.2 hstop)
    exact World.Returns.before ((hu.handler hstep).returns_receive _ rfl rfl) hstep
  induction left generalizing w with
  | zero =>
    apply hdone w h hirq
    by_contra hne
    have hlt := (hirq ▸ (h .tx).2).taken_lt_seen hne
    change w.tx.taken.length < w.tx.seen at hlt
    omega
  | succ left ih =>
    by_cases hstop : w.tx.q.usedIdx = tx
    · exact hdone w h hirq hstop
    · have hstep : handlerStep w = some { w with tx := w.tx.reclaim } := by
        rw [handlerStep, hirq]
        exact if_pos hstop
      have hlen : w.tx.reclaim.taken.length = w.tx.taken.length + 1 := List.length_append
      refine World.Returns.before (ih (h.handler hstep) hirq ?_) hstep
      change w.tx.seen - w.tx.reclaim.taken.length = left
      omega

/-- The handler always returns. -/
theorem World.Tracks.returns (h : w.Tracks) : w.Returns := by
  cases hirq : w.irq with
  | idle => exact ⟨0, w, .nil _, hirq⟩
  | receive rx => exact h.returns_receive _ hirq rfl
  | reclaim tx rx => exact h.returns_reclaim _ hirq rfl
  | readRx tx =>
    have hstep : handlerStep w =
        some { w with rx := w.rx.look, irq := .reclaim tx w.rx.q.deviceIdx } := by
      rw [handlerStep, hirq]
    exact World.Returns.before ((h.handler hstep).returns_reclaim _ rfl rfl) hstep
  | readTx =>
    have hstep : handlerStep w = some { w with tx := w.tx.look, irq := .readRx w.tx.q.deviceIdx } := by
      rw [handlerStep, hirq]
    have hnext : handlerStep { w with tx := w.tx.look, irq := .readRx w.tx.q.deviceIdx } =
        some { w with
          tx := w.tx.look
          rx := w.rx.look
          irq := .reclaim w.tx.q.deviceIdx w.rx.q.deviceIdx } := rfl
    exact World.Returns.before (World.Returns.before
      (((h.handler hstep).handler hnext).returns_reclaim _ rfl rfl) hnext) hstep

end Drain

/-! ## Main result -/

/-- The device writes only ids below the queue size, and has room for them. -/
def UsedRoom (w : World) : Event → Prop
  | .deviceWrite side elem => elem.id < (w.lane side).q.num ∧
    (w.lane side).completed.length < (w.lane side).taken.length + (w.lane side).q.num
  | _ => True

/-- At all times the handler has processed a prefix of what the device announced on each
queue. Between its runs this prefix reaches at least as far as the last snapshot, and each of
its runs ends. -/
theorem World.used_in_order {mem : Memory} {rxMaxSize txMaxSize : ℕ} {bufs : ℕ → ℕ}
    (hsize : ∀ side, ∃ k, ((World.start mem rxMaxSize txMaxSize bufs).lane side).q.num = 2 ^ k)
    {events : List Event} {w : World}
    (hrun : Run (guarded UsedRoom WorldStep) (World.start mem rxMaxSize txMaxSize bufs) events w) :
    (∀ side, (w.lane side).taken <+: (w.lane side).completed.map (·.elem) ∧
      (w.irq = .idle →
        ((w.lane side).completed.take (w.lane side).seen).map (·.elem) <+: (w.lane side).taken)) ∧
      ∃ n w', Run WorldStep w (List.replicate n Event.handler) w' ∧ w'.irq = .idle := by
  have htracks : w.Tracks := by
    apply hrun.invariant (I := World.Tracks) (World.tracks_start hsize)
    intro t e u ht ⟨hroom, hstep⟩
    apply ht.step ?_ hstep
    intro side
    cases e with
    | deviceWrite other elem =>
      intro heq
      subst heq
      exact hroom.2
    | _ => trivial
  refine ⟨?_, htracks.returns⟩
  intro side
  have hlane := (htracks side).2
  refine ⟨hlane.ring.taken, ?_⟩
  intro hidle
  have hdone : (w.lane side).seen ≤ (w.lane side).taken.length := by
    apply hlane.caughtUp
    rw [hidle]
    cases side <;> rfl
  have htaken := hlane.ring.taken
  rw [List.prefix_iff_eq_take] at htaken
  rw [htaken, List.map_take]
  exact List.take_prefix_take_left hdone

instance (w : World) : (e : Event) → Decidable (UsedRoom w e)
  | .deviceWrite side elem => inferInstanceAs (Decidable (elem.id < (w.lane side).q.num ∧
    (w.lane side).completed.length < (w.lane side).taken.length + (w.lane side).q.num))
  | .send _ _ | .devicePublish _ | .interrupt _ | .handler => isTrue trivial

/-- A device with queues of 256, which the driver cuts down to 32, and buffers at 1 MiB. -/
def World.demo : World := World.start (fun _ => 0) 256 256 fun i => 0x100000 + bufferSize * i

/-- An interrupt with the queue bit set, and a packet that is announced while the handler
runs and stays for the next interrupt. -/
theorem World.used_in_order_demo : ∃ w : World, w.rx.taken = [⟨0, 64⟩] ∧
    (∀ side, (w.lane side).taken <+: (w.lane side).completed.map (·.elem) ∧
      (w.irq = .idle →
        ((w.lane side).completed.take (w.lane side).seen).map (·.elem) <+: (w.lane side).taken)) ∧
      ∃ n w', Run WorldStep w (List.replicate n Event.handler) w' ∧ w'.irq = .idle := by
  have hcalls : ∃ w, execute UsedRoom World.step World.demo
      [.deviceWrite .rx ⟨0, 64⟩, .devicePublish .rx, .interrupt 1, .handler, .handler,
        .deviceWrite .rx ⟨1, 60⟩, .devicePublish .rx, .handler, .handler, .handler] = some w ∧
        w.rx.taken = [⟨0, 64⟩] := ⟨_, rfl, by decide⟩
  obtain ⟨w, hcalls, htaken⟩ := hcalls
  have hsize : ∀ side, ∃ k, (World.demo.lane side).q.num = 2 ^ k := by
    intro side
    refine ⟨5, ?_⟩
    cases side <;> decide
  exact ⟨w, htaken, World.used_in_order hsize (run_of_execute (fun _ _ _ h => h) hcalls)⟩

end Orionis.Virtio
