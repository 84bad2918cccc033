import Mathlib.Data.List.Basic
import Orionis.E1000.Rings
import Orionis.Foundations.IndexRing
import Orionis.Foundations.Run

/-!
# Reception under the interrupt handler

The card stores frames at `RDH` while the handler works through the filled descriptors and
writes the index of the next one to `RDT`. The order of frames is kept, and the card never
owns a descriptor that holds an unprocessed frame. But a handler that catches up with the
card leaves `RDT` equal to `RDH`, and the card then owns nothing.
-/

namespace Orionis.E1000

open Orionis.Foundations

/-! ## Handler and card -/

/-- The ring, the handler, and what happened: each frame with the descriptor it was stored
in, the frames the handler has processed, and how many had been received when it last read
`RDH`. -/
structure RxWorld where
  ring : RxRing
  handler : Handler
  received : List (ℕ × List UInt8)
  processed : List (List UInt8)
  seen : ℕ

/-- A frame arrives, an interrupt is delivered, or the handler goes on. -/
inductive RxEvent
  | receive (frame : List UInt8)
  | interrupt (icr : UInt32)
  | handler
  deriving DecidableEq, Repr

namespace RxWorld

/-- After `e1000_init`. -/
def start (mem : Memory) (bufs : Buffers) : RxWorld := ⟨RxRing.init mem bufs, .idle, [], [], 0⟩

/-- One round of the loop of the handler, up to the write of `RDT`. -/
def process (w : RxWorld) (currentRdh : ℕ) : RxWorld :=
  { w with
    ring := w.ring.recycle
    handler := .publish currentRdh
    processed := w.processed ++ [w.ring.packet] }

/-- The handler's next step, if it runs. -/
def handlerStep (w : RxWorld) : Option RxWorld :=
  match w.handler with
  | .idle => none
  | .loop currentRdh =>
    if w.ring.rxCur ≠ currentRdh then
      if ¬ w.ring.done then some { w with handler := .idle } else some (w.process currentRdh)
    else some { w with handler := .idle }
  | .publish currentRdh =>
    some { w with
      ring := { w.ring with rdt := w.ring.rxCur }
      handler := .loop currentRdh }

/-- What the event makes of the state. The card stores frames while its registers differ. -/
def step (w : RxWorld) : RxEvent → Option RxWorld
  | .receive frame =>
    if w.ring.rdh ≠ w.ring.rdt ∧ frame.length ≤ maxFrame then
      some { w with
        ring := w.ring.store frame
        received := w.received ++ [(w.ring.rdh, frame)] }
    else none
  | .interrupt icr =>
    if w.handler = .idle then
      if rxCause icr then some { w with handler := .loop w.ring.rdh, seen := w.received.length }
      else some w
    else none
  | .handler => w.handlerStep

/-! ## The property -/

/-- Frames are processed once and in order, and no descriptor with an unprocessed one is the
card's. -/
structure Sound (w : RxWorld) : Prop where
  in_order : w.processed <+: w.received.map Prod.snd
  owned : ∀ f ∈ w.received.drop w.processed.length, ¬ Owned numDesc w.ring.rdh w.ring.rdt f.1

/-- A handler run has processed what had arrived when it began, and if nothing else is left
the card can go on. -/
structure Served (w : RxWorld) : Prop where
  caught_up : w.seen ≤ w.processed.length
  alive : w.processed.length = w.received.length → w.ring.rdh ≠ w.ring.rdt

/-- What a step should leave; a return of the handler should have served the card. -/
def Meets (w w' : RxWorld) : Prop :=
  w'.Sound ∧ (w.handler ≠ .idle → w'.handler = .idle → w'.Served)

/-- The handler is about to return. -/
def Returning (w : RxWorld) : Prop :=
  ∃ currentRdh, w.handler = .loop currentRdh ∧ (w.ring.rxCur = currentRdh ∨ ¬ w.ring.done)

/-- A handler that returns has been overtaken by another frame, unless none was ever
processed. -/
def Overtaken (w : RxWorld) (e : RxEvent) : Prop :=
  e = .handler → w.Returning → w.processed = [] ∨ w.seen < w.received.length

end RxWorld

/-- One event. -/
def RxStep (w : RxWorld) (e : RxEvent) (w' : RxWorld) : Prop := w.step e = some w'

/-! ## The invariant -/

/-- The frame in a descriptor. -/
def RxRing.frame (r : RxRing) (i : ℕ) : List UInt8 :=
  loadBytes r.mem (r.rxDescs i).length (r.rxBuffers i)

/-- How many of the processed frames `RDT` has been written for. -/
def Handler.published (handler : Handler) (processed : ℕ) : ℕ :=
  match handler with
  | .publish _ => processed - 1
  | _ => processed

/-- The card's index, the handler's and `RDT` count along with the frames. -/
structure RxWorld.Inv (bufs : Buffers) (w : RxWorld) : Prop where
  buffers : w.ring.rxBuffers = bufs.addr
  addr : ∀ i < numDesc, (w.ring.rxDescs i).addr = bufs.addr i
  length_le : ∀ i < numDesc, (w.ring.rxDescs i).length ≤ bufferSize
  frames : IndexRing numDesc w.ring.frame (w.received.map Prod.snd) w.processed
  slots : ∀ k (h : k < w.received.length), w.received[k].1 = k % numDesc
  done : ∀ k, w.processed.length ≤ k → k < w.received.length →
    (w.ring.rxDescs (k % numDesc)).status &&& statusDD ≠ 0
  cur : w.ring.rxCur = w.processed.length % numDesc
  head : w.ring.rdh = w.received.length % numDesc
  tail : let count := w.handler.published w.processed.length
    count = 0 ∧ w.ring.rdt = numDesc - 1 ∧ w.received.length ≤ numDesc - 1 ∨
      0 < count ∧ w.ring.rdt = count % numDesc ∧ w.received.length ≤ count + numDesc
  publishing : ∀ currentRdh, w.handler = .publish currentRdh → w.processed ≠ []
  running : ∀ currentRdh, w.handler = .loop currentRdh ∨ w.handler = .publish currentRdh →
    currentRdh = w.seen % numDesc ∧ w.processed.length ≤ w.seen ∧
      w.seen ≤ w.processed.length + numDesc ∧ w.seen ≤ w.received.length

section Steps

variable {bufs : Buffers} {w w' : RxWorld}

/-- Storing a frame changes the frame of the descriptor at `RDH` only. -/
theorem RxRing.frame_store {r : RxRing} {frame : List UInt8} (hbufs : r.rxBuffers = bufs.addr)
    (haddr : ∀ i < numDesc, (r.rxDescs i).addr = bufs.addr i)
    (hlength : ∀ i < numDesc, (r.rxDescs i).length ≤ bufferSize) (hhead : r.rdh < numDesc)
    (hframe : frame.length ≤ maxFrame) {i : ℕ} (hi : i < numDesc) :
    (r.store frame).frame i = Function.update r.frame r.rdh frame i := by
  have hmem : (r.store frame).mem = storeBytes r.mem (bufs.addr r.rdh) frame := by
    rw [← haddr _ hhead]
    rfl
  rw [RxRing.frame, hmem]
  change loadBytes _ (Function.update r.rxDescs r.rdh _ i).length (r.rxBuffers i) = _
  rw [hbufs]
  by_cases hsame : i = r.rdh
  · subst hsame
    rw [Function.update_self, Function.update_self]
    exact loadBytes_storeBytes_same _ _ _
  · rw [Function.update_of_ne hsame, Function.update_of_ne hsame, RxRing.frame, hbufs]
    have hapart := bufs.apart i r.rdh hi hhead hsame
    have hold := hlength i hi
    apply loadBytes_congr
    intro x hlo hhi
    apply storeBytes_of_outside
    simp only [bufferSize, maxFrame] at *
    omega

/-- Storing a frame keeps the addresses. -/
theorem RxRing.addr_store (r : RxRing) (frame : List UInt8) (i : ℕ) :
    ((r.store frame).rxDescs i).addr = (r.rxDescs i).addr := by
  change (Function.update r.rxDescs r.rdh _ i).addr = _
  by_cases hsame : i = r.rdh
  · rw [hsame, Function.update_self]
  · rw [Function.update_of_ne hsame]

/-- A frame that fits leaves every length within its buffer. -/
theorem RxRing.length_store_le {r : RxRing} {frame : List UInt8} (hframe : frame.length ≤ maxFrame)
    {i : ℕ} (hi : (r.rxDescs i).length ≤ bufferSize) :
    ((r.store frame).rxDescs i).length ≤ bufferSize := by
  change (Function.update r.rxDescs r.rdh _ i).length ≤ _
  by_cases hsame : i = r.rdh
  · rw [hsame, Function.update_self]
    exact hframe.trans (by decide)
  · rw [Function.update_of_ne hsame]
    exact hi

/-- Clearing a status keeps addresses and lengths. -/
theorem RxRing.recycle_keeps (r : RxRing) (i : ℕ) :
    (r.recycle.rxDescs i).addr = (r.rxDescs i).addr ∧
      (r.recycle.rxDescs i).length = (r.rxDescs i).length := by
  change (Function.update r.rxDescs r.rxCur _ i).addr = _ ∧
    (Function.update r.rxDescs r.rxCur _ i).length = _
  by_cases hsame : i = r.rxCur
  · rw [hsame, Function.update_self]
    exact ⟨rfl, rfl⟩
  · rw [Function.update_of_ne hsame]
    exact ⟨rfl, rfl⟩

/-- Clearing a status keeps the frame. -/
theorem RxRing.frame_recycle (r : RxRing) (i : ℕ) : r.recycle.frame i = r.frame i := by
  rw [RxRing.frame, RxRing.frame, (r.recycle_keeps i).2]
  rfl

/-- The ring starts with every buffer empty and nothing received. -/
theorem RxWorld.inv_start (mem : Memory) (bufs : Buffers) : (start mem bufs).Inv bufs where
  buffers := rfl
  addr := fun _ _ => rfl
  length_le := fun _ _ => Nat.zero_le _
  frames := ⟨List.prefix_rfl, Nat.zero_le _, fun j hj => absurd hj (Nat.not_lt_zero j)⟩
  slots := fun k hk => absurd hk (Nat.not_lt_zero k)
  done := fun k _ hk => absurd hk (Nat.not_lt_zero k)
  cur := rfl
  head := rfl
  tail := Or.inl ⟨rfl, rfl, Nat.zero_le _⟩
  publishing := fun _ h => by cases h
  running := fun _ h => by cases h <;> contradiction

/-- No more frames are processed than received. -/
theorem RxWorld.Inv.processed_le (hi : w.Inv bufs) : w.processed.length ≤ w.received.length := by
  have hle := hi.frames.taken.length_le
  rwa [List.length_map] at hle

/-- The card's next descriptor is not one with an unprocessed frame. -/
theorem RxWorld.Inv.room (hi : w.Inv bufs) (hwork : w.ring.rdh ≠ w.ring.rdt) :
    w.received.length < w.processed.length + numDesc := by
  have htail := hi.tail
  have hle : w.handler.published w.processed.length ≤ w.processed.length := by
    cases w.handler <;> simp [Handler.published]
  rw [hi.head] at hwork
  simp only [numDesc] at *
  omega

/-- Slots of unprocessed frames and of the next one are told apart. -/
theorem slot_ne {first j k : ℕ} (hlo : first ≤ j) (hjk : j < k) (hhi : k < first + numDesc) :
    j % numDesc ≠ k % numDesc := by
  intro heq
  have hsame := eq_of_mod_eq (Nat.le_of_lt hjk) (by omega) heq
  omega

/-- A frame of the card keeps the invariant. -/
theorem RxWorld.Inv.receive (hi : w.Inv bufs) {frame : List UInt8}
    (hstep : RxStep w (.receive frame) w') : w'.Inv bufs := by
  obtain ⟨⟨hwork, hframe⟩, heq⟩ := Option.ite_none_right_eq_some.1 hstep
  obtain rfl := Option.some.inj heq
  have hroom := hi.room hwork
  have hhead : w.ring.rdh < numDesc := by
    rw [hi.head]
    exact Nat.mod_lt _ (by decide)
  have hprocessed := hi.processed_le
  have hdesc {i : ℕ} (hne : i ≠ w.ring.rdh) :
      (w.ring.store frame).rxDescs i = w.ring.rxDescs i := Function.update_of_ne hne _ _
  have hstored : ((w.ring.store frame).rxDescs w.ring.rdh).status =
      (w.ring.rxDescs w.ring.rdh).status ||| statusDD := by
    change (Function.update w.ring.rxDescs w.ring.rdh _ w.ring.rdh).status = _
    rw [Function.update_self]
  refine ⟨hi.buffers, ?_, ?_, ?_, ?_, ?_, hi.cur, ?_, ?_, hi.publishing, ?_⟩
  · intro i hlt
    exact (w.ring.addr_store frame i).trans (hi.addr i hlt)
  · intro i hlt
    exact RxRing.length_store_le hframe (hi.length_le i hlt)
  · have hmapped : (w.received.map Prod.snd).length < w.processed.length + numDesc := by
      rwa [List.length_map]
    have hlast : (w.received.map Prod.snd).length % numDesc = w.ring.rdh := by
      rw [List.length_map, hi.head]
    have hwrite := (hi.frames.write hmapped frame).announce hmapped (Function.update_self _ _ _)
    rw [hlast] at hwrite
    rw [List.map_append]
    apply hwrite.congr (by decide)
    intro i hlt
    exact RxRing.frame_store hi.buffers hi.addr hi.length_le hhead hframe hlt
  · intro k hk
    rw [List.getElem_append]
    split
    · next hold => exact hi.slots k hold
    · next hnew =>
      have hlast : k = w.received.length := by
        simp at hk
        omega
      simp [hlast, hi.head]
  · intro k hlo hk
    change ((w.ring.store frame).rxDescs (k % numDesc)).status &&& statusDD ≠ 0
    by_cases hlast : k = w.received.length
    · rw [hlast, ← hi.head, hstored]
      exact done_of_set _
    · have hold : k < w.received.length := by
        simp at hk
        omega
      rw [hdesc]
      · exact hi.done k hlo hold
      · rw [hi.head]
        exact slot_ne hlo hold hroom
  · change (w.ring.rdh + 1) % numDesc = _
    rw [hi.head, succ_mod, List.length_append, List.length_singleton]
  · have htail := hi.tail
    rw [hi.head] at hwork
    simp only [List.length_append, List.length_singleton]
    simp only [numDesc, RxRing.store] at *
    omega
  · intro currentRdh hrun
    obtain ⟨hrdh, hlo, hhi, hseen⟩ := hi.running currentRdh hrun
    refine ⟨hrdh, hlo, hhi, ?_⟩
    simp only [List.length_append]
    omega

/-- A round of the loop: the next frame is there, and is processed. -/
theorem RxWorld.Inv.process (hi : w.Inv bufs) {currentRdh : ℕ} (hloop : w.handler = .loop currentRdh)
    (hne : w.ring.rxCur ≠ currentRdh) : w.ring.done ∧ (w.process currentRdh).Inv bufs := by
  obtain ⟨hrdh, hlo, hhi, hseen⟩ := hi.running currentRdh (Or.inl hloop)
  rw [hi.cur, hrdh] at hne
  have hahead : w.processed.length < w.seen := by
    have hdiff : w.processed.length ≠ w.seen := fun h => hne (by rw [h])
    omega
  have hnext : w.processed.length < w.received.length := Nat.lt_of_lt_of_le hahead hseen
  have hroom := hi.frames.room
  have hlength : (w.process currentRdh).processed.length = w.processed.length + 1 := by
    simp [RxWorld.process]
  have hdesc {i : ℕ} (hne : i ≠ w.ring.rxCur) :
      w.ring.recycle.rxDescs i = w.ring.rxDescs i := Function.update_of_ne hne _ _
  refine ⟨?_, hi.buffers, ?_, ?_, ?_, hi.slots, ?_, ?_, hi.head, ?_, ?_, ?_⟩
  · rw [RxRing.done, hi.cur, bne_iff_ne]
    exact hi.done _ le_rfl hnext
  · intro i hlt
    exact (w.ring.recycle_keeps i).1.trans (hi.addr i hlt)
  · intro i hlt
    exact (w.ring.recycle_keeps i).2.trans_le (hi.length_le i hlt)
  · have htake := hi.frames.take (by rwa [List.length_map])
    rw [← hi.cur] at htake
    exact htake.congr (by decide) fun i _ => w.ring.frame_recycle i
  · intro k hk hlt
    rw [hlength] at hk
    change (w.ring.recycle.rxDescs (k % numDesc)).status &&& statusDD ≠ 0
    rw [hdesc]
    · exact hi.done k (by omega) hlt
    · rw [hi.cur]
      rw [List.length_map] at hroom
      have hbound : k < w.processed.length + numDesc := Nat.lt_of_lt_of_le hlt hroom
      exact (slot_ne le_rfl hk hbound).symm
  · rw [hlength, ← succ_mod, ← hi.cur]
    rfl
  · have htail := hi.tail
    rw [hloop] at htail
    rw [hlength]
    exact htail
  · intro _ _
    simp [RxWorld.process]
  · intro other hother
    have hsame : other = currentRdh := by
      cases hother with
      | inl hloop => cases hloop
      | inr hpublish =>
        cases hpublish
        rfl
    rw [hlength]
    have hbehind : w.seen ≤ w.processed.length + 1 + numDesc := by omega
    exact ⟨hsame.trans hrdh, hahead, hbehind, hseen⟩

/-- Writing `RDT`. -/
theorem RxWorld.Inv.publish (hi : w.Inv bufs) {currentRdh : ℕ}
    (hpublish : w.handler = .publish currentRdh) :
    RxWorld.Inv bufs { w with
      ring := { w.ring with rdt := w.ring.rxCur }
      handler := .loop currentRdh } := by
  refine ⟨hi.buffers, hi.addr, hi.length_le, hi.frames, hi.slots, hi.done, hi.cur, hi.head, ?_,
    fun _ h => (by cases h), ?_⟩
  · have hsome := List.length_pos_of_ne_nil (hi.publishing currentRdh hpublish)
    have hroom := hi.frames.room
    rw [List.length_map] at hroom
    exact Or.inr ⟨hsome, hi.cur, hroom⟩
  · intro other hother
    apply hi.running other
    right
    rw [hpublish]
    cases hother with
    | inl hloop =>
      cases hloop
      rfl
    | inr h => cases h

/-- The handler returns. -/
theorem RxWorld.Inv.idle (hi : w.Inv bufs) (hloop : ∃ currentRdh, w.handler = .loop currentRdh) :
    RxWorld.Inv bufs { w with handler := .idle } := by
  obtain ⟨currentRdh, hloop⟩ := hloop
  have htail := hi.tail
  rw [hloop] at htail
  exact ⟨hi.buffers, hi.addr, hi.length_le, hi.frames, hi.slots, hi.done, hi.cur, hi.head, htail,
    fun _ h => (by cases h), fun _ h => (by cases h <;> contradiction)⟩

/-- An interrupt with a receive cause. -/
theorem RxWorld.Inv.interrupt (hi : w.Inv bufs) (hidle : w.handler = .idle) :
    RxWorld.Inv bufs { w with handler := .loop w.ring.rdh, seen := w.received.length } := by
  have htail := hi.tail
  have hroom := hi.frames.room
  rw [hidle] at htail
  rw [List.length_map] at hroom
  refine ⟨hi.buffers, hi.addr, hi.length_le, hi.frames, hi.slots, hi.done, hi.cur, hi.head, htail,
    fun _ h => (by cases h), ?_⟩
  intro other hother
  have hsame : other = w.ring.rdh := by
    cases hother with
    | inl hloop =>
      cases hloop
      rfl
    | inr h => cases h
  exact ⟨hsame.trans hi.head, hi.processed_le, hroom, le_rfl⟩

/-- What a step of the handler is: a round of its loop, a write of `RDT`, or its return. -/
theorem RxWorld.handlerStep_cases (h : w.handlerStep = some w') :
    (∃ currentRdh, w.handler = .loop currentRdh ∧ w.ring.rxCur ≠ currentRdh ∧ w.ring.done ∧
        w' = w.process currentRdh) ∨
      (∃ currentRdh, w.handler = .publish currentRdh ∧
        w' = { w with
          ring := { w.ring with rdt := w.ring.rxCur }
          handler := .loop currentRdh }) ∨
      w.Returning ∧ w' = { w with handler := .idle } := by
  rw [RxWorld.handlerStep] at h
  cases hphase : w.handler with
  | idle =>
    rw [hphase] at h
    cases h
  | loop currentRdh =>
    rw [hphase] at h
    simp only at h
    by_cases hcur : w.ring.rxCur = currentRdh
    · rw [if_neg (not_not.2 hcur)] at h
      exact Or.inr (Or.inr ⟨⟨currentRdh, hphase, Or.inl hcur⟩, (Option.some.inj h).symm⟩)
    · rw [if_pos hcur] at h
      by_cases hdone : w.ring.done
      · rw [if_neg (not_not.2 hdone)] at h
        exact Or.inl ⟨currentRdh, rfl, hcur, hdone, (Option.some.inj h).symm⟩
      · rw [if_pos hdone] at h
        exact Or.inr (Or.inr ⟨⟨currentRdh, hphase, Or.inr hdone⟩, (Option.some.inj h).symm⟩)
  | publish currentRdh =>
    rw [hphase] at h
    exact Or.inr (Or.inl ⟨currentRdh, rfl, (Option.some.inj h).symm⟩)

/-- Every event keeps the invariant. -/
theorem RxWorld.Inv.step (hi : w.Inv bufs) {e : RxEvent} (hstep : RxStep w e w') : w'.Inv bufs := by
  cases e with
  | receive frame => exact hi.receive hstep
  | interrupt icr =>
    obtain ⟨hidle, heq⟩ := Option.ite_none_right_eq_some.1 hstep
    split at heq
    · obtain rfl := Option.some.inj heq
      exact hi.interrupt hidle
    · obtain rfl := Option.some.inj heq
      exact hi
  | handler =>
    rcases handlerStep_cases hstep with ⟨r, hloop, hne, -, rfl⟩ | ⟨r, hpublish, rfl⟩ | ⟨hret, rfl⟩
    · exact (hi.process hloop hne).2
    · exact hi.publish hpublish
    · obtain ⟨r, hloop, -⟩ := hret
      exact hi.idle ⟨r, hloop⟩

/-! ## What the invariant says of the property -/

/-- Order and ownership hold whatever the handler does. -/
theorem RxWorld.Inv.sound (hi : w.Inv bufs) : w.Sound := by
  refine ⟨hi.frames.taken, ?_⟩
  intro f hf howned
  obtain ⟨d, hd, rfl⟩ := List.getElem_of_mem hf
  rw [List.length_drop] at hd
  rw [List.getElem_drop, hi.slots _ (by omega), hi.head] at howned
  have hcount : w.handler.published w.processed.length ≤ w.processed.length := by
    cases w.handler <;> simp [Handler.published]
  -- the unprocessed frame lies behind the frames `RDT` has been written for
  generalize hk : w.processed.length + d = k at howned
  rcases hi.tail with ⟨-, htail, hroom⟩ | ⟨-, htail, hroom⟩
  · have hlast : numDesc - 1 = (numDesc - 1) % numDesc := by decide
    rw [htail, hlast, owned_iff hroom (by simp only [numDesc]; omega)] at howned
    obtain ⟨j, hlo, hhi, hsame⟩ := howned
    exact slot_ne (Nat.zero_le k) (by omega) (by simp only [numDesc] at *; omega) hsame
  · rw [htail] at howned
    by_cases hcaught : w.received.length = w.handler.published w.processed.length
    · omega
    · rw [← Nat.add_mod_right (w.handler.published _), owned_iff (by omega) (by omega)] at howned
      obtain ⟨j, hlo, hhi, hsame⟩ := howned
      exact slot_ne (by omega) (by omega) hhi hsame

/-- A return serves the card if the handler has been overtaken, and only then. -/
theorem RxWorld.Inv.served_iff (hi : w.Inv bufs) (hret : w.Returning) :
    RxWorld.Served { w with handler := .idle } ↔ w.processed = [] ∨ w.seen < w.received.length := by
  obtain ⟨currentRdh, hloop, hstop⟩ := hret
  obtain ⟨hrdh, hlo, hhi, hseen⟩ := hi.running currentRdh (Or.inl hloop)
  -- the loop only ends where it has come to the `RDH` it read
  have hcur : w.ring.rxCur = currentRdh := by
    by_contra hne
    cases hstop with
    | inl heq => exact hne heq
    | inr hdone => exact hdone (hi.process hloop hne).1
  rw [hi.cur, hrdh] at hcur
  have htail := hi.tail
  have hhead := hi.head
  have hempty : w.processed = [] ↔ w.processed.length = 0 := List.length_eq_zero_iff.symm
  rw [hloop] at htail
  simp only [Handler.published] at htail
  rw [hempty]
  simp only [numDesc] at *
  constructor
  · intro hserved
    have hcaught : w.seen ≤ w.processed.length := hserved.caught_up
    have halive : w.processed.length = w.received.length → w.ring.rdh ≠ w.ring.rdt := hserved.alive
    by_contra hnot
    apply halive
    · omega
    · omega
  · intro hover
    constructor
    · change w.seen ≤ w.processed.length
      omega
    · change w.processed.length = w.received.length → w.ring.rdh ≠ w.ring.rdt
      omega

end Steps

/-! ## Main result -/

/-- In every run, a step leaves what it should exactly if a returning handler has been
overtaken. -/
theorem RxWorld.meets_iff_of_run {mem : Memory} {bufs : Buffers} {events : List RxEvent}
    {w w' : RxWorld} {e : RxEvent} (hrun : Run RxStep (start mem bufs) events w)
    (hstep : RxStep w e w') : w.Meets w' ↔ w.Overtaken e := by
  have hi : w.Inv bufs := by
    apply hrun.invariant (I := RxWorld.Inv bufs) (inv_start mem bufs)
    intro t e u ht he
    exact ht.step he
  have hi' := hi.step hstep
  rw [Meets, and_iff_right hi'.sound]
  cases e with
  | receive frame =>
    obtain ⟨-, heq⟩ := Option.ite_none_right_eq_some.1 hstep
    obtain rfl := Option.some.inj heq
    exact ⟨fun _ h => (by cases h), fun _ hbusy hidle => absurd hidle hbusy⟩
  | interrupt icr =>
    obtain ⟨hidle, -⟩ := Option.ite_none_right_eq_some.1 hstep
    exact ⟨fun _ h => (by cases h), fun _ hbusy => absurd hidle hbusy⟩
  | handler =>
    rcases handlerStep_cases hstep with ⟨r, hloop, hne, hdone, rfl⟩ | ⟨r, hpublish, rfl⟩ | ⟨hret, rfl⟩
    · have hnot : ¬ w.Returning := by
        intro hret
        obtain ⟨s, hs, hstop⟩ := hret
        cases hloop.symm.trans hs
        cases hstop with
        | inl heq => exact hne heq
        | inr hopen => exact hopen hdone
      exact ⟨fun _ _ hret => absurd hret hnot, fun _ _ hidle => (by cases hidle)⟩
    · have hnot : ¬ w.Returning := by
        intro hret
        obtain ⟨s, hs, -⟩ := hret
        cases hpublish.symm.trans hs
      exact ⟨fun _ _ hret => absurd hret hnot, fun _ _ hidle => (by cases hidle)⟩
    · have hbusy : w.handler ≠ .idle := by
        obtain ⟨s, hs, -⟩ := hret
        rw [hs]
        exact fun h => by cases h
      have hserved := hi.served_iff hret
      constructor
      · intro hmeets _ _
        exact hserved.1 (hmeets hbusy rfl)
      · intro hover _ _
        exact hserved.2 (hover rfl hret)

/-- The second frame arrives while the first one is processed. -/
theorem RxWorld.meets_iff_of_run_overtaken : ∃ w w' : RxWorld,
    w'.handler = .idle ∧ w'.processed = [[1]] ∧ w.Meets w' := by
  have hrun : ∃ w w', Run RxStep (start (fun _ => 0) (.consecutive 0x100000))
      [.receive [1], .interrupt 1, .handler, .receive [2], .handler] w ∧ RxStep w .handler w' ∧
        w'.handler = .idle ∧ w'.processed = [[1]] ∧ w.seen < w.received.length :=
    ⟨_, _, .cons rfl (.cons rfl (.cons rfl (.cons rfl (.single rfl)))), rfl, rfl, rfl, by decide⟩
  obtain ⟨w, w', hrun, hstep, hidle, hprocessed, hover⟩ := hrun
  exact ⟨w, w', hidle, hprocessed, (meets_iff_of_run hrun hstep).2 fun _ _ => Or.inr hover⟩

/-- The handler processes the only frame and leaves the card without a descriptor. -/
theorem RxWorld.not_meets_caughtUp : ∃ w w',
    Run RxStep (start (fun _ => 0) (.consecutive 0x100000))
      [.receive [1], .interrupt 1, .handler, .handler] w ∧ RxStep w .handler w' ∧
        w'.ring.rdh = 1 ∧ w'.ring.rdt = 1 ∧ ¬ w.Meets w' := by
  have hrun : ∃ w w', Run RxStep (start (fun _ => 0) (.consecutive 0x100000))
      [.receive [1], .interrupt 1, .handler, .handler] w ∧ RxStep w .handler w' ∧
        w'.ring.rdh = 1 ∧ w'.ring.rdt = 1 ∧ w.handler = .loop 1 ∧ w'.handler = .idle ∧
        w'.processed.length = w'.received.length :=
    ⟨_, _, .cons rfl (.cons rfl (.cons rfl (.single rfl))), rfl, rfl, rfl, rfl, rfl, rfl⟩
  obtain ⟨w, w', hrun, hstep, hhead, htail, hloop, hidle, hall⟩ := hrun
  refine ⟨w, w', hrun, hstep, hhead, htail, ?_⟩
  intro hmeets
  have hserved := hmeets.2 (by rw [hloop]; exact fun h => by cases h) hidle
  exact hserved.alive hall (hhead.trans htail.symm)

end Orionis.E1000
