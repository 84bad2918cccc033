import Mathlib.Data.List.Range
import Orionis.Virtio.Leftovers

/-!
# A failed initialisation

What `virtio_net_init` leaves behind wherever it returns, and what the calls that send
packets find afterwards. The outcome is a matter of the device's replies and of what
`buddy_alloc` returns: the first poll that reads zero fixes the place of every later reply,
and the receive buffers are the blocks 8 to 39.
-/

namespace Orionis.Virtio

open Orionis.Foundations

namespace Net

/-! ## Calls that send -/

/-- What a call that sends a packet reports, or that it goes through a null `tx_q`. -/
inductive SendResult
  | sent
  | failed
  | nullQueue
  deriving DecidableEq, Repr

/-- `virtio_net_send_packet` on the statics, with the buffer its `buddy_alloc` returned. -/
def sendPacket (n : Net) (mem : Memory) (txBuffer : UInt64) (data : List UInt8) :
    SendResult × Memory × Net :=
  if data.length = 0 ∨ 1514 < data.length then (.failed, mem, n)
  else if txBuffer = 0 then (.failed, mem, n)
  else
    match n.txQ with
    | none => (.nullQueue, mem, n)
    | some tx =>
      let (accepted, mem, queue) := virtioNetSendPacket mem tx.queue txBuffer.toNat data
      let n := { n with txQ := some { tx with queue := queue } }
      if accepted then (.sent, mem, n.virtqKick { tx with queue := queue })
      else (.failed, mem, n)

/-- The packet of `cmd_nettest_virtio`. -/
def arpPacket (mac : ℕ → UInt8) : List UInt8 :=
  let mac := (List.range 6).map mac
  List.replicate 6 0xFF ++ mac ++
    [0x08, 0x06, 0x00, 0x01, 0x08, 0x00, 0x06, 0x04, 0x00, 0x01] ++ mac ++
    [10, 0, 2, 15] ++ List.replicate 6 0 ++ [10, 0, 2, 2] ++ List.replicate 18 0

/-- The check of `cmd_nettest_virtio` that takes the card for not set up. -/
def noMac (mac : ℕ → UInt8) : Prop := mac 0 = 0 ∧ mac 1 = 0 ∧ mac 2 = 0

instance (mac : ℕ → UInt8) : Decidable (noMac mac) := inferInstanceAs (Decidable (_ ∧ _))

/-- A later call, with the buffer its `buddy_alloc` returns. -/
inductive Later
  | nettest (txBuffer : UInt64)
  | send (data : List UInt8) (txBuffer : UInt64)

/-- `cmd_nettest_virtio` and `virtio_net_send_packet`. -/
def later (n : Net) (mem : Memory) : Later → SendResult × Memory × Net
  | .nettest txBuffer =>
    if noMac n.macAddr then (.failed, mem, n)
    else n.sendPacket mem txBuffer (arpPacket n.macAddr)
  | .send data txBuffer => n.sendPacket mem txBuffer data

/-! ## What a failed initialisation must not do -/

/-- `tx_q` is there, and `queue_enable` has been written for it. -/
def TxReady (n : Net) : Prop := ∃ tx, n.txQ = some tx ∧ tx.enabled = true

/-- Each of the calls finds a queue that is fully set up, or reports failure. -/
def LaterSafe (mem : Memory) (n : Net) : List Later → Prop
  | [] => True
  | call :: calls =>
    (n.TxReady ∨ (n.later mem call).1 = .failed) ∧
      LaterSafe (n.later mem call).2.1 (n.later mem call).2.2 calls

/-- No null buffer was written or posted, and the later calls are safe. -/
structure FailSafe (mem : Memory) (calls : List Later) (n : Net) : Prop where
  buffers : ∀ e ∈ n.trace, ¬ e.onNull
  later : LaterSafe mem n calls

/-! ## What the replies decide -/

variable (env : Env)

/-- The poll that reads zero, of the first 1000. -/
def resetAt : Option ℕ := (List.range' 0 1000).find? fun i => env.reply i % 2 ^ 8 = 0

/-- The features the device offers, read after `i`. -/
def offered (i : ℕ) : UInt64 :=
  UInt64.ofNat (env.reply (i + 2) % 2 ^ 32) ||| (UInt64.ofNat (env.reply (i + 3) % 2 ^ 32) <<< 32)

/-- The device offers its address. -/
def offersMac (i : ℕ) : Prop := offered env i &&& (1 : UInt64) <<< 5 ≠ 0

instance (i : ℕ) : Decidable (offersMac env i) := inferInstanceAs (Decidable (¬ _))

/-- The reply behind the last poll, where the call gets as far as the queues. -/
def queuesAt (n : Net) : Option ℕ :=
  if ∃ cfgType ∈ crucial, n.Misses env cfgType then none
  else ((resetAt env).map (· + 1)).filter fun i => env.reply (i + 5) % 2 ^ 8 &&& 0x08 ≠ 0

/-- The place of the replies to `virtq_alloc`. -/
def queueReply (i : ℕ) : ℕ := if offersMac env i then i + 12 else i + 6

/-- The first four blocks from `allocs` on are there, and the queue is not enabled yet. -/
def QueueUp (allocs reads : ℕ) : Prop :=
  (∀ j < 4, env.alloc (allocs + j) ≠ 0) ∧ env.reply reads % 2 ^ 16 = 0

instance (allocs reads : ℕ) : Decidable (QueueUp env allocs reads) :=
  inferInstanceAs (Decidable (_ ∧ _))

/-- Both queues can be allocated. -/
def QueuesUp (i : ℕ) : Prop :=
  QueueUp env 0 (queueReply env i) ∧ QueueUp env 4 (queueReply env i + 3)

instance (i : ℕ) : Decidable (QueuesUp env i) := inferInstanceAs (Decidable (_ ∧ _))

/-- The card's address after the call. -/
def macAfter (n : Net) : ℕ → UInt8 :=
  match n.queuesAt env with
  | none => n.macAddr
  | some i =>
    if offersMac env i then
      fun j => if j < 6 then UInt8.ofNat (env.reply (i + 6 + j) % 2 ^ 8) else n.macAddr j
    else n.macAddr

/-- `tx_q` is fully set up after the call: by the call, or by an earlier one where the call
does not get as far. -/
def ReadyAfter (n : Net) : Prop :=
  match n.queuesAt env with
  | none => n.TxReady
  | some i => QueuesUp env i

/-- The call reports failure before it looks at `tx_q`. -/
def Later.stops (mac : ℕ → UInt8) : Later → Prop
  | .nettest txBuffer => noMac mac ∨ txBuffer = 0
  | .send data txBuffer => (data.length = 0 ∨ 1514 < data.length) ∨ txBuffer = 0

/-- Every receive buffer the call asks for is there, and `tx_q` is fully set up or no later
call looks at it. -/
structure SafeWhen (calls : List Later) (n : Net) : Prop where
  buffers : ∀ i, n.queuesAt env = some i → QueuesUp env i →
    ∀ j < numDesc, env.alloc (8 + j) ≠ 0
  later : n.ReadyAfter env ∨ ∀ call ∈ calls, call.stops (n.macAfter env)

/-! ## The stages, reply by reply -/

/-- The reset succeeds exactly when one of the polls the timeout allows for reads zero. -/
theorem pollReset_spec (timeout : ℕ) (n : Net) :
    match (List.range' n.reads timeout).find? fun i => env.reply i % 2 ^ 8 = 0 with
    | some i => 0 < (pollReset env timeout n).1 ∧
        ∃ trace, (pollReset env timeout n).2 = { n with reads := i + 1, trace := trace }
    | none => (pollReset env timeout n).1 ≤ 0 ∧
        ∃ reads trace, (pollReset env timeout n).2 = { n with reads := reads, trace := trace } := by
  induction timeout generalizing n with
  | zero =>
    refine ⟨?_, _, _, rfl⟩
    change (if _ then (0 : ℤ) else -1) ≤ 0
    split <;> decide
  | succ timeout ih =>
    rw [List.range'_succ, pollReset]
    by_cases hzero : env.reply n.reads % 2 ^ 8 = 0
    · rw [List.find?_cons_of_pos (by simpa using hzero)]
      simp only [readCap, hzero, if_true]
      exact ⟨by omega, _, rfl⟩
    · rw [List.find?_cons_of_neg (by simpa using hzero)]
      simp only [readCap, hzero, if_false]
      exact ih { n.log (.read (n.commonCfgPtr + (0x14 : UInt32).toUInt64) 8) with
        reads := n.reads + 1 }

/-- The negotiation takes six replies. -/
theorem negotiateFeatures_eq (n : Net) : ∃ trace, n.negotiateFeatures env =
    (offered env n.reads, env.reply (n.reads + 5) % 2 ^ 8,
      { n with reads := n.reads + 6, trace := trace }) := by
  simp only [negotiateFeatures, readCap, writeCap, log, offered]
  exact ⟨_, rfl⟩

/-- Each byte of the address takes one reply. -/
theorem readMac_eq (count : ℕ) (n : Net) : ∃ trace, readMac env count n =
    { n with
      reads := n.reads + count
      macAddr := fun j => if j < count then UInt8.ofNat (env.reply (n.reads + j) % 2 ^ 8)
        else n.macAddr j
      trace := trace } := by
  induction count with
  | zero => exact ⟨n.trace, by simp [readMac]⟩
  | succ i ih =>
    obtain ⟨trace, hi⟩ := ih
    refine ⟨trace ++ [.read (n.deviceCfgPtr + (UInt32.ofNat i).toUInt64) 8], ?_⟩
    rw [readMac, hi]
    simp only [readCap, log, Nat.add_assoc]
    congr 1
    funext j
    by_cases hj : j = i
    · subst hj
      simp
    · have hlt : j < i + 1 ↔ j < i := by omega
      simp [hj, hlt]

/-- `virtq_alloc` leaves the address and the queue pointers alone. -/
theorem virtqAlloc_keeps (qIdx numDescs : ℕ) (n : Net) :
    (n.virtqAlloc env qIdx numDescs).2.macAddr = n.macAddr ∧
      (n.virtqAlloc env qIdx numDescs).2.rxQ = n.rxQ := by
  rw [Net.virtqAlloc]
  dsimp only [buddyAlloc, readCap, writeCap, log]
  split
  · exact ⟨rfl, rfl⟩
  split
  · exact ⟨rfl, rfl⟩
  split
  · exact ⟨rfl, rfl⟩
  split
  · exact ⟨rfl, rfl⟩
  split
  · exact ⟨rfl, rfl⟩
  · exact ⟨rfl, rfl⟩

/-- `virtq_alloc` returns a queue exactly when its four blocks are there and the queue is not
enabled yet, and then it has used up four blocks and three replies. -/
theorem virtqAlloc_spec (qIdx numDescs : ℕ) (n : Net) :
    if QueueUp env n.allocs n.reads then
      (∃ q, q.enabled = false ∧ (n.virtqAlloc env qIdx numDescs).1 = some q) ∧
        (n.virtqAlloc env qIdx numDescs).2.reads = n.reads + 3 ∧
        (n.virtqAlloc env qIdx numDescs).2.allocs = n.allocs + 4
    else (n.virtqAlloc env qIdx numDescs).1 = none := by
  have hblocks : QueueUp env n.allocs n.reads ↔ env.alloc n.allocs ≠ 0 ∧
      env.alloc (n.allocs + 1) ≠ 0 ∧ env.alloc (n.allocs + 2) ≠ 0 ∧
      env.alloc (n.allocs + 3) ≠ 0 ∧ env.reply n.reads % 2 ^ 16 = 0 := by
    constructor
    · rintro ⟨hblocks, hreply⟩
      exact ⟨hblocks 0 (by omega), hblocks 1 (by omega), hblocks 2 (by omega),
        hblocks 3 (by omega), hreply⟩
    · rintro ⟨h0, h1, h2, h3, hreply⟩
      refine ⟨fun j hj => ?_, hreply⟩
      obtain rfl | rfl | rfl | rfl : j = 0 ∨ j = 1 ∨ j = 2 ∨ j = 3 := by omega
      all_goals assumption
  rw [Net.virtqAlloc]
  dsimp only [buddyAlloc, readCap, writeCap, log]
  by_cases hq : env.alloc n.allocs = 0
  · rw [if_neg (by simp [hblocks, hq]), if_pos hq]
  by_cases hbuffers : env.alloc (n.allocs + 1) = 0
  · rw [if_neg (by simp [hblocks, hbuffers]), if_neg hq, if_pos hbuffers]
  by_cases hdesc : env.alloc (n.allocs + 2) = 0
  · rw [if_neg (by simp [hblocks, hdesc]), if_neg hq, if_neg hbuffers, if_pos hdesc]
  by_cases hring : env.alloc (n.allocs + 3) = 0
  · rw [if_neg (by simp [hblocks, hring]), if_neg hq, if_neg hbuffers, if_neg hdesc, if_pos hring]
  by_cases henabled : env.reply n.reads % 2 ^ 16 = 0
  · rw [if_pos (hblocks.2 ⟨hq, hbuffers, hdesc, hring, henabled⟩), if_neg hq, if_neg hbuffers,
      if_neg hdesc, if_neg hring, if_neg (not_not.2 henabled)]
    exact ⟨⟨_, rfl, rfl⟩, rfl, rfl⟩
  · rw [if_neg fun hup => henabled hup.2, if_neg hq, if_neg hbuffers, if_neg hdesc, if_neg hring,
      if_pos henabled]

/-- Both queues are there exactly when the replies and blocks say so, and neither is enabled
yet. -/
theorem allocQueues_spec (n : Net) (h : n.allocs = 0) :
    (n.allocQueues env).macAddr = n.macAddr ∧ ¬ (n.allocQueues env).TxReady ∧
      if QueueUp env 0 n.reads ∧ QueueUp env 4 (n.reads + 3) then
        (∃ rx tx, (n.allocQueues env).rxQ = some rx ∧ (n.allocQueues env).txQ = some tx) ∧
          (n.allocQueues env).allocs = 8
      else (n.allocQueues env).rxQ = none ∨ (n.allocQueues env).txQ = none := by
  have hrx := virtqAlloc_spec env 0 numDesc n
  have hrxKeeps := virtqAlloc_keeps env 0 numDesc n
  rw [allocQueues]
  generalize n.virtqAlloc env 0 numDesc = rx at *
  have htx := virtqAlloc_spec env 1 numDesc { rx.2 with rxQ := rx.1 }
  have htxKeeps := virtqAlloc_keeps env 1 numDesc { rx.2 with rxQ := rx.1 }
  dsimp only at *
  generalize Net.virtqAlloc env _ 1 numDesc = tx at *
  refine ⟨htxKeeps.1.trans hrxKeeps.1, ?_, ?_⟩
  · rintro ⟨q, hq, henabled⟩
    dsimp only at hq
    split at htx
    · obtain ⟨⟨q', hdisabled, hq'⟩, -⟩ := htx
      obtain rfl := Option.some.inj (hq.symm.trans hq')
      simp [hdisabled] at henabled
    · simp [htx] at hq
  · rw [htxKeeps.2]
    rw [h] at hrx
    by_cases hrxUp : QueueUp env 0 n.reads
    · rw [if_pos hrxUp, Nat.zero_add] at hrx
      obtain ⟨⟨rxq, -, hrxq⟩, hreads, hallocs⟩ := hrx
      rw [hreads, hallocs] at htx
      by_cases htxUp : QueueUp env 4 (n.reads + 3)
      · rw [if_pos htxUp] at htx
        obtain ⟨⟨txq, -, htxq⟩, -, hallocs'⟩ := htx
        rw [if_pos ⟨hrxUp, htxUp⟩]
        exact ⟨⟨rxq, txq, hrxq, htxq⟩, hallocs'⟩
      · rw [if_neg htxUp] at htx
        rw [if_neg fun hup => htxUp hup.2]
        exact .inr htx
    · rw [if_neg hrxUp] at hrx
      rw [if_neg fun hup => hrxUp hup.1]
      exact .inl hrx

@[simp] theorem fillRxQueue_macAddr (count : ℕ) (q : Virtq) (n : Net) :
    (fillRxQueue env count q n).2.macAddr = n.macAddr := by
  induction count with
  | zero => rfl
  | succ i ih => exact ih

/-- Every receive buffer is cleared. -/
theorem store_mem_fillRxQueue {count i : ℕ} (q : Virtq) (n : Net) (hi : i < count) :
    .store (env.alloc (n.allocs + i)) 10 ∈ (fillRxQueue env count q n).2.trace := by
  induction count with
  | zero => omega
  | succ j ih =>
    change _ ∈ ((fillRxQueue env j q n).2.trace ++ [.store _ 10]) ++ [_]
    rcases Nat.lt_succ_iff_lt_or_eq.1 hi with hlt | rfl
    · simp [ih hlt]
    · simp

/-- A device set going leaves `tx_q` fully set up. -/
theorem start_statics (n : Net) (rx tx : NetQueue) :
    (n.start env rx tx).macAddr = n.macAddr ∧ (n.start env rx tx).TxReady := by
  have hmac := fillRxQueue_macAddr env numDesc rx.queue n
  rw [start]
  generalize fillRxQueue env numDesc rx.queue n = filled at hmac
  dsimp only [enableQueues, virtqKick, readCap, writeCap, log]
  exact ⟨hmac, { tx with enabled := true }, rfl, rfl⟩

/-- What is left behind where the call gets as far as the queues. -/
theorem setUpQueues_spec (n : Net) (hallocs : n.allocs = 0)
    (htrace : ∀ e ∈ n.trace, Harmless e) :
    (n.setUpQueues env).2.macAddr = n.macAddr ∧
      ((n.setUpQueues env).2.TxReady ↔
        QueueUp env 0 n.reads ∧ QueueUp env 4 (n.reads + 3)) ∧
      ((∀ e ∈ (n.setUpQueues env).2.trace, Harmless e) ↔
        (QueueUp env 0 n.reads ∧ QueueUp env 4 (n.reads + 3) →
          ∀ j < numDesc, env.alloc (8 + j) ≠ 0)) := by
  obtain ⟨hmac, hready, hqueues⟩ := allocQueues_spec env n hallocs
  have hext := (Extends.refl n).allocQueues env
  rw [setUpQueues]
  generalize n.allocQueues env = m at *
  by_cases hup : QueueUp env 0 n.reads ∧ QueueUp env 4 (n.reads + 3)
  · rw [if_pos hup] at hqueues
    obtain ⟨⟨rx, tx, hrx, htx⟩, hallocs8⟩ := hqueues
    simp only [hrx, htx]
    obtain ⟨hstartMac, hstartReady⟩ := start_statics env m rx tx
    refine ⟨hstartMac.trans hmac, iff_of_true hstartReady hup, fun hnone _ j hj => ?_, fun hall => ?_⟩
    · have hstore := store_mem_fillRxQueue env rx.queue m hj
      rw [hallocs8] at hstore
      exact hnone _ ((extends_start_of_filled env rx tx).mem hstore)
    · have hfill := hall hup
      rw [← hallocs8] at hfill
      exact (hext.trans (extends_start env rx tx (fun _ he => he)
        fun j hj => ⟨hfill j hj, hfill j hj⟩)).harmless htrace
  · rw [if_neg hup] at hqueues
    split
    · next rx tx hrx htx => simp [hrx, htx] at hqueues
    · exact ⟨hmac, iff_of_false hready hup,
        iff_of_true (hext.writeCap.harmless htrace) fun hup' => absurd hup' hup⟩

/-! ## The whole call -/

variable {env}

/-- What the replies and blocks say about the statics a call leaves. -/
structure Leaves (env : Env) (n n' : Net) : Prop where
  mac : n'.macAddr = n.macAfter env
  ready : n'.TxReady ↔ n.ReadyAfter env
  buffers : (∀ e ∈ n'.trace, Harmless e) ↔ ∀ i, n.queuesAt env = some i → QueuesUp env i →
    ∀ j < numDesc, env.alloc (8 + j) ≠ 0

/-- A call that does not get as far as the queues leaves the statics behind as they were. -/
theorem Leaves.of_queuesAt_eq_none {n n' : Net} (hqueues : n.queuesAt env = none)
    (hmac : n'.macAddr = n.macAddr) (htx : n'.txQ = n.txQ) (htrace : ∀ e ∈ n'.trace, Harmless e) :
    Leaves env n n' where
  mac := by rw [hmac, macAfter, hqueues]
  ready := by rw [ReadyAfter, hqueues, TxReady, TxReady, htx]
  buffers := iff_of_true htrace fun i hi => by simp [hqueues] at hi

/-- So far the call has left the statics behind as they were, has touched no null block and
has asked for no block that it keeps. -/
structure Begun (n m : Net) (reads : ℕ) : Prop where
  mac : m.macAddr = n.macAddr
  txQ : m.txQ = n.txQ
  allocs : m.allocs = 0
  reads : m.reads = reads
  trace : ∀ e ∈ m.trace, Harmless e

/-- The address is read where the device offers it. -/
theorem readMac_spec {n m : Net} {i : ℕ} (h : Begun n m (i + 6)) (hqueues : n.queuesAt env = some i) :
    let m' := if offersMac env i then readMac env 6 m else m
    m'.macAddr = n.macAfter env ∧ m'.allocs = 0 ∧ m'.reads = queueReply env i ∧
      ∀ e ∈ m'.trace, Harmless e := by
  have hext : Extends Harmless m (readMac env 6 m) := (Extends.refl m).readMac env 6
  obtain ⟨trace, hread⟩ := readMac_eq env 6 m
  rw [macAfter, hqueues, queueReply]
  dsimp only
  split
  · refine ⟨?_, ?_, ?_, hext.harmless h.trace⟩
    · rw [hread, ← h.mac, ← h.reads]
    · rw [hread]
      exact h.allocs
    · rw [hread, h.reads]
  · exact ⟨h.mac, h.allocs, h.reads, h.trace⟩

/-- What a call that has begun leaves, by how far it comes. -/
theorem afterReset_leaves {n m : Net} {i : ℕ} (h : Begun n m i)
    (hqueues : n.queuesAt env =
      (some i).filter fun i => env.reply (i + 5) % 2 ^ 8 &&& 0x08 ≠ 0) :
    Leaves env n (m.afterReset env).2 := by
  have hext := extends_negotiateFeatures env (n := m)
  obtain ⟨trace, hnegotiate⟩ := negotiateFeatures_eq env m
  rw [h.reads] at hnegotiate
  rw [hnegotiate] at hext
  have hbegun : Begun n { m with reads := i + 6, trace := trace } (i + 6) :=
    ⟨h.mac, h.txQ, h.allocs, rfl, hext.harmless h.trace⟩
  rw [afterReset, hnegotiate]
  dsimp only
  by_cases hstatus : env.reply (i + 5) % 2 ^ 8 &&& 0x08 = 0
  · rw [if_pos hstatus]
    have hnone : n.queuesAt env = none := by
      rw [hqueues, Option.filter_some, if_neg (by simpa using hstatus)]
    exact .of_queuesAt_eq_none hnone h.mac h.txQ hbegun.trace
  · have hsome : n.queuesAt env = some i := by
      rw [hqueues, Option.filter_some, if_pos (by simpa using hstatus)]
    rw [if_neg hstatus]
    change Leaves env n (setUpQueues env (if offersMac env i then _ else _)).2
    obtain ⟨hmac, hallocs, hreads, hharmless⟩ := readMac_spec hbegun hsome
    generalize (if offersMac env i then _ else _ : Net) = m' at *
    obtain ⟨hmac', hready, hbuffers⟩ := setUpQueues_spec env m' hallocs hharmless
    rw [hreads] at hready hbuffers
    refine ⟨hmac'.trans hmac, by rw [hready, ReadyAfter, hsome]; rfl, hbuffers.trans ?_⟩
    simp [hsome, QueuesUp]

/-- What any call leaves. -/
theorem afterScan_leaves {n m : Net} (h : n.enter.scan env = some m) :
    Leaves env n (m.afterScan env).2 := by
  obtain ⟨⟨cfg, multiplier, hm⟩, -⟩ := scan_spec h
  have hlacks := scan_lacksCap_iff h
  have htrace : ∀ e ∈ m.trace, Harmless e := by rw [hm]; simp [enter]
  have hreset := pollReset_spec env 1000 (m.writeCap 8 m.commonCfgPtr 0x14 0)
  have hext : Extends Harmless m (m.resetDevice env).2 := extends_resetDevice env
  have hreads : (m.writeCap 8 m.commonCfgPtr 0x14 0).reads = 0 := by rw [hm]; rfl
  have hqueues : (¬ ∃ cfgType ∈ crucial, n.Misses env cfgType) → n.queuesAt env =
      ((resetAt env).map (· + 1)).filter fun i => env.reply (i + 5) % 2 ^ 8 &&& 0x08 ≠ 0 :=
    fun hall => by rw [queuesAt, if_neg hall]
  rw [hreads] at hreset
  rw [afterScan]
  by_cases hmiss : ∃ cfgType ∈ crucial, n.Misses env cfgType
  · rw [if_pos (hlacks.2 hmiss)]
    exact .of_queuesAt_eq_none (by rw [queuesAt, if_pos hmiss]) (by rw [hm]; rfl) (by rw [hm]; rfl)
      htrace
  rw [if_neg fun hl => hmiss (hlacks.1 hl)]
  replace hqueues := hqueues hmiss
  rw [resetDevice] at hext ⊢
  generalize pollReset env 1000 _ = polled at *
  cases hpoll : resetAt env with
  | none =>
    rw [hpoll] at hqueues
    rw [resetAt] at hpoll
    rw [hpoll] at hreset
    obtain ⟨htimeout, reads, trace, hstate⟩ := hreset
    dsimp only
    rw [if_pos htimeout]
    exact .of_queuesAt_eq_none hqueues (by rw [hstate, hm]; rfl) (by rw [hstate, hm]; rfl)
      (hext.harmless htrace)
  | some i =>
    rw [hpoll] at hqueues
    rw [resetAt] at hpoll
    rw [hpoll] at hreset
    obtain ⟨htimeout, trace, hstate⟩ := hreset
    dsimp only
    rw [if_neg (not_le.2 htimeout)]
    exact afterReset_leaves ⟨by rw [hstate, hm]; rfl, by rw [hstate, hm]; rfl,
      by rw [hstate, hm]; rfl, by rw [hstate], hext.harmless htrace⟩ hqueues

/-! ## The calls that send afterwards -/

variable {n : Net} {mem : Memory} {call : Later}

/-- A packet is refused for its length or for want of a buffer, and before `tx_q` is looked
at. -/
theorem sendPacket_failed_iff (txBuffer : UInt64) (data : List UInt8) :
    (n.sendPacket mem txBuffer data).1 = .failed ↔
      (data.length = 0 ∨ 1514 < data.length) ∨ txBuffer = 0 := by
  rw [sendPacket]
  by_cases hlength : data.length = 0 ∨ 1514 < data.length
  · rw [if_pos hlength]
    exact iff_of_true rfl (.inl hlength)
  by_cases hbuffer : txBuffer = 0
  · rw [if_neg hlength, if_pos hbuffer]
    exact iff_of_true rfl (.inr hbuffer)
  have hbuffer' : txBuffer.toNat ≠ 0 := fun h0 => hbuffer (UInt64.toNat_inj.1 h0)
  rw [if_neg hlength, if_neg hbuffer]
  refine iff_of_false ?_ (not_or.2 ⟨hlength, hbuffer⟩)
  cases n.txQ with
  | none => exact SendResult.noConfusion
  | some tx =>
    have haccepted : (virtioNetSendPacket mem tx.queue txBuffer.toNat data).1 = true := by
      rw [virtioNetSendPacket, if_neg hlength, if_neg hbuffer']
      rfl
    dsimp only
    rw [if_pos haccepted]
    exact SendResult.noConfusion

/-- A call that stops does nothing, and a call that does not stop does not report failure. -/
theorem later_failed_iff : (n.later mem call).1 = .failed ↔ call.stops n.macAddr := by
  cases call with
  | nettest txBuffer =>
    have hlength : (arpPacket n.macAddr).length = 60 := by simp [arpPacket]
    rw [later, Later.stops]
    by_cases hmac : noMac n.macAddr
    · simp [hmac]
    · simp [hmac, sendPacket_failed_iff, hlength]
  | send data txBuffer => exact sendPacket_failed_iff txBuffer data

/-- A later call that stops changes nothing. -/
theorem later_of_stops (h : call.stops n.macAddr) : n.later mem call = (.failed, mem, n) := by
  have hsend : ∀ (txBuffer : UInt64) (data : List UInt8),
      (data.length = 0 ∨ 1514 < data.length) ∨ txBuffer = 0 →
        n.sendPacket mem txBuffer data = (.failed, mem, n) := by
    intro txBuffer data hstop
    rw [sendPacket]
    split
    · rfl
    · next hlength => rw [if_pos (hstop.resolve_left hlength)]
  cases call with
  | nettest txBuffer =>
    rw [later]
    split
    · rfl
    · next hmac => exact hsend _ _ (.inr (h.resolve_left hmac))
  | send data txBuffer => exact hsend _ _ h

/-- Sending leaves a queue that is set up as it is set up. -/
theorem TxReady.later (h : n.TxReady) : (n.later mem call).2.2.TxReady := by
  obtain ⟨tx, htx, henabled⟩ := h
  have hsend : ∀ (txBuffer : UInt64) (data : List UInt8),
      (n.sendPacket mem txBuffer data).2.2.TxReady := by
    intro txBuffer data
    rw [sendPacket, htx]
    split
    · exact ⟨tx, htx, henabled⟩
    split
    · exact ⟨tx, htx, henabled⟩
    dsimp only
    split
    · exact ⟨_, rfl, henabled⟩
    · exact ⟨_, rfl, henabled⟩
  cases call with
  | nettest txBuffer =>
    rw [Net.later]
    split
    · exact ⟨tx, htx, henabled⟩
    · exact hsend _ _
  | send data txBuffer => exact hsend _ _

/-- Later calls are safe exactly when `tx_q` is set up or they all stop before it. -/
theorem laterSafe_iff (mem : Memory) (n : Net) (calls : List Later) :
    LaterSafe mem n calls ↔ n.TxReady ∨ ∀ call ∈ calls, call.stops n.macAddr := by
  induction calls generalizing mem n with
  | nil => simp [LaterSafe]
  | cons call calls ih =>
    rw [LaterSafe, ih, later_failed_iff]
    by_cases hready : n.TxReady
    · exact iff_of_true ⟨.inl hready, .inl hready.later⟩ (.inl hready)
    by_cases hstop : call.stops n.macAddr
    · simp [later_of_stops hstop, hready, hstop]
    · simp [hready, hstop]

/-! ## Every call -/

/-- Wherever `virtio_net_init` returns, it has touched no null buffer and left the later
calls safe exactly when every buffer it asked for was there, and `tx_q` is fully set up or no
later call gets to it. -/
theorem failSafe_iff {outcome : Outcome} {n' : Net} (mem : Memory) (calls : List Later)
    (h : n.virtioNetInit env = some (outcome, n')) :
    FailSafe mem calls n' ↔ SafeWhen env calls n := by
  obtain ⟨m, hscan, hm⟩ := Option.map_eq_some_iff.1 h
  obtain ⟨hmac, hready, hbuffers⟩ := afterScan_leaves hscan
  have hn' : n' = (m.afterScan env).2 := (congrArg Prod.snd hm).symm
  subst hn'
  have hlater : LaterSafe mem (m.afterScan env).2 calls ↔
      n.ReadyAfter env ∨ ∀ call ∈ calls, call.stops (n.macAfter env) := by
    rw [laterSafe_iff, hready, hmac]
  exact ⟨fun hsafe => ⟨hbuffers.1 hsafe.buffers, hlater.1 hsafe.later⟩,
    fun hwhen => ⟨hbuffers.2 hwhen.buffers, hlater.2 hwhen.later⟩⟩

end Net

/-- A card that resets at once, offers its address and accepts the features. -/
def netEnv (alloc : ℕ → UInt64) : Env where
  config := cardEnv.config
  reply := fun i => if i = 3 then 0x20 else if i = 6 then 0x08 else if 7 ≤ i ∧ i < 13 then 0x52 else 0
  alloc := alloc

/-- Memory for all blocks, and for those of the receive queue only. -/
def manyBlocks (i : ℕ) : UInt64 := 0x100000 + 0x1000 * UInt64.ofNat i

def fewBlocks (i : ℕ) : UInt64 := if i < 4 then manyBlocks i else 0

namespace Net

/-- With memory for everything the call gets to its end. -/
theorem failSafe_iff_initialized : ∃ n' : Net,
    boot.virtioNetInit (netEnv manyBlocks) = some (.initialized, n') ∧
      (FailSafe (fun _ => 0) [.nettest 0x200000] n' ↔
        SafeWhen (netEnv manyBlocks) [.nettest 0x200000] boot) := by
  have houtcome : (boot.virtioNetInit (netEnv manyBlocks)).map Prod.fst = some .initialized := by
    decide +kernel
  obtain ⟨⟨outcome, n'⟩, hcall, rfl⟩ := Option.map_eq_some_iff.1 houtcome
  exact ⟨n', hcall, failSafe_iff _ _ hcall⟩

/-- With memory for the receive queue only, `cmd_nettest_virtio` finds the card's address and
goes through a null `tx_q`. -/
theorem not_failSafe_fewBlocks :
    ¬ ∀ (env : Env) (outcome : Outcome) (n' : Net) (mem : Memory) (calls : List Later),
      boot.virtioNetInit env = some (outcome, n') → FailSafe mem calls n' := by
  intro h
  have hlater : (boot.virtioNetInit (netEnv fewBlocks)).map (fun result =>
      ((result.2.later (fun _ => 0) (.nettest 0x200000)).1, result.2.txQ.isNone)) =
        some (.nullQueue, true) := by decide +kernel
  obtain ⟨⟨outcome, n'⟩, hcall, hresult⟩ := Option.map_eq_some_iff.1 hlater
  obtain ⟨hnull, hnone⟩ := Prod.mk.inj hresult
  rcases (h _ outcome n' (fun _ => 0) [.nettest 0x200000] hcall).later.1 with hready | hfailed
  · obtain ⟨tx, htx, -⟩ := hready
    simp [htx] at hnone
  · simp [hfailed] at hnull

end Net

end Orionis.Virtio
