import Mathlib.Logic.Function.Iterate
import Orionis.Virtio.Failure
import Orionis.Virtio.Receive

/-!
# The negotiated queue sizes

`virtq_alloc` chains the descriptors for the size it was asked for, and writes the smaller one of
a device back to it afterwards. The loop that fills the receive queue runs to the size that was
asked for too. All three agree just where the device offers at least that many descriptors, or
names no size at all.
-/

namespace Orionis.Virtio

open Orionis.Foundations

namespace Net

variable (env : Env)

/-! ## What a call posts -/

/-- The state in which a call comes to set up its queues. -/
def atQueues (n : Net) : Option Net :=
  (n.enter.scan env).map fun n =>
    let (driverFeatures, _, n) := (n.resetDevice env).2.negotiateFeatures env
    if driverFeatures &&& (1 : UInt64) <<< 5 ≠ 0 then readMac env 6 n else n

/-- The slots of the available ring that the first `count` rounds of the filling loop write, each
with the descriptor it is given. -/
def fillWrites (count : ℕ) (q : Virtq) (n : Net) : List (ℕ × ℕ) :=
  (List.range count).map fun i =>
    let q := (fillRxQueue env i q n).1
    (q.availIdx % q.num, q.freeHead)

/-- What a call writes to the available ring of the receive queue before it notifies the device. -/
def rxWrites (n : Net) : List (ℕ × ℕ) :=
  match n.atQueues env with
  | none => []
  | some n =>
    match (n.allocQueues env).rxQ with
    | none => []
    | some rx => fillWrites env numDesc rx.queue (n.allocQueues env)

/-- A descriptor that the free chain of a queue leads to. -/
def Reachable (q : Virtq) (i : ℕ) : Prop :=
  ∃ k, (fun i => (q.desc i).next)^[k] q.freeHead = i

/-- Both queues keep to the size that was written back to the device. -/
structure RespectsSizes (n n' : Net) : Prop where
  posted : ∀ rx, n'.rxQ = some rx → ∀ w ∈ n.rxWrites env, w.2 < rx.queue.num
  rxFree : ∀ rx, n'.rxQ = some rx → ∀ i, Reachable rx.queue i → i < rx.queue.num
  txFree : ∀ tx, n'.txQ = some tx → ∀ i, Reachable tx.queue i → i < tx.queue.num
  outstanding : ∀ rx, n'.rxQ = some rx → (n.rxWrites env).length ≤ rx.queue.num
  slots : ((n.rxWrites env).map Prod.fst).Nodup

/-! ## The condition -/

/-- The size of the device leaves room for all descriptors. -/
def SizeFits (maxSize : ℕ) : Prop := maxSize = 0 ∨ numDesc ≤ maxSize

/-- The size the device offers for the receive queue, where the call gets to the queues behind
reply `i`. -/
def rxOffered (i : ℕ) : ℕ := env.reply (queueReply env i + 1) % 2 ^ 16

/-- The size it offers for the transmit queue. -/
def txOffered (i : ℕ) : ℕ := env.reply (queueReply env i + 4) % 2 ^ 16

/-- The size is kept when the device allows it. -/
theorem negotiate_eq_iff (maxSize : ℕ) : negotiate numDesc maxSize = numDesc ↔ SizeFits maxSize := by
  rw [negotiate, SizeFits]
  split <;> omega

/-! ## The free chain -/

/-- The chain of a fresh table runs through all descriptors, over and over. -/
theorem iterate_chainDescs (k : ℕ) : (fun i => (chainDescs numDesc i).next)^[k] 0 = k % numDesc := by
  induction k with
  | zero => rfl
  | succ k ih =>
    rw [Function.iterate_succ_apply', ih, chainDescs_eq]
    change (if k % 32 < 32 - 1 then k % 32 + 1 else 0) = (k + 1) % 32
    split <;> omega

/-- The chain of free descriptors is that of the size it was built for. -/
theorem reachable_iff {q : Virtq} (hhead : q.freeHead = 0)
    (hnext : ∀ i, (q.desc i).next = (chainDescs numDesc i).next) (i : ℕ) :
    Reachable q i ↔ i < numDesc := by
  have hchain : (fun i => (q.desc i).next) = fun i => (chainDescs numDesc i).next := funext hnext
  rw [Reachable, hhead, hchain]
  simp only [iterate_chainDescs]
  constructor
  · rintro ⟨k, rfl⟩
    exact Nat.mod_lt k (by decide)
  · intro hi
    exact ⟨i, Nat.mod_eq_of_lt hi⟩

/-- The chain stays below a size only where the size is that of the whole table. -/
theorem forall_reachable_lt_iff {q : Virtq} {maxSize : ℕ} (hhead : q.freeHead = 0)
    (hnext : ∀ i, (q.desc i).next = (chainDescs numDesc i).next)
    (hnum : q.num = negotiate numDesc maxSize) :
    (∀ i, Reachable q i → i < q.num) ↔ SizeFits maxSize := by
  have hle := negotiate_le maxSize
  rw [← negotiate_eq_iff, hnum]
  simp only [reachable_iff hhead hnext]
  constructor
  · intro h
    have hlast := h (numDesc - 1) (by decide)
    have hpos : 0 < numDesc := by decide
    omega
  · intro heq i hi
    rwa [heq]

/-! ## The filling loop -/

/-- The queue is filled with the buffers the allocator gives. -/
theorem fillRxQueue_fst (count : ℕ) (q : Virtq) (n : Net) : (fillRxQueue env count q n).1 =
    fillRx (fun i => (env.alloc (n.allocs + i)).toNat) q count := by
  induction count with
  | zero => rfl
  | succ count ih =>
    have hallocs := fillRxQueue_allocs env count q n
    rw [fillRx, ← ih, ← hallocs]
    rfl

/-- Each round takes the next slot. -/
theorem fillRx_index (bufs : ℕ → ℕ) (maxSize count : ℕ) (hcount : count ≤ numDesc) :
    (fillRx bufs (Virtio.virtqAlloc 0 numDesc maxSize) count).availIdx = count ∧
      (fillRx bufs (Virtio.virtqAlloc 0 numDesc maxSize) count).num = negotiate numDesc maxSize := by
  induction count with
  | zero => exact ⟨rfl, rfl⟩
  | succ count ih =>
    obtain ⟨hidx, hnum⟩ := ih (by omega)
    refine ⟨?_, hnum⟩
    change (_ + 1) % 2 ^ 16 = count + 1
    rw [hidx]
    have hsize : numDesc = 32 := rfl
    omega

/-- The loop puts descriptor `i` into the slot of round `i`. -/
theorem fillWrites_eq (maxSize : ℕ) (n : Net) :
    fillWrites env numDesc (Virtio.virtqAlloc 0 numDesc maxSize) n =
      (List.range numDesc).map fun i => (i % negotiate numDesc maxSize, i) := by
  rw [fillWrites]
  refine List.map_congr_left fun i hi => ?_
  have hlt : i < numDesc := List.mem_range.1 hi
  dsimp only
  rw [fillRxQueue_fst]
  obtain ⟨hidx, hnum⟩ := fillRx_index (fun i => (env.alloc (n.allocs + i)).toNat) maxSize i hlt.le
  obtain ⟨hhead, -⟩ := fillRx_spec (fun i => (env.alloc (n.allocs + i)).toNat) maxSize i hlt.le
  rw [hidx, hnum, hhead, Nat.mod_eq_of_lt hlt]

/-! ## The queues of a call -/

/-- The queue is the one for the size the device offers. -/
theorem virtqAlloc_queue {qIdx numDescs : ℕ} {n : Net} {q : NetQueue}
    (h : (n.virtqAlloc env qIdx numDescs).1 = some q) :
    q.queue = Virtio.virtqAlloc qIdx numDescs (env.reply (n.reads + 1) % 2 ^ 16) := by
  rw [Net.virtqAlloc] at h
  dsimp only [buddyAlloc, readCap, writeCap, log] at h
  split at h
  · cases h
  split at h
  · cases h
  split at h
  · cases h
  split at h
  · cases h
  split at h
  · cases h
  · rw [← Option.some.inj h]

/-- Both queues are negotiated with what the device replies. -/
theorem allocQueues_queues {n : Net} {rx tx : NetQueue} (hrx : (n.allocQueues env).rxQ = some rx)
    (htx : (n.allocQueues env).txQ = some tx) :
    rx.queue = Virtio.virtqAlloc 0 numDesc (env.reply (n.reads + 1) % 2 ^ 16) ∧
      tx.queue = Virtio.virtqAlloc 1 numDesc (env.reply (n.reads + 4) % 2 ^ 16) := by
  rw [allocQueues] at hrx htx
  dsimp only at hrx htx
  have hspec := virtqAlloc_spec env 0 numDesc n
  have hqueue := @virtqAlloc_queue env 0 numDesc n rx
  generalize n.virtqAlloc env 0 numDesc = first at *
  have hkeeps := (virtqAlloc_keeps env 1 numDesc { first.2 with rxQ := first.1 }).2
  have hfirst : first.1 = some rx := hkeeps.symm.trans hrx
  refine ⟨hqueue hfirst, ?_⟩
  by_cases hup : QueueUp env n.allocs n.reads
  · rw [if_pos hup] at hspec
    have hreads : first.2.reads + 1 = n.reads + 4 := by rw [hspec.2.1]
    have hsecond := virtqAlloc_queue env htx
    rw [← hreads]
    exact hsecond
  · rw [if_neg hup] at hspec
    cases hspec.symm.trans hfirst

/-- Behind the negotiation, a call that gets to its end reads the address of the card where the
device offers it, and sets up its queues. -/
theorem afterReset_of_initialized {m n' : Net} (h : m.afterReset env = (.initialized, n')) :
    env.reply (m.reads + 5) % 2 ^ 8 &&& 0x08 ≠ 0 ∧ ∃ m' : Net,
      (let (driverFeatures, _, m) := m.negotiateFeatures env
        if driverFeatures &&& (1 : UInt64) <<< 5 ≠ 0 then readMac env 6 m else m) = m' ∧
      m'.reads = queueReply env m.reads ∧ m'.setUpQueues env = (.initialized, n') := by
  obtain ⟨trace, hnegotiate⟩ := negotiateFeatures_eq env m
  rw [afterReset, hnegotiate] at h
  rw [hnegotiate]
  dsimp only at h ⊢
  split at h
  · exact absurd (congrArg Prod.fst h) Outcome.noConfusion
  next hstatus =>
  refine ⟨hstatus, _, rfl, ?_, h⟩
  change (if offersMac env m.reads then _ else _ : Net).reads = _
  rw [queueReply]
  split
  · obtain ⟨_, hread⟩ := readMac_eq env 6 { m with reads := m.reads + 6, trace := trace }
    rw [hread]
  · rfl

/-- A call that gets to its end has come to its queues with the replies it has read by then. -/
theorem atQueues_of_initialized {n n' : Net}
    (h : n.virtioNetInit env = some (.initialized, n')) :
    ∃ i m, n.queuesAt env = some i ∧ n.atQueues env = some m ∧ m.reads = queueReply env i ∧
      m.setUpQueues env = (.initialized, n') := by
  obtain ⟨m, hscan, hm⟩ := Option.map_eq_some_iff.1 h
  obtain ⟨⟨cfg, multiplier, heq⟩, -⟩ := scan_spec hscan
  have hreads : (m.writeCap 8 m.commonCfgPtr 0x14 0).reads = 0 := by rw [heq]; rfl
  have hreset := pollReset_spec env 1000 (m.writeCap 8 m.commonCfgPtr 0x14 0)
  rw [hreads] at hreset
  rw [afterScan] at hm
  split at hm
  · exact absurd (congrArg Prod.fst hm) Outcome.noConfusion
  next hlacks =>
  dsimp only at hm
  split at hm
  · exact absurd (congrArg Prod.fst hm) Outcome.noConfusion
  next htimeout =>
  have hmiss : ¬ ∃ cfgType ∈ crucial, n.Misses env cfgType := mt (scan_lacksCap_iff hscan).2 hlacks
  cases hpoll : resetAt env with
  | none =>
    rw [resetAt] at hpoll
    rw [hpoll] at hreset
    exact absurd hreset.1 htimeout
  | some j =>
    have hfind := hpoll
    rw [resetAt] at hfind
    rw [hfind] at hreset
    obtain ⟨-, trace, hstate⟩ := hreset
    have hat : (m.resetDevice env).2.reads = j + 1 := by rw [resetDevice, hstate]
    obtain ⟨hstatus, m', hm', hreads', hset⟩ := afterReset_of_initialized env hm
    rw [hat] at hstatus hreads'
    refine ⟨j + 1, m', ?_, ?_, hreads', hset⟩
    · rw [queuesAt, if_neg hmiss, hpoll, Option.map_some, Option.filter_some,
        if_pos (by simpa using hstatus)]
    · rw [atQueues, hscan, Option.map_some]
      exact congrArg some hm'

/-! ## Main result -/

/-- The queues a call leaves, and what it has written to the available ring. -/
structure Filled (env : Env) (n n' : Net) (i : ℕ) : Prop where
  rx : ∃ rx, n'.rxQ = some rx ∧ ∃ bufs,
    rx.queue = fillRx bufs (Virtio.virtqAlloc 0 numDesc (rxOffered env i)) numDesc
  tx : ∃ tx, n'.txQ = some tx ∧ tx.queue = Virtio.virtqAlloc 1 numDesc (txOffered env i)
  writes : n.rxWrites env =
    (List.range numDesc).map fun k => (k % negotiate numDesc (rxOffered env i), k)

/-- A call that succeeds has filled its queue. -/
theorem filled_of_initialized {n n' : Net} (h : n.virtioNetInit env = some (.initialized, n')) :
    ∃ i, n.queuesAt env = some i ∧ Filled env n n' i := by
  obtain ⟨i, m, hqueues, hat, hreads, hset⟩ := atQueues_of_initialized env h
  rw [setUpQueues] at hset
  split at hset
  swap
  · exact absurd (congrArg Prod.fst hset) Outcome.noConfusion
  next rx tx hrx htx =>
  obtain ⟨hrxQueue, htxQueue⟩ := allocQueues_queues env hrx htx
  rw [hreads] at hrxQueue htxQueue
  have hn' : n' = (m.allocQueues env).start env rx tx := (congrArg Prod.snd hset).symm
  refine ⟨i, hqueues, ?_, ?_, ?_⟩
  · let bufs := fun j => (env.alloc ((m.allocQueues env).allocs + j)).toNat
    have hfill : (fillRxQueue env numDesc rx.queue (m.allocQueues env)).1 =
        fillRx bufs (Virtio.virtqAlloc 0 numDesc (rxOffered env i)) numDesc := by
      rw [fillRxQueue_fst, hrxQueue]
      rfl
    exact ⟨_, congrArg Net.rxQ hn', bufs, hfill⟩
  · exact ⟨_, congrArg Net.txQ hn', htxQueue⟩
  · rw [rxWrites, hat]
    dsimp only
    rw [hrx]
    dsimp only
    rw [hrxQueue]
    exact fillWrites_eq env _ _

/-- A call that gets to its end keeps to the sizes it has written back exactly when the device
offers at least 32 descriptors for each queue, or no size. -/
theorem respectsSizes_iff {n n' : Net} (h : n.virtioNetInit env = some (.initialized, n')) :
    ∃ i, n.queuesAt env = some i ∧
      (RespectsSizes env n n' ↔ SizeFits (rxOffered env i) ∧ SizeFits (txOffered env i)) := by
  obtain ⟨i, hqueues, hfilled⟩ := filled_of_initialized env h
  obtain ⟨rx, hrx, bufs, hrxQueue⟩ := hfilled.rx
  obtain ⟨tx, htx, htxQueue⟩ := hfilled.tx
  obtain ⟨hhead, -, hnext⟩ := fillRx_spec bufs (rxOffered env i) numDesc le_rfl
  have hrxNum : rx.queue.num = negotiate numDesc (rxOffered env i) := by
    rw [hrxQueue]
    exact (fillRx_index bufs _ numDesc le_rfl).2
  have hrxFree := forall_reachable_lt_iff (q := rx.queue) (by rw [hrxQueue]; exact hhead)
    (by rw [hrxQueue]; exact hnext) hrxNum
  have htxFree := forall_reachable_lt_iff (q := tx.queue) (by rw [htxQueue]; rfl)
    (by rw [htxQueue]; exact fun _ => rfl) (by rw [htxQueue]; rfl)
  refine ⟨i, hqueues, fun hrespects => ?_, fun hfits => ?_⟩
  · exact ⟨hrxFree.1 (hrespects.rxFree rx hrx), htxFree.1 (hrespects.txFree tx htx)⟩
  · have hsize : rx.queue.num = numDesc := by rw [hrxNum, (negotiate_eq_iff _).2 hfits.1]
    have hsame : ∀ rx', n'.rxQ = some rx' → rx' = rx := fun rx' hrx' =>
      Option.some.inj (hrx'.symm.trans hrx)
    constructor
    · rintro rx' hrx' w hw
      rw [hsame rx' hrx', hsize]
      rw [hfilled.writes] at hw
      obtain ⟨k, hk, rfl⟩ := List.mem_map.1 hw
      exact List.mem_range.1 hk
    · rintro rx' hrx'
      rw [hsame rx' hrx']
      exact hrxFree.2 hfits.1
    · rintro tx' htx'
      obtain rfl := Option.some.inj (htx'.symm.trans htx)
      exact htxFree.2 hfits.2
    · rintro rx' hrx'
      rw [hsame rx' hrx', hsize, hfilled.writes, List.length_map, List.length_range]
    · rw [hfilled.writes, (negotiate_eq_iff _).2 hfits.1, List.map_map]
      refine List.Nodup.map_on (fun a ha b hb hab => ?_) List.nodup_range
      have halt := List.mem_range.1 ha
      have hblt := List.mem_range.1 hb
      change a % numDesc = b % numDesc at hab
      rwa [Nat.mod_eq_of_lt halt, Nat.mod_eq_of_lt hblt] at hab

/-- A card that names no size. -/
theorem respectsSizes_iff_initialized : ∃ n' : Net,
    boot.virtioNetInit (netEnv manyBlocks) = some (.initialized, n') ∧
      ∃ i, boot.queuesAt (netEnv manyBlocks) = some i ∧
        (RespectsSizes (netEnv manyBlocks) boot n' ↔
          SizeFits (rxOffered (netEnv manyBlocks) i) ∧
            SizeFits (txOffered (netEnv manyBlocks) i)) := by
  have houtcome : (boot.virtioNetInit (netEnv manyBlocks)).map Prod.fst = some .initialized := by
    decide +kernel
  obtain ⟨⟨outcome, n'⟩, hcall, rfl⟩ := Option.map_eq_some_iff.1 houtcome
  exact ⟨n', hcall, respectsSizes_iff _ hcall⟩

end Net

/-- The same card with 16 descriptors for the receive queue. -/
def smallQueue : Env where
  config := cardEnv.config
  reply := fun i => if i = 14 then 16 else (netEnv manyBlocks).reply i
  alloc := manyBlocks

namespace Net

/-- Its available ring is given descriptors that the queue does not have. -/
theorem not_respectsSizes_smallQueue : ¬ ∀ (env : Env) (n' : Net),
    boot.virtioNetInit env = some (.initialized, n') → RespectsSizes env boot n' := by
  intro hall
  have houtcome : (boot.virtioNetInit smallQueue).map Prod.fst = some .initialized := by
    decide +kernel
  obtain ⟨⟨outcome, n'⟩, hcall, rfl⟩ := Option.map_eq_some_iff.1 houtcome
  have hrespects := hall smallQueue n' hcall
  obtain ⟨i, hi, hfilled⟩ := filled_of_initialized smallQueue hcall
  have hat : boot.queuesAt smallQueue = some 1 := by decide +kernel
  obtain rfl : 1 = i := Option.some.inj (hat.symm.trans hi)
  obtain ⟨rx, hrx, bufs, hqueue⟩ := hfilled.rx
  have hnum : rx.queue.num = 16 := by
    rw [hqueue, (fillRx_index bufs _ numDesc le_rfl).2]
    decide
  have hle := hrespects.outstanding rx hrx
  rw [hfilled.writes, List.length_map, List.length_range, hnum] at hle
  exact absurd hle (by decide)

end Net

end Orionis.Virtio
