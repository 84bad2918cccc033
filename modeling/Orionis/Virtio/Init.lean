import Orionis.Virtio.Pci

/-!
# `virtio_net_init`

The whole initialisation, one definition for each of its stages, with every place it can
return at. Output to the console, the delay between two polls and the unmasking of the
interrupt line are left out. The stores `virtq_alloc` makes in the tables of a new queue are
the value of the queue; the blocks it clears and the buffers it posts are in the trace.
-/

namespace Orionis.Virtio

namespace Net

variable (env : Env)

/-! ## Registers and blocks -/

/-- Record an effect. -/
def log (n : Net) (e : Effect) : Net := { n with trace := n.trace ++ [e] }

/-- `virtio_write_cap_8` and its siblings of 16, 32 and 64 bits. -/
def writeCap (n : Net) (width : ℕ) (capBasePtr : UInt64) (offsetInCap : UInt32) (val : ℕ) : Net :=
  n.log (.write (capBasePtr + offsetInCap.toUInt64) width (val % 2 ^ width))

/-- `virtio_read_cap_8` and its siblings. -/
def readCap (n : Net) (width : ℕ) (capBasePtr : UInt64) (offsetInCap : UInt32) : ℕ × Net :=
  (env.reply n.reads % 2 ^ width,
    { n.log (.read (capBasePtr + offsetInCap.toUInt64) width) with reads := n.reads + 1 })

/-- `buddy_alloc`. -/
def buddyAlloc (n : Net) : UInt64 × Net := (env.alloc n.allocs, { n with allocs := n.allocs + 1 })

/-! ## Finding the device -/

/-- The start of a call. -/
def enter (n : Net) : Net := { n with calls := n.calls + 1, reads := 0, allocs := 0, trace := [] }

/-- The base address registers, then the capabilities. -/
def scan (n : Net) : Option Net :=
  let n := { n with pciBars := readBars env n.calls 6 0 n.pciBars }
  walkCaps env 256 (capPointer env) n

/-- One of the configuration pointers the rest needs is null. -/
def lacksCap (n : Net) : Prop :=
  n.commonCfgPtr = 0 ∨ n.notifyCfgPtr = 0 ∨ n.isrCfgPtr = 0 ∨ n.deviceCfgPtr = 0

instance (n : Net) : Decidable n.lacksCap := inferInstanceAs (Decidable (_ ∨ _))

/-! ## Negotiation -/

/-- The polls of the reset, with the value of `timeout` they end with. -/
def pollReset : (timeout : ℕ) → Net → ℤ × Net
  | 0, n =>
    let (status, n) := n.readCap env 8 n.commonCfgPtr 0x14
    (if status = 0 then 0 else -1, n)
  | timeout + 1, n =>
    let (status, n) := n.readCap env 8 n.commonCfgPtr 0x14
    if status = 0 then (timeout + 1, n) else pollReset timeout n

/-- The device is reset. -/
def resetDevice (n : Net) : ℤ × Net :=
  pollReset env 1000 (n.writeCap 8 n.commonCfgPtr 0x14 0)

/-- From `VIRTIO_STATUS_ACKNOWLEDGE` to `VIRTIO_STATUS_FEATURES_OK`: the features the driver
has taken over, and the status the device then shows. -/
def negotiateFeatures (n : Net) : UInt64 × ℕ × Net :=
  let common := n.commonCfgPtr
  let n := n.writeCap 8 common 0x14 0x01
  let (_, n) := n.readCap env 8 common 0x14
  let n := n.writeCap 8 common 0x14 0x03
  let (_, n) := n.readCap env 8 common 0x14
  let n := n.writeCap 32 common 0x00 0
  let (low, n) := n.readCap env 32 common 0x04
  let n := n.writeCap 32 common 0x00 1
  let (high, n) := n.readCap env 32 common 0x04
  let driverFeatures := UInt64.ofNat low ||| (UInt64.ofNat high <<< 32)
  let n := n.writeCap 32 common 0x08 0
  let n := n.writeCap 32 common 0x0C driverFeatures.toNat
  let n := n.writeCap 32 common 0x08 1
  let n := n.writeCap 32 common 0x0C (driverFeatures >>> 32).toNat
  let n := n.writeCap 8 common 0x14 0x0B
  let n := n.writeCap 8 common 0x14 0x0B
  let (_, n) := n.readCap env 8 common 0x14
  let (status, n) := n.readCap env 8 common 0x14
  (driverFeatures, status, n)

/-- The loop that reads the address of the card, its first `count` rounds. -/
def readMac : (count : ℕ) → Net → Net
  | 0, n => n
  | i + 1, n =>
    let n := readMac i n
    let (val, n) := n.readCap env 8 n.deviceCfgPtr (UInt32.ofNat i)
    { n with macAddr := Function.update n.macAddr i (UInt8.ofNat val) }

/-! ## Queues -/

/-- `virtq_alloc`. -/
def virtqAlloc (n : Net) (qIdx numDescs : ℕ) : Option NetQueue × Net :=
  let (q, n) := n.buddyAlloc env
  if q = 0 then (none, n)
  else
    let n := n.log (.store q 64)
    let (buffers, n) := n.buddyAlloc env
    if buffers = 0 then (none, n.log (.free q))
    else
      let n := n.log (.store buffers (numDescs * 8))
      let (desc, n) := n.buddyAlloc env
      if desc = 0 then (none, n)
      else
        let (ringPage, n) := n.buddyAlloc env
        if ringPage = 0 then (none, n)
        else
          let n := n.log (.store desc 4096)
          let n := n.log (.store ringPage 4096)
          let common := n.commonCfgPtr
          let n := n.writeCap 16 common 0x16 qIdx
          let (enabled, n) := n.readCap env 16 common 0x1C
          if enabled ≠ 0 then (none, n.log (.free q))
          else
            let (maxSize, n) := n.readCap env 16 common 0x18
            let queue := Virtio.virtqAlloc qIdx numDescs maxSize
            let n := n.writeCap 16 common 0x18 queue.num
            let n := n.writeCap 64 common 0x20 desc.toNat
            let n := n.writeCap 64 common 0x28 ringPage.toNat
            let n := n.writeCap 64 common 0x30 (ringPage + 1024).toNat
            let (notifyOff, n) := n.readCap env 16 common 0x1E
            (some ⟨queue, UInt32.ofNat notifyOff, n.notifyMultiplier, false⟩, n)

/-- `virtq_kick`. -/
def virtqKick (n : Net) (q : NetQueue) : Net :=
  let finalByteOffset := q.queueNotifyOff * q.notifyOffMultiplier
  n.writeCap 16 n.notifyCfgPtr finalByteOffset q.queue.queueIdx

/-- The loop that fills the receive queue, its first `count` rounds. -/
def fillRxQueue : (count : ℕ) → Virtq → Net → Virtq × Net
  | 0, q, n => (q, n)
  | i + 1, q, n =>
    let (q, n) := fillRxQueue i q n
    let (buf, n) := n.buddyAlloc env
    let q := { q with buffers := Function.update q.buffers i buf.toNat }
    let n := n.log (.store buf 10)
    let n := n.log (.post buf)
    ((virtqAddBuf q (q.buffers i) bufferSize descWrite).2, n)

/-- Where `virtio_net_init` returns. -/
inductive Outcome
  | missingCaps
  | resetTimedOut
  | featuresRejected
  | noQueues
  | initialized
  deriving DecidableEq, Repr

/-- The device is notified, both queues are enabled and the driver says it is ready. -/
def enableQueues (n : Net) (rx : NetQueue) : Net :=
  let common := n.commonCfgPtr
  let n := n.virtqKick rx
  let n := n.writeCap 16 common 0x16 0
  let n := n.writeCap 16 common 0x1C 1
  let n := n.writeCap 16 common 0x16 1
  let n := n.writeCap 16 common 0x1C 1
  let n := n.writeCap 8 common 0x14 0x0F
  (n.readCap env 8 common 0x14).2

/-- The receive queue is filled and the device is set going. -/
def start (n : Net) (rx tx : NetQueue) : Net :=
  let (queue, n) := fillRxQueue env numDesc rx.queue n
  let rx := { rx with queue := queue }
  let n := n.enableQueues env rx
  { n with
    rxQ := some { rx with enabled := true }
    txQ := some { tx with enabled := true }
    irq := (pciReadDword env 0x3C &&& 0xFF).toUInt8 }

/-- Both queues are allocated. -/
def allocQueues (n : Net) : Net :=
  let (rx, n) := n.virtqAlloc env 0 numDesc
  let n := { n with rxQ := rx }
  let (tx, n) := n.virtqAlloc env 1 numDesc
  { n with txQ := tx }

/-- What follows the reading of the card's address. -/
def setUpQueues (n : Net) : Outcome × Net :=
  let n := n.allocQueues env
  match n.rxQ, n.txQ with
  | some rx, some tx => (.initialized, n.start env rx tx)
  | _, _ => (.noQueues, n.writeCap 8 n.commonCfgPtr 0x14 0x80)

/-- What follows the reset. -/
def afterReset (n : Net) : Outcome × Net :=
  let (driverFeatures, status, n) := n.negotiateFeatures env
  if status &&& 0x08 = 0 then (.featuresRejected, n)
  else
    let n := if driverFeatures &&& (1 : UInt64) <<< 5 ≠ 0 then readMac env 6 n else n
    n.setUpQueues env

/-- What follows the capability walk. -/
def afterScan (n : Net) : Outcome × Net :=
  if n.lacksCap then (.missingCaps, n)
  else
    let (timeout, n) := n.resetDevice env
    if timeout ≤ 0 then (.resetTimedOut, n) else n.afterReset env

/-- `virtio_net_init`, and where it returns; none where the capability walk never ends. -/
def virtioNetInit (n : Net) : Option (Outcome × Net) :=
  (n.enter.scan env).map fun n => n.afterScan env

end Net

/-! ## What a stage leaves alone -/

/-- The effect is a zero fill or a post of a null block. -/
def Effect.onNull : Effect → Prop
  | .store addr _ => addr = 0
  | .post addr => addr = 0
  | _ => False

/-- The configuration pointers stay as they are, and the effects that are added are all of
one kind. -/
structure Net.Extends (kind : Effect → Prop) (n n' : Net) : Prop where
  calls : n'.calls = n.calls
  pciBars : n'.pciBars = n.pciBars
  cfg : n'.cfg = n.cfg
  trace : ∃ effects, n'.trace = n.trace ++ effects ∧ ∀ e ∈ effects, kind e

namespace Net

variable {kind : Effect → Prop} {env : Env} {n n' n'' : Net}

/-- Nothing has been done. -/
theorem Extends.refl (n : Net) : Extends kind n n where
  calls := rfl
  pciBars := rfl
  cfg := rfl
  trace := ⟨[], by simp⟩

/-- Parts of a call one after the other. -/
theorem Extends.trans (h : Extends kind n n') (h' : Extends kind n' n'') : Extends kind n n'' where
  calls := h'.calls.trans h.calls
  pciBars := h'.pciBars.trans h.pciBars
  cfg := h'.cfg.trans h.cfg
  trace := by
    obtain ⟨es, hes, hkind⟩ := h.trace
    obtain ⟨es', hes', hkind'⟩ := h'.trace
    refine ⟨es ++ es', by rw [hes', hes, List.append_assoc], fun e he => ?_⟩
    rcases List.mem_append.1 he with he | he
    · exact hkind e he
    · exact hkind' e he

/-- What was done before stays done. -/
theorem Extends.mem (h : Extends kind n n') {e : Effect} (he : e ∈ n.trace) : e ∈ n'.trace := by
  obtain ⟨es, hes, -⟩ := h.trace
  rw [hes]
  exact List.mem_append_left _ he

/-- Effects of one kind are effects of a larger one. -/
theorem Extends.mono {kind' : Effect → Prop} (h : Extends kind n n')
    (hkind : ∀ e, kind e → kind' e) : Extends kind' n n' where
  calls := h.calls
  pciBars := h.pciBars
  cfg := h.cfg
  trace := by
    obtain ⟨es, hes, hes'⟩ := h.trace
    exact ⟨es, hes, fun e he => hkind e (hes' e he)⟩

/-- One more effect. -/
theorem Extends.log {e : Effect} (h : Extends kind n n') (he : kind e) :
    Extends kind n (n'.log e) :=
  h.trans ⟨rfl, rfl, rfl, [e], rfl, by simpa using he⟩

/-- Setting the fields behind the configuration pointers changes nothing here. -/
theorem Extends.congr (h : Extends kind n n') (hcalls : n''.calls = n'.calls)
    (hbars : n''.pciBars = n'.pciBars) (hcfg : n''.cfg = n'.cfg) (htrace : n''.trace = n'.trace) :
    Extends kind n n'' :=
  h.trans ⟨hcalls, hbars, hcfg, [], by simp [htrace], by simp⟩

/-- The effects on registers, which touch no block. -/
abbrev Harmless (e : Effect) : Prop := ¬ e.onNull

/-- No effect on a null block is added. -/
theorem Extends.harmless (h : Extends Harmless n n') (hn : ∀ e ∈ n.trace, Harmless e) :
    ∀ e ∈ n'.trace, Harmless e := by
  obtain ⟨es, hes, hkind⟩ := h.trace
  intro e he
  rw [hes] at he
  rcases List.mem_append.1 he with he | he
  · exact hn e he
  · exact hkind e he

/-- A register is written. -/
theorem Extends.writeCap {width val : ℕ} {capBasePtr : UInt64} {offsetInCap : UInt32}
    (h : Extends Harmless n n') :
    Extends Harmless n (n'.writeCap width capBasePtr offsetInCap val) :=
  h.log (by simp [Harmless, Effect.onNull])

variable (env)

/-- A register is read. -/
theorem Extends.readCap {width : ℕ} {capBasePtr : UInt64} {offsetInCap : UInt32}
    (h : Extends Harmless n n') :
    Extends Harmless n (n'.readCap env width capBasePtr offsetInCap).2 :=
  (h.log (e := .read (capBasePtr + offsetInCap.toUInt64) width) not_false).congr rfl rfl rfl rfl

/-- Memory is allocated. -/
theorem Extends.buddyAlloc (h : Extends kind n n') : Extends kind n (n'.buddyAlloc env).2 :=
  h.congr rfl rfl rfl rfl

/-- The reset is waited for. -/
theorem Extends.pollReset (timeout : ℕ) (h : Extends Harmless n n') :
    Extends Harmless n (n'.pollReset env timeout).2 := by
  induction timeout generalizing n' with
  | zero => exact h.readCap env
  | succ timeout ih =>
    rw [Net.pollReset]
    dsimp only
    split
    · exact h.readCap env
    · exact ih (h.readCap env)

/-- Resetting the device is harmless. -/
theorem extends_resetDevice : Extends Harmless n (n.resetDevice env).2 :=
  (Extends.refl n).writeCap.pollReset env 1000

/-- Negotiating the features is harmless. -/
theorem extends_negotiateFeatures : Extends Harmless n (n.negotiateFeatures env).2.2 :=
  (Extends.refl n).writeCap |>.readCap env |>.writeCap |>.readCap env |>.writeCap |>.readCap env
    |>.writeCap |>.readCap env |>.writeCap |>.writeCap |>.writeCap |>.writeCap |>.writeCap
    |>.writeCap |>.readCap env |>.readCap env

/-- Reading the address of the card is harmless. -/
theorem Extends.readMac (count : ℕ) (h : Extends Harmless n n') :
    Extends Harmless n (n'.readMac env count) := by
  induction count with
  | zero => exact h
  | succ i ih => exact (ih.readCap env).congr rfl rfl rfl rfl

/-- Allocating a queue is harmless. -/
theorem Extends.virtqAlloc (qIdx numDescs : ℕ) (h : Extends Harmless n n') :
    Extends Harmless n (n'.virtqAlloc env qIdx numDescs).2 := by
  rw [Net.virtqAlloc]
  dsimp only
  have hstore : ∀ (addr : UInt64) (len : ℕ), addr ≠ 0 → Harmless (.store addr len) :=
    fun _ _ hne => hne
  have hfree : ∀ addr, Harmless (.free addr) := fun _ => not_false
  split
  · exact h.buddyAlloc env
  next hq =>
  have hq := (h.buddyAlloc env).log (hstore _ 64 hq)
  split
  · exact (hq.buddyAlloc env).log (hfree _)
  next hbuffers =>
  have hbuffers := (hq.buddyAlloc env).log (hstore _ (numDescs * 8) hbuffers)
  split
  · exact hbuffers.buddyAlloc env
  next hdesc =>
  split
  · exact (hbuffers.buddyAlloc env).buddyAlloc env
  next hring =>
  have htables := (((hbuffers.buddyAlloc env).buddyAlloc env).log (hstore _ 4096 hdesc)).log
    (hstore _ 4096 hring)
  split
  · exact (htables.writeCap.readCap env).log (hfree _)
  · exact (htables.writeCap.readCap env |>.readCap env).writeCap.writeCap.writeCap.writeCap
      |>.readCap env

@[simp] theorem fillRxQueue_allocs (count : ℕ) (q : Virtq) (n : Net) :
    (fillRxQueue env count q n).2.allocs = n.allocs + count := by
  induction count with
  | zero => rfl
  | succ i ih =>
    change (fillRxQueue env i q n).2.allocs + 1 = _
    rw [ih, Nat.add_assoc]

/-- Filling the receive queue stores headers into its buffers and posts them. -/
theorem Extends.fillRxQueue (count : ℕ) (q : Virtq) (h : Extends kind n n')
    (hfill : ∀ i < count, kind (.store (env.alloc (n'.allocs + i)) 10) ∧
      kind (.post (env.alloc (n'.allocs + i)))) :
    Extends kind n (Net.fillRxQueue env count q n').2 := by
  induction count with
  | zero => exact h
  | succ i ih =>
    obtain ⟨hstore, hpost⟩ := hfill i (Nat.lt_succ_self i)
    rw [← fillRxQueue_allocs env i q n'] at hstore hpost
    exact (((ih fun j hj => hfill j (by omega)).buddyAlloc env).log hstore).log hpost

/-- Enabling the queues is harmless. -/
theorem Extends.enableQueues (rx : NetQueue) (h : Extends Harmless n n') :
    Extends Harmless n (n'.enableQueues env rx) :=
  h.writeCap.writeCap.writeCap.writeCap.writeCap.writeCap.readCap env

/-- What follows the filling of the receive queue touches no block. -/
theorem extends_start_of_filled (rx tx : NetQueue) :
    Extends Harmless (fillRxQueue env numDesc rx.queue n).2 (n.start env rx tx) := by
  rw [start]
  generalize Net.fillRxQueue env numDesc rx.queue n = filled
  exact ((Extends.refl filled.2).enableQueues env { rx with queue := filled.1 }).congr
    rfl rfl rfl rfl

/-- The last part of a call does what filling the queue does. -/
theorem extends_start (rx tx : NetQueue) (hharmless : ∀ e, Harmless e → kind e)
    (hfill : ∀ i < numDesc, kind (.store (env.alloc (n.allocs + i)) 10) ∧
      kind (.post (env.alloc (n.allocs + i)))) :
    Extends kind n (n.start env rx tx) :=
  ((Extends.refl n).fillRxQueue env numDesc rx.queue hfill).trans
    ((extends_start_of_filled env rx tx).mono hharmless)

/-- Allocating the queues is harmless. -/
theorem Extends.allocQueues (h : Extends Harmless n n') :
    Extends Harmless n (n'.allocQueues env) := by
  have hrx := h.virtqAlloc env 0 numDesc
  rw [Net.allocQueues]
  generalize Net.virtqAlloc env n' 0 numDesc = rx at hrx
  have hset : Extends Harmless n { rx.2 with rxQ := rx.1 } := hrx.congr rfl rfl rfl rfl
  exact (hset.virtqAlloc env 1 numDesc).congr rfl rfl rfl rfl

/-- Once the configuration pointers are there, nothing changes them. -/
theorem extends_setUpQueues : Extends (fun _ => True) n (n.setUpQueues env).2 := by
  have hqueues := (Extends.refl n).allocQueues env
  rw [setUpQueues]
  generalize Net.allocQueues env n = m at hqueues
  split
  · exact (hqueues.mono fun _ _ => trivial).trans
      (extends_start env _ _ (fun _ _ => trivial) fun _ _ => ⟨trivial, trivial⟩)
  · exact hqueues.writeCap.mono fun _ _ => trivial

/-- Behind the reset a call keeps to what `Extends` allows. -/
theorem extends_afterReset : Extends (fun _ => True) n (n.afterReset env).2 := by
  have hfeatures := extends_negotiateFeatures env (n := n)
  rw [afterReset]
  dsimp only
  split
  · exact hfeatures.mono fun _ _ => trivial
  · refine Extends.trans ?_ (extends_setUpQueues env)
    split
    · exact (hfeatures.readMac env 6).mono fun _ _ => trivial
    · exact hfeatures.mono fun _ _ => trivial

end Net

end Orionis.Virtio
