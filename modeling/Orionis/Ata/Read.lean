import Mathlib.Data.List.Basic
import Orionis.Foundations.ByteMemory

/-!
# Reading sectors from an ATA drive

`ata_read_sectors` drives the ports by hand: it waits for the drive, writes the address and the
command, and for every sector waits again, looks at the error bit and takes 256 words, each after
a wait of its own. Every wait gives up after 100000 reads of the status. What the ports answer
may depend on all the accesses before.

The texts for the console are left out.
-/

namespace Orionis.Ata

open Orionis.Foundations

/-! ## The ports -/

/-- An access to a port of the driver: the status (0x1F7) or the data (0x1F0) is read, or a byte
is written. -/
inductive Access where
  | status (value : UInt8)
  | data (value : UInt16)
  | out (port : UInt16) (value : UInt8)
  deriving DecidableEq, Repr

/-- What a read returns after the accesses so far. -/
structure Ports where
  status : List Access → UInt8
  data : List Access → UInt16

/-- The accesses so far and the memory. -/
structure State where
  trace : List Access
  memory : Memory

def State.access (s : State) (a : Access) : State := { s with trace := s.trace ++ [a] }

/-! ## The source -/

variable (ports : Ports)

/-- The loop of both waits; the result says whether it has timed out. -/
def poll (ready : UInt8 → Bool) : ℕ → State → Bool × State
  | 0, s => (true, s)
  | n + 1, s =>
    let value := ports.status s.trace
    if ready value then (false, s.access (.status value))
    else poll ready n (s.access (.status value))

/-- `BSY` is clear. -/
def notBusy (value : UInt8) : Bool := value &&& 0x80 == 0

/-- `DRQ` is set. -/
def dataRequest (value : UInt8) : Bool := value &&& 0x08 != 0

/-- `ata_wait_bsy`. -/
def ataWaitBsy (s : State) : Bool × State := poll ports notBusy 100000 s

/-- `ata_wait_drq`. -/
def ataWaitDrq (s : State) : Bool × State := poll ports dataRequest 100000 s

/-- `ata_read_buffer`, by the number of words that are left. -/
def ataReadBuffer : (words buffer : ℕ) → State → Bool × State
  | 0, _, s => (true, s)
  | n + 1, buffer, s =>
    let (timedOut, s) := ataWaitDrq ports s
    if timedOut then (false, s)
    else
      let word := ports.data s.trace
      ataReadBuffer n (buffer + 2)
        ⟨s.trace ++ [.data word], storeLE s.memory 2 buffer word.toNat⟩

/-- The loop of `ata_read_sectors`, by the number of sectors that are left. -/
def readSectors : (sectors buffer : ℕ) → State → Bool × State
  | 0, _, s => (true, s)
  | n + 1, buffer, s =>
    let (timedOut, s) := ataWaitBsy ports s
    if timedOut then (false, s)
    else
      let value := ports.status s.trace
      let s := s.access (.status value)
      if value &&& 0x01 ≠ 0 then (false, s)
      else
        let (read, s) := ataReadBuffer ports 256 buffer s
        if read then readSectors n (buffer + 512) s else (false, s)

/-- The six bytes that are written for a command. -/
def commandBytes (lba : UInt64) (numSectors : UInt8) : List Access :=
  [.out 0x1F6 0xE0, .out 0x1F2 numSectors, .out 0x1F3 lba.toUInt8, .out 0x1F4 (lba >>> 8).toUInt8,
    .out 0x1F5 (lba >>> 16).toUInt8, .out 0x1F7 0x20]

/-- `ata_read_sectors`. -/
def ataReadSectors (drive : UInt8) (lba : UInt64) (numSectors : UInt8) (buffer : ℕ) (s : State) :
    Bool × State :=
  if drive > 1 then (false, s)
  else
    let (timedOut, s) := ataWaitBsy ports s
    if timedOut then (false, s)
    else readSectors ports numSectors.toNat buffer
      { s with trace := s.trace ++ commandBytes lba numSectors }

variable {ports}

/-! ## Accesses -/

/-- The word that an access reads. -/
def Access.word? : Access → Option UInt16
  | .data value => some value
  | _ => none

/-- An access that reads a port. -/
def Access.reads : Access → Bool
  | .out _ _ => false
  | _ => true

/-- The words that were read, in order. -/
def dataWords (t : List Access) : List UInt16 := t.filterMap Access.word?

@[simp] theorem dataWords_nil : dataWords [] = [] := rfl

@[simp] theorem dataWords_append (t u : List Access) :
    dataWords (t ++ u) = dataWords t ++ dataWords u := List.filterMap_append

@[simp] theorem dataWords_status (values : List UInt8) : dataWords (values.map .status) = [] := by
  simp [dataWords, List.filterMap_map, Function.comp_def, Access.word?]

@[simp] theorem dataWords_commandBytes (lba : UInt64) (numSectors : UInt8) :
    dataWords (commandBytes lba numSectors) = [] := rfl

/-- Status reads of which only the last one is ready. -/
def Waited (ready : UInt8 → Bool) (t : List Access) : Prop :=
  ∃ (polls : List UInt8) (value : UInt8), t = (polls ++ [value]).map .status ∧
    (∀ v ∈ polls, ready v = false) ∧ ready value = true

/-- A word that is read right after a status with `DRQ`. -/
def WordRead (t : List Access) : Prop :=
  ∃ (wait : List Access) (word : UInt16), t = wait ++ [.data word] ∧ Waited dataRequest wait

/-- A sector: the drive is not busy any more, it has no error, and 256 words are read. -/
def SectorRead (t : List Access) : Prop :=
  ∃ (wait : List Access) (value : UInt8) (words : List (List Access)),
    t = wait ++ [.status value] ++ words.flatten ∧ Waited notBusy wait ∧ value &&& 0x01 = 0 ∧
      words.length = 256 ∧ ∀ w ∈ words, WordRead w

/-- Waiting reads no data. -/
theorem dataWords_waited {ready : UInt8 → Bool} {t : List Access} (h : Waited ready t) :
    dataWords t = [] := by
  obtain ⟨polls, value, rfl, -, -⟩ := h
  exact dataWords_status _

/-- A round of the inner loop reads one word. -/
theorem length_dataWords_wordRead {t : List Access} (h : WordRead t) :
    (dataWords t).length = 1 := by
  obtain ⟨wait, word, rfl, hwait⟩ := h
  rw [dataWords_append, dataWords_waited hwait]
  rfl

/-- Pieces with as many words each. -/
theorem length_dataWords_flatten {n : ℕ} {pieces : List (List Access)}
    (h : ∀ t ∈ pieces, (dataWords t).length = n) :
    (dataWords pieces.flatten).length = n * pieces.length := by
  induction pieces with
  | nil => rfl
  | cons t pieces ih =>
    obtain ⟨ht, hrest⟩ := List.forall_mem_cons.1 h
    rw [List.flatten_cons, dataWords_append, List.length_append, ht, ih hrest, List.length_cons]
    ring

/-- A sector is 256 words. -/
theorem length_dataWords_sectorRead {t : List Access} (h : SectorRead t) :
    (dataWords t).length = 256 := by
  obtain ⟨wait, value, words, rfl, hwait, -, hlength, hwords⟩ := h
  have hpart := length_dataWords_flatten fun w hw => length_dataWords_wordRead (hwords w hw)
  rw [dataWords_append, dataWords_append, dataWords_waited hwait, List.length_append, hpart,
    hlength]
  rfl

/-! ## Transfers -/

/-- Words stored one after the other. -/
def storeWords : Memory → ℕ → List UInt16 → Memory
  | m, _, [] => m
  | m, a, word :: words => storeWords (storeLE m 2 a word.toNat) (a + 2) words

/-- Words are stored one behind the other. -/
theorem storeWords_append (m : Memory) (a : ℕ) (words words' : List UInt16) :
    storeWords m a (words ++ words') =
      storeWords (storeWords m a words) (a + 2 * words.length) words' := by
  induction words generalizing m a with
  | nil => rfl
  | cons word words ih =>
    rw [List.cons_append, storeWords, storeWords, ih, List.length_cons]
    exact congrArg (fun b => storeWords _ b words') (by ring)

/-- Storing words changes nothing outside them. -/
theorem storeWords_of_outside (m : Memory) (a : ℕ) (words : List UInt16) (x : ℕ)
    (h : x < a ∨ a + 2 * words.length ≤ x) : storeWords m a words x = m x := by
  induction words generalizing m a with
  | nil => rfl
  | cons word words ih =>
    rw [List.length_cons] at h
    rw [storeWords, ih _ _ (by omega), storeLE_of_outside _ _ _ _ _ (by omega)]

/-- Each word is where it was stored. -/
theorem loadLE_storeWords (m : Memory) (a : ℕ) (words : List UInt16) (k : ℕ)
    (hk : k < words.length) : loadLE (storeWords m a words) 2 (a + 2 * k) = words[k].toNat := by
  induction words generalizing m a k with
  | nil => exact absurd hk (Nat.not_lt_zero k)
  | cons word words ih =>
    rw [storeWords]
    cases k with
    | zero =>
      have hword : word.toNat < 256 ^ 2 := word.toNat_lt
      have hsame : ∀ x, a ≤ x → x < a + 2 →
          storeWords (storeLE m 2 a word.toNat) (a + 2) words x = storeLE m 2 a word.toNat x :=
        fun x _ hx => storeWords_of_outside _ _ _ _ (.inl hx)
      rw [mul_zero, add_zero, loadLE_congr hsame, loadLE_storeLE_same, Nat.mod_eq_of_lt hword]
      rfl
    | succ k =>
      have hplace : a + 2 * (k + 1) = a + 2 + 2 * k := by ring
      rw [hplace, ih _ _ k (Nat.succ_lt_succ_iff.1 hk)]
      rfl

/-- What a part of the driver has done: at most `reads` accesses, all of them reads, and among
them at most `words` words, which are stored from `buffer` on. -/
structure Transfer (words reads buffer : ℕ) (s s' : State) (t : List Access) : Prop where
  trace : s'.trace = s.trace ++ t
  memory : s'.memory = storeWords s.memory buffer (dataWords t)
  words_le : (dataWords t).length ≤ words
  length_le : t.length ≤ reads
  only_reads : ∀ a ∈ t, a.reads = true

variable {words reads words' reads' buffer next : ℕ} {s s' s'' : State} {t u : List Access}

/-- One part after the other, which goes on behind the words of the first. -/
theorem Transfer.append (h : Transfer words reads buffer s s' t)
    (hnext : next = buffer + 2 * (dataWords t).length)
    (h' : Transfer words' reads' next s' s'' u) :
    Transfer (words + words') (reads + reads') buffer s s'' (t ++ u) where
  trace := by rw [h'.trace, h.trace, List.append_assoc]
  memory := by rw [h'.memory, h.memory, hnext, dataWords_append, storeWords_append]
  words_le := by
    rw [dataWords_append, List.length_append]
    exact Nat.add_le_add h.words_le h'.words_le
  length_le := by
    rw [List.length_append]
    exact Nat.add_le_add h.length_le h'.length_le
  only_reads := List.forall_mem_append.2 ⟨h.only_reads, h'.only_reads⟩

/-- Bounds of a transfer may be raised. -/
theorem Transfer.mono (h : Transfer words reads buffer s s' t) (hwords : words ≤ words')
    (hreads : reads ≤ reads') : Transfer words' reads' buffer s s' t :=
  ⟨h.trace, h.memory, h.words_le.trans hwords, h.length_le.trans hreads, h.only_reads⟩

/-- Nothing is done. -/
theorem Transfer.refl (words reads buffer : ℕ) (s : State) : Transfer words reads buffer s s [] :=
  ⟨(List.append_nil _).symm, rfl, Nat.zero_le _, Nat.zero_le _, nofun⟩

/-- One read of the status. -/
theorem Transfer.status (buffer : ℕ) (s : State) (value : UInt8) :
    Transfer 0 1 buffer s (s.access (.status value)) [.status value] :=
  ⟨rfl, rfl, le_rfl, le_rfl, List.forall_mem_singleton.2 rfl⟩

/-- One word, read and stored. -/
theorem Transfer.data (buffer : ℕ) (s : State) (word : UInt16) :
    Transfer 1 1 buffer s ⟨s.trace ++ [.data word], storeLE s.memory 2 buffer word.toNat⟩
      [.data word] :=
  ⟨rfl, rfl, le_rfl, le_rfl, List.forall_mem_singleton.2 rfl⟩

/-! ## What the loops do -/

variable (ports)

/-- A polling loop transfers nothing, reads the status so often at most, and has waited unless it
times out. -/
theorem poll_spec (ready : UInt8 → Bool) (n buffer : ℕ) (s : State) :
    ∃ t, Transfer 0 n buffer s (poll ports ready n s).2 t ∧ dataWords t = [] ∧
      ((poll ports ready n s).1 = false → Waited ready t) := by
  induction n generalizing s with
  | zero => exact ⟨[], Transfer.refl _ _ _ _, rfl, nofun⟩
  | succ n ih =>
    rw [poll]
    have hread := Transfer.status buffer s (ports.status s.trace)
    by_cases hready : ready (ports.status s.trace) = true
    · rw [if_pos hready]
      exact ⟨_, hread.mono le_rfl (by omega), rfl, fun _ =>
        ⟨[], ports.status s.trace, rfl, nofun, hready⟩⟩
    · rw [if_neg hready]
      obtain ⟨t, ht, hdata, hwaited⟩ := ih (s.access (.status (ports.status s.trace)))
      refine ⟨[.status (ports.status s.trace)] ++ t, (hread.append rfl ht).mono le_rfl (by omega),
        hdata, fun hdone => ?_⟩
      obtain ⟨polls, value, rfl, hpolls, hvalue⟩ := hwaited hdone
      exact ⟨ports.status s.trace :: polls, value, rfl,
        List.forall_mem_cons.2 ⟨Bool.eq_false_iff.2 hready, hpolls⟩, hvalue⟩

/-- Words are read and stored one after the other, each after its wait. -/
theorem ataReadBuffer_spec (n buffer : ℕ) (s : State) :
    ∃ t, Transfer n (n * 100001) buffer s (ataReadBuffer ports n buffer s).2 t ∧
      ((ataReadBuffer ports n buffer s).1 = true → ∃ pieces : List (List Access),
        t = pieces.flatten ∧ pieces.length = n ∧ ∀ w ∈ pieces, WordRead w) := by
  induction n generalizing buffer s with
  | zero => exact ⟨[], Transfer.refl _ _ _ _, fun _ => ⟨[], rfl, rfl, nofun⟩⟩
  | succ n ih =>
    obtain ⟨wait, hwait, hnone, hwaited⟩ := poll_spec ports dataRequest 100000 buffer s
    rw [ataReadBuffer, ataWaitDrq]
    dsimp only
    cases hdone : (poll ports dataRequest 100000 s).1 with
    | true =>
      rw [if_pos rfl]
      exact ⟨wait, hwait.mono (by omega) (by omega), nofun⟩
    | false =>
      rw [if_neg Bool.false_ne_true]
      let waited := (poll ports dataRequest 100000 s).2
      let word := ports.data waited.trace
      let stored : State := ⟨waited.trace ++ [.data word], storeLE waited.memory 2 buffer word.toNat⟩
      have hone : WordRead (wait ++ [.data word]) := ⟨wait, word, rfl, hwaited hdone⟩
      have hword := hwait.append (by rw [hnone]; rfl) (Transfer.data buffer waited word)
      obtain ⟨rest, hrest, hpieces⟩ := ih (buffer + 2) stored
      have hall := hword.append (by rw [length_dataWords_wordRead hone]) hrest
      refine ⟨wait ++ [.data word] ++ rest, hall.mono (by omega) (by omega), fun hread => ?_⟩
      obtain ⟨pieces, rfl, hlength, hpieces⟩ := hpieces hread
      exact ⟨(wait ++ [.data word]) :: pieces, rfl, by rw [List.length_cons, hlength],
        List.forall_mem_cons.2 ⟨hone, hpieces⟩⟩

/-- Sectors are read one after the other, until one fails. -/
theorem readSectors_spec (n buffer : ℕ) (s : State) :
    ∃ t, Transfer (256 * n) (n * (257 * 100001)) buffer s (readSectors ports n buffer s).2 t ∧
      ((readSectors ports n buffer s).1 = true → ∃ sectors : List (List Access),
        t = sectors.flatten ∧ sectors.length = n ∧ ∀ sector ∈ sectors, SectorRead sector) := by
  induction n generalizing buffer s with
  | zero => exact ⟨[], Transfer.refl _ _ _ _, fun _ => ⟨[], rfl, rfl, nofun⟩⟩
  | succ n ih =>
    obtain ⟨wait, hwait, hnone, hwaited⟩ := poll_spec ports notBusy 100000 buffer s
    rw [readSectors, ataWaitBsy]
    dsimp only
    cases hdone : (poll ports notBusy 100000 s).1 with
    | true =>
      rw [if_pos rfl]
      exact ⟨wait, hwait.mono (by omega) (by omega), nofun⟩
    | false =>
      rw [if_neg Bool.false_ne_true]
      let waited := (poll ports notBusy 100000 s).2
      let value := ports.status waited.trace
      have hstatus := hwait.append (by rw [hnone]; rfl) (Transfer.status buffer waited value)
      by_cases herror : value &&& 0x01 ≠ 0
      · rw [if_pos herror]
        exact ⟨wait ++ [.status value], hstatus.mono (by omega) (by omega), nofun⟩
      rw [if_neg herror]
      have hempty : dataWords (wait ++ [.status value]) = [] := by rw [dataWords_append, hnone]; rfl
      obtain ⟨body, hbody, hpieces⟩ :=
        ataReadBuffer_spec ports 256 buffer (waited.access (.status value))
      have hsector := hstatus.append (by rw [hempty]; rfl) hbody
      cases hread : (ataReadBuffer ports 256 buffer (waited.access (.status value))).1 with
      | false =>
        rw [if_neg Bool.false_ne_true]
        exact ⟨wait ++ [.status value] ++ body, hsector.mono (by omega) (by omega), nofun⟩
      | true =>
        rw [if_pos rfl]
        obtain ⟨pieces, rfl, hlength, hpieces⟩ := hpieces hread
        have hone : SectorRead (wait ++ [.status value] ++ pieces.flatten) :=
          ⟨wait, value, pieces, rfl, hwaited hdone, not_not.1 herror, hlength, hpieces⟩
        obtain ⟨rest, hrest, hsectors⟩ := ih (buffer + 512)
          (ataReadBuffer ports 256 buffer (waited.access (.status value))).2
        have hall := hsector.append (by rw [length_dataWords_sectorRead hone]) hrest
        refine ⟨wait ++ [.status value] ++ pieces.flatten ++ rest,
          hall.mono (by omega) (by omega), fun hread => ?_⟩
        obtain ⟨sectors, rfl, hlength, hsectors⟩ := hsectors hread
        exact ⟨(wait ++ [.status value] ++ pieces.flatten) :: sectors, rfl,
          by rw [List.length_cons, hlength], List.forall_mem_cons.2 ⟨hone, hsectors⟩⟩

/-! ## Faithful transfers -/

/-- The accesses between two states. -/
def State.since (s s' : State) : List Access := s'.trace.drop s.trace.length

/-- The words lie in the buffer one after the other, and every other byte is as it was. -/
structure Placed (before after : Memory) (buffer : ℕ) (words : List UInt16) : Prop where
  word : ∀ k (hk : k < words.length), loadLE after 2 (buffer + 2 * k) = words[k].toNat
  outside : ∀ a, a < buffer ∨ buffer + 2 * words.length ≤ a → after a = before a

/-- Stored words are placed in the buffer. -/
theorem placed_storeWords (m : Memory) (buffer : ℕ) (words : List UInt16) :
    Placed m (storeWords m buffer words) buffer words :=
  ⟨loadLE_storeWords m buffer words, storeWords_of_outside m buffer words⟩

/-- A call for `sectors` sectors puts every word it reads where it belongs, writes nothing behind
the sectors, succeeds only when it has read all of them, each in the order of the protocol, and
makes a bounded number of reads. -/
structure Faithful (sectors buffer : ℕ) (before after : Memory) (result : Bool)
    (accesses : List Access) : Prop where
  placed : Placed before after buffer (dataWords accesses)
  within : ∀ a, buffer + 512 * sectors ≤ a → after a = before a
  all_words : result = true → (dataWords accesses).length = 256 * sectors
  in_order : result = true → ∃ (command : List Access) (pieces : List (List Access)),
    accesses = command ++ pieces.flatten ∧ dataWords command = [] ∧ pieces.length = sectors ∧
      ∀ sector ∈ pieces, SectorRead sector
  reads_le : accesses.countP Access.reads ≤ 100000 + sectors * (257 * 100001)

variable {ports}

/-- The transfer of the sectors behind accesses that move no word. -/
theorem faithful_of_transfer {sectors buffer : ℕ} {s s' : State} {command t : List Access}
    {result : Bool} (hcommand : dataWords command = [])
    (hreads : command.countP Access.reads ≤ 100000)
    (h : Transfer (256 * sectors) (sectors * (257 * 100001)) buffer s s' t)
    (hdone : result = true → ∃ pieces : List (List Access),
      t = pieces.flatten ∧ pieces.length = sectors ∧ ∀ sector ∈ pieces, SectorRead sector) :
    Faithful sectors buffer s.memory s'.memory result (command ++ t) := by
  have hwords : dataWords (command ++ t) = dataWords t := by
    rw [dataWords_append, hcommand, List.nil_append]
  have hplaced := placed_storeWords s.memory buffer (dataWords t)
  rw [← h.memory] at hplaced
  have hle := h.words_le
  constructor
  · rw [hwords]
    exact hplaced
  · intro a ha
    exact hplaced.outside a (.inr (by omega))
  · intro hresult
    obtain ⟨pieces, rfl, hlength, hpieces⟩ := hdone hresult
    rw [hwords, ← hlength]
    exact length_dataWords_flatten fun sector hmem =>
      length_dataWords_sectorRead (hpieces sector hmem)
  · intro hresult
    obtain ⟨pieces, rfl, hlength, hpieces⟩ := hdone hresult
    exact ⟨command, pieces, rfl, hcommand, hlength, hpieces⟩
  · have hcount : t.countP Access.reads ≤ t.length := List.countP_le_length
    have hlength := h.length_le
    rw [List.countP_append]
    omega

/-- What has been added to the trace since a state. -/
theorem State.since_of_trace {s s' : State} {t : List Access} (h : s'.trace = s.trace ++ t) :
    s.since s' = t := by
  rw [State.since, h, List.drop_left]

/-- A call that has sent its command: the wait before it, and the transfer behind it. -/
structure Started (lba : UInt64) (numSectors : UInt8) (buffer : ℕ) (s : State)
    (call : Bool × State) (wait t : List Access) : Prop where
  accesses : s.since call.2 = wait ++ commandBytes lba numSectors ++ t
  waited : ∃ s', Transfer 0 100000 buffer s s' wait
  transfer : ∃ s', s'.memory = s.memory ∧
    Transfer (256 * numSectors.toNat) (numSectors.toNat * (257 * 100001)) buffer s' call.2 t
  done : call.1 = true → ∃ pieces : List (List Access), t = pieces.flatten ∧
    pieces.length = numSectors.toNat ∧ ∀ sector ∈ pieces, SectorRead sector

variable (ports)

/-- A call that gives up before the command. -/
theorem ataReadSectors_of_refused (drive : UInt8) (lba : UInt64) (numSectors : UInt8)
    (buffer : ℕ) (s : State) (h : drive > 1 ∨ (ataWaitBsy ports s).1 = true) :
    let call := ataReadSectors ports drive lba numSectors buffer s
    call.1 = false ∧ Transfer 0 100000 buffer s call.2 (s.since call.2) := by
  obtain ⟨wait, hwait, -⟩ := poll_spec ports notBusy 100000 buffer s
  rw [ataReadSectors]
  dsimp only
  by_cases hdrive : drive > 1
  · have hnone := Transfer.refl 0 100000 buffer s
    rw [if_pos hdrive, State.since_of_trace hnone.trace]
    exact ⟨rfl, hnone⟩
  · have hbusy := h.resolve_left hdrive
    rw [if_neg hdrive, if_pos hbusy, ataWaitBsy, State.since_of_trace hwait.trace]
    exact ⟨rfl, hwait⟩

/-- A call that gets to the command. -/
theorem ataReadSectors_of_ready (drive : UInt8) (lba : UInt64) (numSectors : UInt8)
    (buffer : ℕ) (s : State) (hdrive : ¬ drive > 1) (hready : (ataWaitBsy ports s).1 = false) :
    ∃ wait t, Started lba numSectors buffer s (ataReadSectors ports drive lba numSectors buffer s)
      wait t := by
  obtain ⟨wait, hwait, hnone, -⟩ := poll_spec ports notBusy 100000 buffer s
  let waited := (ataWaitBsy ports s).2
  let sent : State := { waited with trace := waited.trace ++ commandBytes lba numSectors }
  obtain ⟨t, ht, hdone⟩ := readSectors_spec ports numSectors.toNat buffer sent
  have hcall : ataReadSectors ports drive lba numSectors buffer s =
      readSectors ports numSectors.toNat buffer sent := by
    rw [ataReadSectors]
    dsimp only
    rw [if_neg hdrive, hready, if_neg Bool.false_ne_true]
  have hmemory : sent.memory = s.memory := by
    have hpolled := hwait.memory
    rw [hnone] at hpolled
    exact hpolled
  have htrace : sent.trace = s.trace ++ (wait ++ commandBytes lba numSectors) := by
    rw [← List.append_assoc, ← hwait.trace]
    rfl
  rw [hcall]
  refine ⟨wait, t, State.since_of_trace ?_, ⟨_, hwait⟩, ⟨sent, hmemory, ht⟩, hdone⟩
  rw [ht.trace, htrace, List.append_assoc]

/-- Every call is faithful, whatever the ports answer. -/
theorem ataReadSectors_faithful (drive : UInt8) (lba : UInt64) (numSectors : UInt8)
    (buffer : ℕ) (s : State) :
    let call := ataReadSectors ports drive lba numSectors buffer s
    Faithful numSectors.toNat buffer s.memory call.2.memory call.1 (s.since call.2) := by
  intro call
  by_cases h : drive > 1 ∨ (ataWaitBsy ports s).1 = true
  · obtain ⟨hfalse, hcall⟩ := ataReadSectors_of_refused ports drive lba numSectors buffer s h
    have hempty : dataWords (s.since call.2) = [] :=
      List.length_eq_zero_iff.1 (Nat.le_zero.1 hcall.words_le)
    have hreads : (s.since call.2).countP Access.reads ≤ 100000 :=
      List.countP_le_length.trans hcall.length_le
    have hmemory : call.2.memory = s.memory := by
      rw [hcall.memory, hempty]
      rfl
    have hfaithful := faithful_of_transfer hempty hreads
      (Transfer.refl (256 * numSectors.toNat) (numSectors.toNat * (257 * 100001)) buffer s)
      (fun htrue => absurd (hfalse.symm.trans htrue) Bool.false_ne_true)
    rw [List.append_nil] at hfaithful
    rw [hmemory]
    exact hfaithful
  · obtain ⟨hdrive, hready⟩ := not_or.1 h
    obtain ⟨wait, t, hstarted⟩ := ataReadSectors_of_ready ports drive lba numSectors buffer s hdrive
      (Bool.eq_false_iff.2 hready)
    obtain ⟨_, hwait⟩ := hstarted.waited
    obtain ⟨s', hmemory, ht⟩ := hstarted.transfer
    have hempty : dataWords (wait ++ commandBytes lba numSectors) = [] := by
      rw [dataWords_append, List.length_eq_zero_iff.1 (Nat.le_zero.1 hwait.words_le)]
      rfl
    have hreads : (wait ++ commandBytes lba numSectors).countP Access.reads ≤ 100000 := by
      rw [List.countP_append]
      exact List.countP_le_length.trans hwait.length_le
    rw [hstarted.accesses, ← hmemory]
    exact faithful_of_transfer hempty hreads ht hstarted.done

end Orionis.Ata
