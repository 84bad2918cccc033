import Orionis.Ata.Read

/-!
# The sectors an ATA command asks for

The drive, the address and the number of sectors travel in five registers of a byte each. The
driver writes a constant into the register that holds the drive and the top four bits of the
address, and it sends a request for no sectors, which the drive takes for 256.
-/

namespace Orionis.Ata

/-- The sectors of a command. -/
structure Request where
  drive : ℕ
  lba : ℕ
  sectors : ℕ
  deriving DecidableEq, Repr

/-- The request in the registers of the drive, with an address of 28 bits. -/
def decode (registers : UInt16 → UInt8) : Request where
  drive := (registers 0x1F6).toNat / 16 % 2
  lba := (registers 0x1F3).toNat + (registers 0x1F4).toNat * 2 ^ 8 +
    (registers 0x1F5).toNat * 2 ^ 16 + (registers 0x1F6).toNat % 16 * 2 ^ 24
  sectors := if registers 0x1F2 = 0 then 256 else (registers 0x1F2).toNat

/-- The requests of the read commands that are sent, by the registers before. -/
def issued : (UInt16 → UInt8) → List Access → List Request
  | _, [] => []
  | registers, .out port value :: rest =>
    if port = 0x1F7 then
      if value = 0x20 then decode registers :: issued registers rest else issued registers rest
    else issued (Function.update registers port value) rest
  | registers, .status _ :: rest => issued registers rest
  | registers, .data _ :: rest => issued registers rest

/-- A call asks for the sectors it was given, and fails without a command where no command can
ask for them. -/
structure Addressed (registers : UInt16 → UInt8) (drive : UInt8) (lba : UInt64)
    (numSectors : UInt8) (result : Bool) (accesses : List Access) : Prop where
  requested : ∀ request ∈ issued registers accesses,
    request = ⟨drive.toNat, lba.toNat, numSectors.toNat⟩
  refused : 1 < drive.toNat ∨ 2 ^ 28 ≤ lba.toNat ∨ numSectors = 0 →
    result = false ∧ issued registers accesses = []

/-! ## The command of a call -/

/-- Reads issue no command. -/
theorem issued_reads {t : List Access} (registers : UInt16 → UInt8)
    (h : ∀ a ∈ t, a.reads = true) (u : List Access) :
    issued registers (t ++ u) = issued registers u := by
  induction t with
  | nil => rfl
  | cons a t ih =>
    obtain ⟨ha, ht⟩ := List.forall_mem_cons.1 h
    cases a with
    | status _ => exact ih ht
    | data _ => exact ih ht
    | out _ _ => exact absurd ha Bool.false_ne_true

/-- The request that the driver sends. -/
def sentRequest (lba : UInt64) (numSectors : UInt8) : Request where
  drive := 0
  lba := lba.toNat % 2 ^ 24
  sectors := if numSectors = 0 then 256 else numSectors.toNat

/-- The bytes of the command issue one command, for the sectors in the registers. -/
theorem issued_commandBytes (registers : UInt16 → UInt8) (lba : UInt64) (numSectors : UInt8)
    {t : List Access} (h : ∀ a ∈ t, a.reads = true) :
    issued registers (commandBytes lba numSectors ++ t) = [sentRequest lba numSectors] := by
  have hrest : ∀ registers, issued registers t = [] := fun registers => by
    have hreads := issued_reads registers h []
    rwa [List.append_nil] at hreads
  have hlow : lba.toUInt8.toNat = lba.toNat % 2 ^ 8 := UInt64.toNat_toUInt8 lba
  have hmid : (lba >>> 8).toUInt8.toNat = lba.toNat / 2 ^ 8 % 2 ^ 8 := by
    rw [UInt64.toNat_toUInt8, UInt64.toNat_shiftRight]
    exact congrArg (· % 2 ^ 8) (Nat.shiftRight_eq_div_pow _ 8)
  have hhigh : (lba >>> 16).toUInt8.toNat = lba.toNat / 2 ^ 16 % 2 ^ 8 := by
    rw [UInt64.toNat_toUInt8, UInt64.toNat_shiftRight]
    exact congrArg (· % 2 ^ 8) (Nat.shiftRight_eq_div_pow _ 16)
  have hlba : lba.toUInt8.toNat + (lba >>> 8).toUInt8.toNat * 2 ^ 8 +
      (lba >>> 16).toUInt8.toNat * 2 ^ 16 = lba.toNat % 2 ^ 24 := by
    rw [hlow, hmid, hhigh]
    omega
  let written := Function.update (Function.update (Function.update (Function.update
    (Function.update registers 0x1F6 0xE0) 0x1F2 numSectors) 0x1F3 lba.toUInt8)
    0x1F4 (lba >>> 8).toUInt8) 0x1F5 (lba >>> 16).toUInt8
  have hsent : decode written = sentRequest lba numSectors := by
    have hselect : written 0x1F6 = 0xE0 := rfl
    have hcount : written 0x1F2 = numSectors := rfl
    have hbytes : written 0x1F3 = lba.toUInt8 ∧ written 0x1F4 = (lba >>> 8).toUInt8 ∧
        written 0x1F5 = (lba >>> 16).toUInt8 := ⟨rfl, rfl, rfl⟩
    rw [decode, sentRequest, hselect, hcount, hbytes.1, hbytes.2.1, hbytes.2.2, hlba]
    rfl
  calc issued registers (commandBytes lba numSectors ++ t)
      = decode written :: issued written t := rfl
    _ = [sentRequest lba numSectors] := by rw [hrest, hsent]

/-- It is the request of the call only where nothing of it is lost. -/
theorem sentRequest_eq_iff {drive : UInt8} {lba : UInt64} {numSectors : UInt8} :
    sentRequest lba numSectors = ⟨drive.toNat, lba.toNat, numSectors.toNat⟩ ↔
      drive = 0 ∧ lba.toNat < 2 ^ 24 ∧ numSectors ≠ 0 := by
  have hdrive : 0 = drive.toNat ↔ drive = 0 := by
    rw [eq_comm, ← UInt8.toNat_inj]
    rfl
  have hlba : lba.toNat % 2 ^ 24 = lba.toNat ↔ lba.toNat < 2 ^ 24 := by
    constructor
    · intro h
      rw [← h]
      exact Nat.mod_lt _ (by decide)
    · exact Nat.mod_eq_of_lt
  have hcount : (if numSectors = 0 then 256 else numSectors.toNat) = numSectors.toNat ↔
      numSectors ≠ 0 := by
    have hlt := numSectors.toNat_lt
    split
    · exact iff_of_false (by omega) (not_not.2 ‹_›)
    · exact iff_of_true rfl ‹_›
  rw [sentRequest, Request.mk.injEq, hdrive, hlba, hcount]

/-! ## The wait before the command -/

/-- The accesses after some reads of the status. -/
def afterReads (ports : Ports) (t : List Access) (k : ℕ) : List Access :=
  (fun u => u ++ [.status (ports.status u)])^[k] t

/-- The drive is busy for the first `n` reads of its status. -/
def BusyFor (ports : Ports) (n : ℕ) (t : List Access) : Prop :=
  ∀ k < n, notBusy (ports.status (afterReads ports t k)) = false

variable (ports : Ports)

/-- The loop times out when the drive is busy at each of its reads. -/
theorem poll_timedOut_iff (n : ℕ) (s : State) :
    (poll ports notBusy n s).1 = true ↔ BusyFor ports n s.trace := by
  induction n generalizing s with
  | zero => exact iff_of_true rfl nofun
  | succ n ih =>
    rw [poll, BusyFor, Nat.forall_lt_succ_left]
    by_cases hready : notBusy (ports.status s.trace) = true
    · rw [if_pos hready]
      exact iff_of_false Bool.false_ne_true fun hbusy =>
        Bool.false_ne_true (hbusy.1.symm.trans hready)
    · rw [if_neg hready, ih]
      exact (and_iff_right (Bool.eq_false_iff.2 hready)).symm

/-! ## Main result -/

/-- A call that finds the drive ready sends its command. -/
theorem addressed_iff_of_ready (registers : UInt16 → UInt8) {drive : UInt8} (lba : UInt64)
    (numSectors : UInt8) (buffer : ℕ) {s : State} (hdrive : ¬ drive > 1)
    (hready : (ataWaitBsy ports s).1 = false) :
    let call := ataReadSectors ports drive lba numSectors buffer s
    Addressed registers drive lba numSectors call.1 (s.since call.2) ↔
      drive = 0 ∧ lba.toNat < 2 ^ 24 ∧ numSectors ≠ 0 := by
  obtain ⟨wait, t, hstarted⟩ :=
    ataReadSectors_of_ready ports drive lba numSectors buffer s hdrive hready
  obtain ⟨_, hwait⟩ := hstarted.waited
  obtain ⟨_, -, ht⟩ := hstarted.transfer
  intro call
  have hissued : issued registers (s.since call.2) = [sentRequest lba numSectors] := by
    rw [hstarted.accesses, List.append_assoc, issued_reads registers hwait.only_reads,
      issued_commandBytes registers lba numSectors ht.only_reads]
  constructor
  · intro h
    rw [← sentRequest_eq_iff]
    exact h.requested _ (by rw [hissued]; exact List.mem_singleton_self _)
  · intro h
    constructor
    · rw [hissued]
      exact List.forall_mem_singleton.2 (sentRequest_eq_iff.2 h)
    · obtain ⟨rfl, hlba, hcount⟩ := h
      rintro (hlarge | hlarge | hzero)
      · exact absurd hlarge (by decide)
      · omega
      · exact absurd hzero hcount

/-- A call asks for the sectors it was given exactly when it sends no command, because there is
no such drive or it stays busy, or when the first drive is asked for some sectors below 2^24. -/
theorem addressed_iff (registers : UInt16 → UInt8) (drive : UInt8) (lba : UInt64)
    (numSectors : UInt8) (buffer : ℕ) (s : State) :
    let call := ataReadSectors ports drive lba numSectors buffer s
    Addressed registers drive lba numSectors call.1 (s.since call.2) ↔
      drive > 1 ∨ BusyFor ports 100000 s.trace ∨
        drive = 0 ∧ lba.toNat < 2 ^ 24 ∧ numSectors ≠ 0 := by
  intro call
  rw [← poll_timedOut_iff]
  by_cases hdrive : drive > 1 ∨ (ataWaitBsy ports s).1 = true
  · obtain ⟨hfalse, hcall⟩ :=
      ataReadSectors_of_refused ports drive lba numSectors buffer s hdrive
    have hnone := issued_reads registers hcall.only_reads []
    rw [List.append_nil] at hnone
    refine iff_of_true ⟨?_, fun _ => ⟨hfalse, hnone⟩⟩ (hdrive.imp_right .inl)
    rw [hnone]
    exact nofun
  · obtain ⟨hone, hready⟩ := not_or.1 hdrive
    have hiff := addressed_iff_of_ready ports registers lba numSectors buffer hone
      (Bool.eq_false_iff.2 hready)
    rw [or_iff_right hone]
    exact hiff.trans (or_iff_right hready).symm

/-- Ports of a drive that is always ready. -/
def readyPorts : Ports := ⟨fun _ => 0x58, fun _ => 0⟩

/-- The first sector of the second drive is read from the first one. -/
theorem not_addressed_secondDrive :
    let s : State := ⟨[], fun _ => 0⟩
    let call := ataReadSectors readyPorts 1 0 1 0x1000 s
    ¬ Addressed (fun _ => 0) 1 0 1 call.1 (s.since call.2) := by
  intro s call haddressed
  have hready : (ataWaitBsy readyPorts s).1 = false := by
    rw [ataWaitBsy, poll, if_pos (by decide : notBusy (readyPorts.status s.trace) = true)]
  have hzero : (1 : UInt8) = 0 :=
    ((addressed_iff_of_ready readyPorts _ 0 1 0x1000 (by decide) hready).1 haddressed).1
  exact absurd hzero (by decide)

end Orionis.Ata
