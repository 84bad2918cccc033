import Mathlib.Data.List.Pairwise
import Mathlib.Data.Nat.Bitwise
import Mathlib.Tactic.Ring

/-!
# The scan of the PCI bus

`pci_scan_bus` asks every function of every device for its vendor and hands the ones that
answer to a callback. The configuration space is a function of the double word that selects a
register. The scan finds every function there is, each once and in order, but it stops before
the last bus.

The output to the console is left out, and with it the class of a device, which is read for the
output only.
-/

namespace Orionis.Pci

/-! ## The source -/

/-- `pci_get_address`. -/
def pciGetAddress (bus device function offset : UInt8) : UInt32 :=
  (bus.toUInt32 <<< 16) ||| (device.toUInt32 <<< 11) ||| (function.toUInt32 <<< 8) |||
    (offset &&& 0xFC).toUInt32 ||| 0x80000000

/-- `pci_read_dword`. -/
def pciReadDword (config : UInt32 → UInt32) (bus device function offset : UInt8) : UInt32 :=
  config (pciGetAddress bus device function offset)

/-- A call of the callback. -/
structure Found where
  bus : UInt8
  device : UInt8
  function : UInt8
  vendorId : UInt16
  deviceId : UInt16
  deriving DecidableEq, Repr

variable (config : UInt32 → UInt32)

/-- `vendor_id`, from the first double word of a function. -/
def vendorId (bus device function : UInt8) : UInt16 :=
  (pciReadDword config bus device function 0 &&& 0xFFFF).toUInt16

/-- `device_id`, from the same double word. -/
def deviceId (bus device function : UInt8) : UInt16 :=
  ((pciReadDword config bus device function 0 >>> 16) &&& 0xFFFF).toUInt16

/-- `pci_check_function`: its calls of a callback that is not null. -/
def pciCheckFunction (bus device function : UInt8) : List Found :=
  if vendorId config bus device function = 0xFFFF then []
  else [⟨bus, device, function, vendorId config bus device function,
    deviceId config bus device function⟩]

/-- `header_type`. -/
def headerType (bus device : UInt8) : UInt8 :=
  ((pciReadDword config bus device 0 0x0C >>> 16) &&& 0xFF).toUInt8

/-- `pci_check_device`. -/
def pciCheckDevice (bus device : UInt8) : List Found :=
  if vendorId config bus device 0 = 0xFFFF then []
  else if headerType config bus device &&& 0x80 ≠ 0 then
    (List.range 8).flatMap fun function =>
      pciCheckFunction config bus device (UInt8.ofNat function)
  else pciCheckFunction config bus device 0

/-- `pci_scan_bus`. -/
def pciScanBus : List Found :=
  (List.range 255).flatMap fun bus => (List.range 32).flatMap fun device =>
    pciCheckDevice config (UInt8.ofNat bus) (UInt8.ofNat device)

/-! ## The functions there are -/

/-- The double word of a function that lies at an offset, by the fields of its address. -/
def dword (bus device function offset : ℕ) : ℕ :=
  (config (UInt32.ofNat (2 ^ 31 + bus * 2 ^ 16 + device * 2 ^ 11 + function * 2 ^ 8 + offset))).toNat

/-- A function answers. -/
def Answers (bus device function : ℕ) : Prop := dword config bus device function 0 % 2 ^ 16 ≠ 0xFFFF

instance (bus device function : ℕ) : Decidable (Answers config bus device function) :=
  inferInstanceAs (Decidable (_ ≠ _))

/-- Bit 7 of the header type. -/
def MultiFunction (bus device : ℕ) : Prop := (dword config bus device 0 0x0C).testBit 23

/-- The function of a device that function 0 makes known answers. -/
structure Present (bus device function : ℕ) : Prop where
  device_lt : device < 32
  function_lt : function < 8
  known : Answers config bus device 0
  reachable : function = 0 ∨ MultiFunction config bus device
  answers : Answers config bus device function

/-- The order of buses, devices and functions. -/
def Found.Before (f g : Found) : Prop :=
  f.bus < g.bus ∨ f.bus = g.bus ∧
    (f.device < g.device ∨ f.device = g.device ∧ f.function < g.function)

/-- The ids of the call are those of its function. -/
structure Found.HasIds (f : Found) : Prop where
  vendor : f.vendorId.toNat = dword config f.bus.toNat f.device.toNat f.function.toNat 0 % 2 ^ 16
  device : f.deviceId.toNat = dword config f.bus.toNat f.device.toNat f.function.toNat 0 / 2 ^ 16

/-- The callback is called for every function there is and for no other, once each, in order
and with the ids of the function. -/
structure VisitsPresent (calls : List Found) : Prop where
  ordered : calls.Pairwise Found.Before
  visited : ∀ f, f ∈ calls ↔
    Present config f.bus.toNat f.device.toNat f.function.toNat ∧ f.HasIds config

variable {config}

/-! ## Addresses -/

/-- A field below the bits of another one. -/
theorem or_field {a b k : ℕ} (h : b < 2 ^ k) : a * 2 ^ k ||| b = a * 2 ^ k + b := by
  rw [← Nat.shiftLeft_eq, ← Nat.shiftLeft_add_eq_or_of_lt h]

/-- A field of a byte in its place of the address. -/
theorem toNat_shiftLeft_field (x : UInt8) {k : UInt32} (hk : k.toNat ≤ 24) :
    (x.toUInt32 <<< k).toNat = x.toNat * 2 ^ k.toNat := by
  have hx := x.toNat_lt
  have hpow : 2 ^ k.toNat ≤ 2 ^ 24 := Nat.pow_le_pow_right (by decide) hk
  have hlt : x.toNat * 2 ^ k.toNat < 2 ^ 8 * 2 ^ 24 :=
    Nat.mul_lt_mul_of_lt_of_le hx hpow (Nat.two_pow_pos _)
  rw [UInt32.toNat_shiftLeft, UInt8.toNat_toUInt32, Nat.mod_eq_of_lt (by omega : k.toNat < 32),
    Nat.shiftLeft_eq]
  exact Nat.mod_eq_of_lt hlt

/-- The fields of an address, from the lowest to the highest. -/
theorem address_fields {bus device function offset : ℕ} (hbus : bus < 2 ^ 8) (hdevice : device < 32)
    (hfunction : function < 8) (hoffset : offset < 2 ^ 8) :
    bus * 2 ^ 16 ||| device * 2 ^ 11 ||| function * 2 ^ 8 ||| offset ||| 1 * 2 ^ 31 =
      2 ^ 31 + bus * 2 ^ 16 + device * 2 ^ 11 + function * 2 ^ 8 + offset := by
  have hgroup : bus * 2 ^ 16 + device * 2 ^ 11 = (bus * 2 ^ 5 + device) * 2 ^ 11 := by ring
  have hgroup' : (bus * 2 ^ 5 + device) * 2 ^ 11 + function * 2 ^ 8 =
      ((bus * 2 ^ 5 + device) * 2 ^ 3 + function) * 2 ^ 8 := by ring
  rw [or_field (by omega : device * 2 ^ 11 < 2 ^ 16), hgroup,
    or_field (by omega : function * 2 ^ 8 < 2 ^ 11), hgroup', or_field hoffset, Nat.or_comm,
    or_field (by omega)]
  ring

/-- The fields of an address do not overlap. -/
theorem pciGetAddress_eq {bus device function offset : UInt8} (hdevice : device.toNat < 32)
    (hfunction : function.toNat < 8) (hoffset : offset &&& 0xFC = offset) :
    pciGetAddress bus device function offset = UInt32.ofNat (2 ^ 31 + bus.toNat * 2 ^ 16 +
      device.toNat * 2 ^ 11 + function.toNat * 2 ^ 8 + offset.toNat) := by
  have hbus := bus.toNat_lt
  have hbyte := offset.toNat_lt
  apply UInt32.toNat_inj.1
  have hsum : (pciGetAddress bus device function offset).toNat =
      bus.toNat * 2 ^ 16 ||| device.toNat * 2 ^ 11 ||| function.toNat * 2 ^ 8 |||
        offset.toNat ||| 1 * 2 ^ 31 := by
    rw [pciGetAddress, hoffset]
    simp only [UInt32.toNat_or, UInt8.toNat_toUInt32]
    rw [toNat_shiftLeft_field _ (by decide), toNat_shiftLeft_field _ (by decide),
      toNat_shiftLeft_field _ (by decide)]
    rfl
  rw [hsum, address_fields hbus hdevice hfunction hbyte, UInt32.toNat_ofNat']
  exact (Nat.mod_eq_of_lt (by omega)).symm

/-- A read of configuration space gives the word of the function at the offset. -/
theorem pciReadDword_toNat {bus device function offset : UInt8} (hdevice : device.toNat < 32)
    (hfunction : function.toNat < 8) (hoffset : offset &&& 0xFC = offset) :
    (pciReadDword config bus device function offset).toNat =
      dword config bus.toNat device.toNat function.toNat offset.toNat := by
  rw [pciReadDword, pciGetAddress_eq hdevice hfunction hoffset, dword]

/-! ## The fields of a function -/

/-- The vendor is the lower half of the first word. -/
theorem vendorId_toNat {bus device function : UInt8} (hdevice : device.toNat < 32)
    (hfunction : function.toNat < 8) : (vendorId config bus device function).toNat =
      dword config bus.toNat device.toNat function.toNat 0 % 2 ^ 16 := by
  rw [vendorId, UInt32.toNat_toUInt16, UInt32.toNat_and,
    pciReadDword_toNat hdevice hfunction (by decide)]
  change (_ &&& (2 ^ 16 - 1)) % 2 ^ 16 = _
  rw [Nat.and_two_pow_sub_one_eq_mod, Nat.mod_mod]
  rfl

/-- The device number is the upper half of the first word. -/
theorem deviceId_toNat {bus device function : UInt8} (hdevice : device.toNat < 32)
    (hfunction : function.toNat < 8) : (deviceId config bus device function).toNat =
      dword config bus.toNat device.toNat function.toNat 0 / 2 ^ 16 := by
  have hlt : dword config bus.toNat device.toNat function.toNat 0 < 2 ^ 32 := UInt32.toNat_lt _
  rw [deviceId, UInt32.toNat_toUInt16, UInt32.toNat_and, UInt32.toNat_shiftRight,
    pciReadDword_toNat hdevice hfunction (by decide)]
  change (_ >>> 16 &&& (2 ^ 16 - 1)) % 2 ^ 16 = _
  rw [Nat.and_two_pow_sub_one_eq_mod, Nat.mod_mod, Nat.shiftRight_eq_div_pow]
  exact Nat.mod_eq_of_lt (by change dword config _ _ _ 0 / 2 ^ 16 < 2 ^ 16; omega)

/-- The test of the header type asks whether the device has several functions. -/
theorem headerType_iff {bus device : UInt8} (hdevice : device.toNat < 32) :
    headerType config bus device &&& 0x80 ≠ 0 ↔
      MultiFunction config bus.toNat device.toNat := by
  have hbyte : (headerType config bus device).toNat =
      dword config bus.toNat device.toNat 0 0x0C / 2 ^ 16 % 2 ^ 8 := by
    rw [headerType, UInt32.toNat_toUInt8, UInt32.toNat_and, UInt32.toNat_shiftRight,
      pciReadDword_toNat hdevice (by decide) (by decide)]
    change (_ >>> 16 &&& (2 ^ 8 - 1)) % 2 ^ 8 = _
    rw [Nat.and_two_pow_sub_one_eq_mod, Nat.mod_mod, Nat.shiftRight_eq_div_pow]
    rfl
  have hbit : (headerType config bus device &&& 0x80).toNat =
      ((headerType config bus device).toNat.testBit 7).toNat * 2 ^ 7 := by
    rw [UInt8.toNat_and]
    exact Nat.and_two_pow _ 7
  rw [ne_eq, ← UInt8.toNat_inj, hbit, hbyte, Nat.testBit_mod_two_pow, Nat.testBit_div_two_pow,
    MultiFunction]
  simp

/-- The test of the vendor asks whether the function answers. -/
theorem vendorId_eq_iff {bus device function : UInt8} (hdevice : device.toNat < 32)
    (hfunction : function.toNat < 8) : vendorId config bus device function = 0xFFFF ↔
      ¬ Answers config bus.toNat device.toNat function.toNat := by
  rw [Answers, ← vendorId_toNat hdevice hfunction, not_not]
  exact UInt16.toNat_inj.symm

/-! ## What the scan visits -/

/-- A function is found when it answers, once and with its own numbers. -/
theorem mem_pciCheckFunction {bus device function : UInt8} {f : Found}
    (hdevice : device.toNat < 32) (hfunction : function.toNat < 8) :
    f ∈ pciCheckFunction config bus device function ↔
      f.bus = bus ∧ f.device = device ∧ f.function = function ∧
        Answers config bus.toNat device.toNat function.toNat ∧ f.HasIds config := by
  have hanswers := @vendorId_eq_iff config bus device function hdevice hfunction
  have hvendor := @vendorId_toNat config bus device function hdevice hfunction
  have hid := @deviceId_toNat config bus device function hdevice hfunction
  rw [pciCheckFunction]
  by_cases hnone : vendorId config bus device function = 0xFFFF
  · rw [if_pos hnone]
    refine iff_of_false List.not_mem_nil fun hall => ?_
    exact hanswers.1 hnone hall.2.2.2.1
  · rw [if_neg hnone, List.mem_singleton]
    constructor
    · rintro rfl
      exact ⟨rfl, rfl, rfl, not_not.1 (mt hanswers.2 hnone), hvendor, hid⟩
    · rintro ⟨rfl, rfl, rfl, -, hids⟩
      have hv : f.vendorId = vendorId config f.bus f.device f.function :=
        UInt16.toNat_inj.1 (hids.vendor.trans hvendor.symm)
      have hd : f.deviceId = deviceId config f.bus f.device f.function :=
        UInt16.toNat_inj.1 (hids.device.trans hid.symm)
      rw [← hv, ← hd]

/-- One device: its functions that are there. -/
theorem mem_pciCheckDevice {bus device : UInt8} {f : Found} (hdevice : device.toNat < 32) :
    f ∈ pciCheckDevice config bus device ↔ f.bus = bus ∧ f.device = device ∧
      Present config bus.toNat device.toNat f.function.toNat ∧ f.HasIds config := by
  have hknown := @vendorId_eq_iff config bus device 0 hdevice (by decide)
  have hheader := @headerType_iff config bus device hdevice
  rw [pciCheckDevice]
  by_cases hnone : vendorId config bus device 0 = 0xFFFF
  · rw [if_pos hnone]
    refine iff_of_false List.not_mem_nil fun hall => ?_
    exact hknown.1 hnone hall.2.2.1.known
  have hfirst : Answers config bus.toNat device.toNat 0 := not_not.1 (mt hknown.2 hnone)
  rw [if_neg hnone]
  by_cases hmulti : headerType config bus device &&& 0x80 ≠ 0
  · rw [if_pos hmulti, List.mem_flatMap]
    constructor
    · rintro ⟨function, hmem, hf⟩
      have hlt := List.mem_range.1 hmem
      have hsame : (UInt8.ofNat function).toNat = function := by
        rw [UInt8.toNat_ofNat', Nat.mod_eq_of_lt (by omega)]
      obtain ⟨hbus, hdev, hfunction, hanswers, hids⟩ :=
        (mem_pciCheckFunction hdevice (by omega)).1 hf
      rw [hfunction]
      exact ⟨hbus, hdev, ⟨hdevice, by omega, hfirst, .inr (hheader.1 hmulti), hanswers⟩, hids⟩
    · rintro ⟨hbus, hdev, hpresent, hids⟩
      have hlt := hpresent.function_lt
      refine ⟨f.function.toNat, List.mem_range.2 hlt, ?_⟩
      rw [UInt8.ofNat_toNat]
      exact (mem_pciCheckFunction hdevice hlt).2 ⟨hbus, hdev, rfl, hpresent.answers, hids⟩
  · rw [if_neg hmulti, mem_pciCheckFunction hdevice (by decide)]
    constructor
    · rintro ⟨hbus, hdev, hfunction, hanswers, hids⟩
      rw [hfunction]
      exact ⟨hbus, hdev, ⟨hdevice, by decide, hfirst, .inl rfl, hanswers⟩, hids⟩
    · rintro ⟨hbus, hdev, hpresent, hids⟩
      have hzero := hpresent.reachable.resolve_right (mt hheader.2 hmulti)
      exact ⟨hbus, hdev, UInt8.toNat_inj.1 hzero, hfirst, hids⟩

/-- A loop counter of one byte does not wrap. -/
theorem toNat_ofNat_byte {n : ℕ} (h : n < 256) : (UInt8.ofNat n).toNat = n := by
  rw [UInt8.toNat_ofNat', Nat.mod_eq_of_lt h]

/-- The scan visits what there is on the buses before the last one. -/
theorem mem_pciScanBus {f : Found} : f ∈ pciScanBus config ↔ f.bus.toNat < 255 ∧
    Present config f.bus.toNat f.device.toNat f.function.toNat ∧ f.HasIds config := by
  simp only [pciScanBus, List.mem_flatMap, List.mem_range]
  constructor
  · rintro ⟨bus, hbus, device, hdevice, hf⟩
    rw [mem_pciCheckDevice (by rw [toNat_ofNat_byte (by omega)]; exact hdevice)] at hf
    obtain ⟨heq, hdev, hall⟩ := hf
    rw [← heq, ← hdev] at hall
    have hsame : f.bus.toNat = bus := by rw [heq, toNat_ofNat_byte (by omega)]
    exact ⟨by omega, hall⟩
  · rintro ⟨hbus, hall⟩
    refine ⟨f.bus.toNat, hbus, f.device.toNat, hall.1.device_lt, ?_⟩
    rw [UInt8.ofNat_toNat, UInt8.ofNat_toNat, mem_pciCheckDevice hall.1.device_lt]
    exact ⟨rfl, rfl, hall⟩

/-! ## The order -/

/-- A loop whose rounds are in order, and in order with each other. -/
theorem pairwise_loop {n : ℕ} {round : ℕ → List Found}
    (hround : ∀ i < n, (round i).Pairwise Found.Before)
    (hlater : ∀ i j, i < j → j < n → ∀ f ∈ round i, ∀ g ∈ round j, f.Before g) :
    ((List.range n).flatMap round).Pairwise Found.Before := by
  rw [List.pairwise_flatMap]
  refine ⟨fun i hi => hround i (List.mem_range.1 hi), ?_⟩
  apply List.pairwise_lt_range.imp_of_mem
  intro i j _ hj hlt
  exact hlater i j hlt (List.mem_range.1 hj)

/-- Loop counters of one byte are ordered as the numbers they stand for. -/
theorem ofNat_lt_ofNat {i j : ℕ} (hlt : i < j) (hj : j < 256) : UInt8.ofNat i < UInt8.ofNat j := by
  rw [UInt8.lt_iff_toNat_lt, toNat_ofNat_byte (by omega), toNat_ofNat_byte hj]
  exact hlt

/-- A function is found at most once. -/
theorem pairwise_pciCheckFunction (bus device function : UInt8) :
    (pciCheckFunction config bus device function).Pairwise Found.Before := by
  rw [pciCheckFunction]
  split
  · exact List.Pairwise.nil
  · exact List.pairwise_singleton _ _

/-- The functions of a device are found in their order. -/
theorem pairwise_pciCheckDevice {bus device : UInt8} (hdevice : device.toNat < 32) :
    (pciCheckDevice config bus device).Pairwise Found.Before := by
  rw [pciCheckDevice]
  split
  · exact List.Pairwise.nil
  split
  · refine pairwise_loop (fun i _ => pairwise_pciCheckFunction bus device _) ?_
    intro i j hlt hj f hf g hg
    have hi := toNat_ofNat_byte (by omega : i < 256)
    have hj' := toNat_ofNat_byte (by omega : j < 256)
    obtain ⟨hfbus, hfdev, hffun, -⟩ := (mem_pciCheckFunction hdevice (by omega)).1 hf
    obtain ⟨hgbus, hgdev, hgfun, -⟩ := (mem_pciCheckFunction hdevice (by omega)).1 hg
    refine .inr ⟨hfbus.trans hgbus.symm, .inr ⟨hfdev.trans hgdev.symm, ?_⟩⟩
    rw [hffun, hgfun]
    exact ofNat_lt_ofNat hlt (by omega)
  · exact pairwise_pciCheckFunction bus device 0

/-- The scan finds everything in order of bus, device and function, and nothing twice. -/
theorem pairwise_pciScanBus : (pciScanBus config).Pairwise Found.Before := by
  have hdev : ∀ {device : ℕ}, device < 32 → (UInt8.ofNat device).toNat < 32 := fun h => by
    rwa [toNat_ofNat_byte (by omega)]
  refine pairwise_loop (fun bus _ => pairwise_loop (fun device hdevice =>
    pairwise_pciCheckDevice (hdev hdevice)) ?_) ?_
  · intro i j hlt hj f hf g hg
    obtain ⟨hfbus, hfdev, -⟩ := (mem_pciCheckDevice (hdev (hlt.trans hj))).1 hf
    obtain ⟨hgbus, hgdev, -⟩ := (mem_pciCheckDevice (hdev hj)).1 hg
    refine .inr ⟨hfbus.trans hgbus.symm, .inl ?_⟩
    rw [hfdev, hgdev]
    exact ofNat_lt_ofNat hlt (by omega)
  · intro i j hlt hj f hf g hg
    obtain ⟨device, hdevice, hf⟩ := List.mem_flatMap.1 hf
    obtain ⟨device', hdevice', hg⟩ := List.mem_flatMap.1 hg
    obtain ⟨hfbus, -⟩ := (mem_pciCheckDevice (hdev (List.mem_range.1 hdevice))).1 hf
    obtain ⟨hgbus, -⟩ := (mem_pciCheckDevice (hdev (List.mem_range.1 hdevice'))).1 hg
    refine .inl ?_
    rw [hfbus, hgbus]
    exact ofNat_lt_ofNat hlt (by omega)

/-! ## Main result -/

/-- A device on the last bus is missed. -/
theorem not_visitsPresent_of_answers {device : ℕ} (hdevice : device < 32)
    (hanswers : Answers config 255 device 0) : ¬ VisitsPresent config (pciScanBus config) := by
  intro hvisits
  have hsame := toNat_ofNat_byte (by omega : device < 256)
  have hlt : (UInt8.ofNat device).toNat < 32 := by omega
  let f : Found := ⟨255, UInt8.ofNat device, 0, vendorId config 255 (UInt8.ofNat device) 0,
    deviceId config 255 (UInt8.ofNat device) 0⟩
  have hids : f.HasIds config :=
    ⟨vendorId_toNat hlt (by decide), deviceId_toNat hlt (by decide)⟩
  have hpresent : Present config 255 (UInt8.ofNat device).toNat 0 := by
    rw [hsame]
    exact ⟨hdevice, by decide, hanswers, .inl rfl, hanswers⟩
  have hbus : (255 : UInt8).toNat < 255 :=
    (mem_pciScanBus.1 ((hvisits.visited f).2 ⟨hpresent, hids⟩)).1
  exact absurd hbus (by decide)

/-- The scan calls the callback for every function there is, exactly when no device on the last
bus answers. -/
theorem visitsPresent_iff (config : UInt32 → UInt32) :
    VisitsPresent config (pciScanBus config) ↔ ∀ device < 32, ¬ Answers config 255 device 0 := by
  constructor
  · intro hvisits device hdevice hanswers
    exact not_visitsPresent_of_answers hdevice hanswers hvisits
  · intro hnone
    refine ⟨pairwise_pciScanBus, fun f => ?_⟩
    rw [mem_pciScanBus, and_iff_right_iff_imp]
    rintro ⟨hpresent, -⟩
    have hbus := f.bus.toNat_lt
    by_contra hlast
    have hlast : f.bus.toNat = 255 := by omega
    rw [hlast] at hpresent
    exact hnone _ hpresent.device_lt hpresent.known

/-- A configuration space with one device, on the last bus. -/
def lastBus (address : UInt32) : UInt32 := if address = 0x80FF0000 then 0x10001AF4 else 0xFFFFFFFF

/-- It is not visited. -/
theorem not_visitsPresent_lastBus : ¬ VisitsPresent lastBus (pciScanBus lastBus) :=
  not_visitsPresent_of_answers (by decide : 0 < 32) (by decide)

end Orionis.Pci
