import Orionis.Virtio.Pci

/-!
# The layout of the base address registers

Which register a base address register is depends on all the registers before it. The loop of
`virtio_net_init` takes every register with bit 2 for the lower half of a 64-bit base address; PCI
has bit 2 mean that only where bit 1 and bit 0 are clear, as the code above the loop tests for the
first register. The two walks come to the same base addresses exactly when no register with bit 2
is anything else, but for a reserved type in front of an empty register.
-/

namespace Orionis.Virtio

variable (env : Env)

/-! ## The layout -/

/-- A base address register by its type bits. -/
inductive BarKind
  | io
  | memory64
  | memory
  deriving DecidableEq, Repr

/-- The kind of a register: bit 0, then the type in bits 2 and 1. -/
def barKind (val : UInt32) : BarKind :=
  if val &&& 0x1 ≠ 0 then .io else if val &&& 0x6 = 0x4 then .memory64 else .memory

/-- The base address of register `i`, none for an I/O register. -/
def layoutBase (i : ℕ) : Option UInt64 :=
  match barKind (barVal env i) with
  | .io => none
  | .memory64 => some (((barVal env (i + 1)).toUInt64 <<< 32) |||
      (barVal env i &&& 0xFFFFFFF0).toUInt64)
  | .memory => some (barVal env i &&& 0xFFFFFFF0).toUInt64

/-- The registers that begin a base address, from register `i` on, where the one at `i` takes
`width i` registers. -/
def slotsFrom (width : ℕ → ℕ) : (fuel i : ℕ) → List ℕ
  | 0, _ => []
  | fuel + 1, i => if i < 6 then i :: slotsFrom width fuel (i + width i) else []

/-- How many registers the base address in register `i` takes. -/
def layoutWidth (i : ℕ) : ℕ := if barKind (barVal env i) = .memory64 then 2 else 1

/-- The base address registers. -/
def layoutSlots : List ℕ := slotsFrom (layoutWidth env) 6 0

/-- The offsets the loop reads in a round. -/
def barReads (i : ℕ) : List ℕ :=
  (0x10 + i * 4) :: if wideBar env i then [0x10 + (i + 1) * 4] else []

/-- The loop leaves the base address of every memory register, takes no register behind an I/O
register for an upper half, and reads none but the six registers. -/
structure AgreesWithLayout (bars : ℕ → Bar) : Prop where
  base : ∀ i ∈ layoutSlots env, ∀ base, layoutBase env i = some base → (bars i).base = base
  io : ∀ i ∈ layoutSlots env, layoutBase env i = none → i ∈ ownSlots env → ¬ wideBar env i
  inside : ∀ i ∈ ownSlots env, ∀ offset ∈ barReads env i, offset ≤ 0x27

/-! ## The condition -/

/-- What the loop takes for a 64-bit base address is one, with its upper half among the registers;
or it is of the reserved type, and an empty register comes next, the slot of which is zero
already. -/
def WideFits (before : ℕ → Bar) (i : ℕ) : Prop :=
  wideBar env i → i < 5 ∧ barVal env i &&& 0x1 = 0 ∧
    (barVal env i &&& 0x2 ≠ 0 → barVal env (i + 1) = 0 ∧ (before (i + 1)).base = 0)

variable {env}

/-! ## Bits -/

/-- The low three bits tell the kinds apart. -/
theorem lowBits_cases {p : UInt32 → Prop} (h : ∀ n < 8, p (UInt32.ofNat n)) (x : UInt32) :
    p (x &&& 0x7) := by
  have hle : (x &&& 0x7).toNat < 8 := by
    rw [UInt32.toNat_and]
    exact Nat.lt_succ_of_le Nat.and_le_right
  have hx := h _ hle
  rwa [UInt32.ofNat_toNat] at hx

/-- With bit 2 set, the type is that of a 64-bit address when bit 1 is clear. -/
theorem and_six_iff_of_wide {x : UInt32} (h : x &&& 0x4 = 0x4) :
    x &&& 0x6 = 0x4 ↔ x &&& 0x2 = 0 := by
  have hall := lowBits_cases (p := fun y => y &&& 0x4 = 0x4 → (y &&& 0x6 = 0x4 ↔ y &&& 0x2 = 0))
    (by decide) x
  rw [UInt32.and_assoc, UInt32.and_assoc, UInt32.and_assoc] at hall
  exact hall h

/-- With bit 2 clear, it is not. -/
theorem and_six_ne_of_not_wide {x : UInt32} (h : ¬ x &&& 0x4 = 0x4) : x &&& 0x6 ≠ 0x4 := by
  have hall := lowBits_cases (p := fun y => ¬ y &&& 0x4 = 0x4 → y &&& 0x6 ≠ 0x4) (by decide) x
  rw [UInt32.and_assoc, UInt32.and_assoc] at hall
  exact hall h

/-- An upper half that makes no difference is zero. -/
theorem eq_zero_of_upper {high low : UInt32}
    (h : (high.toUInt64 <<< 32) ||| low.toUInt64 = low.toUInt64) : high = 0 := by
  have hhigh := high.toNat_lt
  have hlow := low.toNat_lt
  have hnat := congrArg UInt64.toNat h
  rw [UInt64.toNat_or, UInt64.toNat_shiftLeft, UInt32.toNat_toUInt64, UInt32.toNat_toUInt64] at hnat
  change (high.toNat <<< 32) % 2 ^ 64 ||| low.toNat = low.toNat at hnat
  rw [Nat.mod_eq_of_lt (by rw [Nat.shiftLeft_eq]; omega), ← Nat.shiftLeft_add_eq_or_of_lt hlow,
    Nat.shiftLeft_eq] at hnat
  apply UInt32.toNat_inj.1
  change high.toNat = 0
  omega

/-! ## Slots -/

/-- How many registers the loop goes on by. -/
def loopWidth (env : Env) (i : ℕ) : ℕ := if wideBar env i then 2 else 1

/-- The slots the loop fills, by its steps. -/
theorem barSlots_eq_slotsFrom (fuel i : ℕ) :
    barSlots env fuel i = slotsFrom (loopWidth env) fuel i := by
  induction fuel generalizing i with
  | zero => rfl
  | succ fuel ih =>
    rw [barSlots, slotsFrom, loopWidth]
    split
    · split
      · rw [ih]
      · rw [ih]
    · rfl

variable {width : ℕ → ℕ}

/-- More fuel than there are registers adds no slot. -/
theorem slotsFrom_succ {fuel i : ℕ} (h : 6 ≤ i + fuel) (hwidth : ∀ i, 0 < width i) :
    slotsFrom width (fuel + 1) i = slotsFrom width fuel i := by
  induction fuel generalizing i with
  | zero => rw [slotsFrom, slotsFrom, if_neg (by omega)]
  | succ fuel ih =>
    have hpos := hwidth i
    rw [slotsFrom, ih (by omega)]
    rfl

/-- A register and the ones behind its base address. -/
theorem slotsFrom_of_lt {i : ℕ} (hi : i < 6) (hwidth : ∀ i, 0 < width i) :
    slotsFrom width 6 i = i :: slotsFrom width 6 (i + width i) := by
  have hpos := hwidth i
  rw [slotsFrom, if_pos hi]
  exact congrArg (i :: ·) (slotsFrom_succ (by omega) hwidth).symm

/-- Behind the last register there are no slots. -/
theorem slotsFrom_of_le {i : ℕ} (hi : 6 ≤ i) : slotsFrom width 6 i = [] := if_neg (by omega)

/-- Slots lie at or behind the register they are counted from. -/
theorem le_of_mem_slotsFrom {fuel i j : ℕ} (h : j ∈ slotsFrom width fuel i) : i ≤ j := by
  induction fuel generalizing i with
  | zero => exact absurd h List.not_mem_nil
  | succ fuel ih =>
    rw [slotsFrom] at h
    split at h
    · rcases List.mem_cons.1 h with rfl | hrest
      · exact le_rfl
      · exact (Nat.le_add_right i _).trans (ih hrest)
    · exact absurd h List.not_mem_nil

/-! ## Main result -/

/-- The loop moves on. -/
theorem loopWidth_pos (i : ℕ) : 0 < loopWidth env i := by
  rw [loopWidth]
  split <;> decide

/-- So does the layout. -/
theorem layoutWidth_pos (i : ℕ) : 0 < layoutWidth env i := by
  rw [layoutWidth]
  split <;> decide

/-- A register of I/O space has no memory address. -/
theorem layoutBase_io {i : ℕ} (hio : barVal env i &&& 0x1 ≠ 0) : layoutBase env i = none := by
  rw [layoutBase, barKind, if_pos hio]

/-- A 64-bit address takes its upper half from the next register. -/
theorem layoutBase_memory64 {i : ℕ} (hio : barVal env i &&& 0x1 = 0)
    (htype : barVal env i &&& 0x6 = 0x4) : layoutBase env i =
      some (((barVal env (i + 1)).toUInt64 <<< 32) |||
        (barVal env i &&& 0xFFFFFFF0).toUInt64) := by
  rw [layoutBase, barKind, if_neg (not_not.2 hio), if_pos htype]

/-- Any other memory address is that of one register. -/
theorem layoutBase_memory {i : ℕ} (hio : barVal env i &&& 0x1 = 0)
    (htype : barVal env i &&& 0x6 ≠ 0x4) :
    layoutBase env i = some (barVal env i &&& 0xFFFFFFF0).toUInt64 := by
  rw [layoutBase, barKind, if_neg (not_not.2 hio), if_neg htype]

/-- A 64-bit address takes two registers. -/
theorem layoutWidth_memory64 {i : ℕ} (hio : barVal env i &&& 0x1 = 0)
    (htype : barVal env i &&& 0x6 = 0x4) : layoutWidth env i = 2 := by
  rw [layoutWidth, barKind, if_neg (not_not.2 hio), if_pos htype]
  rfl

/-- Every other type takes one. -/
theorem layoutWidth_of_ne {i : ℕ} (htype : barVal env i &&& 0x6 ≠ 0x4) :
    layoutWidth env i = 1 := by
  rw [layoutWidth, barKind, if_neg htype]
  split <;> rfl

/-- What the loop leaves at a register is what the layout asks for. -/
structure SlotAgrees (env : Env) (bars : ℕ → Bar) (i : ℕ) : Prop where
  base : ∀ base, layoutBase env i = some base → (bars i).base = base
  io : layoutBase env i = none → i ∈ ownSlots env → ¬ wideBar env i

/-- A register the loop comes to: where bit 2 is clear nothing can go wrong. -/
theorem slotAgrees_of_not_wide {bars : ℕ → Bar} {i : ℕ} (hwide : ¬ wideBar env i)
    (hbars : (bars i).base = barBase env i) : SlotAgrees env bars i := by
  have htype : barVal env i &&& 0x6 ≠ 0x4 := and_six_ne_of_not_wide hwide
  refine ⟨fun base hbase => ?_, fun _ _ => hwide⟩
  have hio : barVal env i &&& 0x1 = 0 := by
    by_contra hio
    exact absurd ((layoutBase_io hio).symm.trans hbase) nofun
  rw [layoutBase_memory hio htype] at hbase
  rw [hbars, barBase, if_neg hwide]
  exact Option.some.inj hbase

/-- A 64-bit base address that the loop takes for one. -/
theorem slotAgrees_of_memory64 {bars : ℕ → Bar} {i : ℕ} (hwide : wideBar env i)
    (hio : barVal env i &&& 0x1 = 0) (htype : barVal env i &&& 0x6 = 0x4)
    (hbars : (bars i).base = barBase env i) : SlotAgrees env bars i := by
  have hlayout := layoutBase_memory64 hio htype
  constructor
  · intro base hbase
    rw [hbars, barBase, if_pos hwide]
    exact Option.some.inj (hlayout.symm.trans hbase)
  · intro hnone
    exact absurd (hlayout.symm.trans hnone) nofun

/-- The loop reads behind the registers when the last one says that it is wide. -/
theorem barReads_le_iff {i : ℕ} (hi : i < 6) :
    (∀ offset ∈ barReads env i, offset ≤ 0x27) ↔ (wideBar env i → i < 5) := by
  rw [barReads, List.forall_mem_cons]
  split
  · next hwide =>
    rw [List.forall_mem_singleton]
    constructor
    · intro h _
      omega
    · intro h
      have hlt := h hwide
      omega
  · next hwide => exact iff_of_true ⟨by omega, nofun⟩ fun h => absurd h hwide

/-- From register `i` on, the loop comes to what its walk from there comes to. -/
def Sync (env : Env) (i : ℕ) : Prop :=
  ∀ k, i ≤ k → (k ∈ ownSlots env ↔ k ∈ slotsFrom (loopWidth env) 6 i)

/-- The loop and its walk begin with the first register. -/
theorem sync_zero : Sync env 0 := fun k _ => by rw [ownSlots, barSlots_eq_slotsFrom]

/-- A register where both are in step is one the loop fills. -/
theorem Sync.mem {i : ℕ} (h : Sync env i) (hi : i < 6) : i ∈ ownSlots env := by
  rw [h i le_rfl, slotsFrom_of_lt hi loopWidth_pos]
  exact List.mem_cons_self

/-- They agree from the next register on that the loop comes to. -/
theorem Sync.next {i : ℕ} (h : Sync env i) (hi : i < 6) : Sync env (i + loopWidth env i) := by
  intro k hk
  have hpos := @loopWidth_pos env i
  rw [h k (by omega), slotsFrom_of_lt hi loopWidth_pos, List.mem_cons]
  exact or_iff_right (by omega)

/-- The upper half of a base address is left out. -/
theorem Sync.not_mem {i : ℕ} (h : Sync env i) (hi : i < 6) (hwide : wideBar env i) :
    i + 1 ∉ ownSlots env := by
  rw [h (i + 1) (by omega), slotsFrom_of_lt hi loopWidth_pos, loopWidth, if_pos hwide,
    List.mem_cons]
  rintro (heq | hmem)
  · omega
  · have hle := le_of_mem_slotsFrom hmem
    omega

/-- The reserved type: the layout has one register where the loop has two. -/
theorem reserved_iff {bars before : ℕ → Bar} {i : ℕ} (hwide : wideBar env i)
    (hio : barVal env i &&& 0x1 = 0) (htype : barVal env i &&& 0x6 ≠ 0x4)
    (hbars : (bars i).base = barBase env i) (hnext : (bars (i + 1)).base = (before (i + 1)).base) :
    SlotAgrees env bars i ∧ SlotAgrees env bars (i + 1) ↔
      barVal env (i + 1) = 0 ∧ (before (i + 1)).base = 0 := by
  have hlayout := layoutBase_memory hio htype
  rw [barBase, if_pos hwide] at hbars
  have hempty : barVal env (i + 1) = 0 → layoutBase env (i + 1) = some 0 := by
    intro hzero
    rw [layoutBase_memory (by rw [hzero]; decide) (by rw [hzero]; decide), hzero]
    rfl
  constructor
  · rintro ⟨hfirst, hsecond⟩
    have hzero : barVal env (i + 1) = 0 :=
      eq_zero_of_upper (hbars.symm.trans (hfirst.base _ hlayout))
    exact ⟨hzero, hnext.symm.trans (hsecond.base 0 (hempty hzero))⟩
  · rintro ⟨hzero, hbefore⟩
    refine ⟨⟨fun base hbase => ?_, fun hnone => absurd (hlayout.symm.trans hnone) nofun⟩,
      ⟨fun base hbase => ?_, fun hnone => absurd ((hempty hzero).symm.trans hnone) nofun⟩⟩
    · have hlow := Option.some.inj (hlayout.symm.trans hbase)
      rw [hbars, hzero, ← hlow]
      exact UInt64.zero_or
    · have hlow := Option.some.inj ((hempty hzero).symm.trans hbase)
      rw [hnext, hbefore, hlow]

/-- The registers from `i` on agree with the layout exactly when they fit. -/
def AgreesFrom (env : Env) (bars before : ℕ → Bar) (i : ℕ) : Prop :=
  ((∀ k ∈ slotsFrom (layoutWidth env) 6 i, SlotAgrees env bars k) ∧
      ∀ k ∈ slotsFrom (loopWidth env) 6 i, ∀ offset ∈ barReads env k, offset ≤ 0x27) ↔
    ∀ k ∈ slotsFrom (layoutWidth env) 6 i, WideFits env before k

/-- Behind the last register there is nothing to agree on. -/
theorem agreesFrom_of_le {bars before : ℕ → Bar} {i : ℕ} (hi : 6 ≤ i) :
    AgreesFrom env bars before i := by
  rw [AgreesFrom, slotsFrom_of_le hi, slotsFrom_of_le hi]
  exact iff_of_true ⟨nofun, nofun⟩ nofun

section Register

variable {bars before : ℕ → Bar} {i : ℕ} (hi : i < 6)

include hi

/-- Both walks come to register `i`. -/
theorem agreesFrom_iff_of_lt : AgreesFrom env bars before i ↔
    ((SlotAgrees env bars i ∧
        ∀ k ∈ slotsFrom (layoutWidth env) 6 (i + layoutWidth env i), SlotAgrees env bars k) ∧
      (wideBar env i → i < 5) ∧
        (∀ k ∈ slotsFrom (loopWidth env) 6 (i + loopWidth env i), ∀ offset ∈ barReads env k,
          offset ≤ 0x27) ↔
      WideFits env before i ∧
        ∀ k ∈ slotsFrom (layoutWidth env) 6 (i + layoutWidth env i), WideFits env before k) := by
  rw [AgreesFrom, slotsFrom_of_lt hi layoutWidth_pos, slotsFrom_of_lt hi loopWidth_pos]
  simp only [List.forall_mem_cons, barReads_le_iff hi]

/-- Where both walks go on by as many registers, register `i` stands for itself. -/
theorem agreesFrom_of_same (hwidth : layoutWidth env i = loopWidth env i)
    (hslot : SlotAgrees env bars i ∧ (wideBar env i → i < 5) ↔ WideFits env before i)
    (hrest : AgreesFrom env bars before (i + loopWidth env i)) : AgreesFrom env bars before i := by
  rw [AgreesFrom] at hrest
  rw [agreesFrom_iff_of_lt hi, hwidth, ← hrest, and_and_and_comm]
  exact and_congr_left' hslot

/-- A register of 32 bits agrees when its address is stored. -/
theorem agreesFrom_of_not_wide (hwide : ¬ wideBar env i) (hstored : (bars i).base = barBase env i)
    (hrest : AgreesFrom env bars before (i + loopWidth env i)) : AgreesFrom env bars before i := by
  have htype : barVal env i &&& 0x6 ≠ 0x4 := and_six_ne_of_not_wide hwide
  have hloop : loopWidth env i = 1 := if_neg hwide
  have hagrees := slotAgrees_of_not_wide hwide hstored
  apply agreesFrom_of_same hi ((layoutWidth_of_ne htype).trans hloop.symm) _ hrest
  exact iff_of_true ⟨hagrees, fun h => absurd h hwide⟩ fun h => absurd h hwide

/-- An I/O register that the loop takes for a 64-bit one. -/
theorem agreesFrom_of_io (hwide : wideBar env i) (hio : barVal env i &&& 0x1 ≠ 0)
    (hown : i ∈ ownSlots env) : AgreesFrom env bars before i := by
  rw [agreesFrom_iff_of_lt hi]
  constructor
  · intro h
    exact absurd hwide (h.1.1.io (layoutBase_io hio) hown)
  · intro h
    exact absurd (h.1 hwide).2.1 hio

/-- A register of 64 bits agrees when its address is stored. -/
theorem agreesFrom_of_memory64 (hwide : wideBar env i) (hio : barVal env i &&& 0x1 = 0)
    (htype : barVal env i &&& 0x6 = 0x4) (hstored : (bars i).base = barBase env i)
    (hrest : AgreesFrom env bars before (i + loopWidth env i)) : AgreesFrom env bars before i := by
  have hbit : barVal env i &&& 0x2 = 0 := (and_six_iff_of_wide hwide).1 htype
  have hloop : loopWidth env i = 2 := if_pos hwide
  have hagrees := slotAgrees_of_memory64 hwide hio htype hstored
  apply agreesFrom_of_same hi ((layoutWidth_memory64 hio htype).trans hloop.symm) _ hrest
  constructor
  · intro h _
    exact ⟨h.2 hwide, hio, fun hne => absurd hbit hne⟩
  · intro h
    exact ⟨hagrees, fun _ => (h hwide).1⟩

/-- The reserved type, which the layout follows by one register and the loop by two. -/
theorem agreesFrom_of_reserved (hwide : wideBar env i) (hio : barVal env i &&& 0x1 = 0)
    (htype : barVal env i &&& 0x6 ≠ 0x4) (hstored : (bars i).base = barBase env i)
    (hskipped : (bars (i + 1)).base = (before (i + 1)).base)
    (hrest : AgreesFrom env bars before (i + loopWidth env i)) : AgreesFrom env bars before i := by
  have hbit : barVal env i &&& 0x2 ≠ 0 := mt (and_six_iff_of_wide hwide).2 htype
  have hloop : loopWidth env i = 2 := if_pos hwide
  have hpair := reserved_iff hwide hio htype hstored hskipped
  rw [agreesFrom_iff_of_lt hi, layoutWidth_of_ne htype, hloop]
  rw [hloop, AgreesFrom] at hrest
  rcases Nat.lt_or_ge i 5 with hlast | hlast
  swap
  · refine iff_of_false (fun h => ?_) fun h => ?_
    · exact absurd (h.2.1 hwide) (by omega)
    · exact absurd (h.1 hwide).1 (by omega)
  rw [slotsFrom_of_lt (by omega : i + 1 < 6) layoutWidth_pos]
  simp only [List.forall_mem_cons]
  by_cases hempty : barVal env (i + 1) = 0 ∧ (before (i + 1)).base = 0
  · have hplain : barVal env (i + 1) &&& 0x6 ≠ 0x4 := by rw [hempty.1]; decide
    have hnarrow : ¬ wideBar env (i + 1) := by rw [wideBar, hempty.1]; decide
    have hagrees := hpair.2 hempty
    rw [layoutWidth_of_ne hplain, ← hrest]
    constructor
    · rintro ⟨⟨-, -, hlayout⟩, -, hreads⟩
      exact ⟨fun _ => ⟨hlast, hio, fun _ => hempty⟩, fun h => absurd h hnarrow, hlayout, hreads⟩
    · rintro ⟨-, -, hlayout, hreads⟩
      exact ⟨⟨hagrees.1, hagrees.2, hlayout⟩, fun _ => hlast, hreads⟩
  · refine iff_of_false (fun h => ?_) fun h => ?_
    · exact absurd (hpair.1 ⟨h.1.1, h.1.2.1⟩) hempty
    · exact absurd ((h.1 hwide).2.2 hbit) hempty

end Register

/-- By induction on the registers left, where the loop has come to register `i`. -/
theorem agreesFrom_of_sync {bars before : ℕ → Bar}
    (hbars : ∀ k, (bars k).base = if k ∈ ownSlots env then barBase env k else (before k).base)
    (n : ℕ) {i : ℕ} (hn : 6 ≤ i + n) (hsync : Sync env i) : AgreesFrom env bars before i := by
  induction n generalizing i with
  | zero => exact agreesFrom_of_le hn
  | succ n ih =>
    rcases Nat.lt_or_ge i 6 with hi | hi
    swap
    · exact agreesFrom_of_le hi
    have hpos := @loopWidth_pos env i
    have hrest := ih (by omega) (hsync.next hi)
    have hown := hsync.mem hi
    have hstored : (bars i).base = barBase env i := by rw [hbars, if_pos hown]
    by_cases hwide : wideBar env i
    swap
    · exact agreesFrom_of_not_wide hi hwide hstored hrest
    by_cases hio : barVal env i &&& 0x1 = 0
    swap
    · exact agreesFrom_of_io hi hwide hio hown
    by_cases htype : barVal env i &&& 0x6 = 0x4
    · exact agreesFrom_of_memory64 hi hwide hio htype hstored hrest
    · have hskipped : (bars (i + 1)).base = (before (i + 1)).base := by
        rw [hbars, if_neg (hsync.not_mem hi hwide)]
      exact agreesFrom_of_reserved hi hwide hio htype hstored hskipped hrest

variable (env)

/-- The loop agrees with the layout exactly when everything it takes for a 64-bit base address
is one, or is reserved and makes no difference. -/
theorem agreesWithLayout_iff (call : ℕ) (before : ℕ → Bar) :
    AgreesWithLayout env (readBars env call 6 0 before) ↔
      ∀ i ∈ layoutSlots env, WideFits env before i := by
  have hbars : ∀ k, (readBars env call 6 0 before k).base =
      if k ∈ ownSlots env then barBase env k else (before k).base := by
    intro k
    rw [readBars_apply, ownSlots]
    split <;> rfl
  have hown : ownSlots env = slotsFrom (loopWidth env) 6 0 := barSlots_eq_slotsFrom 6 0
  have hfrom := agreesFrom_of_sync hbars 6 le_rfl sync_zero
  rw [AgreesFrom, ← hown] at hfrom
  rw [layoutSlots, ← hfrom]
  constructor
  · intro h
    exact ⟨fun i hi => ⟨h.base i hi, h.io i hi⟩, h.inside⟩
  · intro h
    exact ⟨fun i hi => (h.1 i hi).base, fun i hi => (h.1 i hi).io, h.2⟩

/-- A function whose first register is an I/O register with bit 2 set. -/
def ioFirst : Env where
  config := fun i => if i = 4 then 0xC005 else if i = 5 then 0xFEBC0000 else 0
  reply := fun _ => 0
  alloc := fun _ => 0

/-- The memory register behind it is lost. -/
theorem not_agreesWithLayout_ioFirst :
    ¬ AgreesWithLayout ioFirst (readBars ioFirst 1 6 0 fun _ => ⟨0, 0⟩) := by
  intro h
  have hbase := h.base 1 (by decide) 0xFEBC0000 (by decide)
  exact absurd hbase (by decide)

end Orionis.Virtio
