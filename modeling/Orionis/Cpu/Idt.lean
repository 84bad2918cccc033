import Orionis.Cpu.Stubs

/-!
# The interrupt descriptor table

`idt_set_gate` takes the address of a stub apart, and the processor puts it together again. After
`init_idt` the vectors that have a stub lead to it, and no other vector has a gate.
-/

namespace Orionis.Cpu

open Orionis.Foundations

/-! ## The source -/

/-- `idt_set_gate`, the table being at `idt`. The fields of `idt_entry_t` are packed. -/
def idtSetGate (idt : ℕ) (m : Memory) (num : ℕ) (base : UInt64) (sel flags : ℕ) : Memory :=
  let e := idt + 16 * num
  let m := storeLE m 2 e (base &&& 0xFFFF).toNat
  let m := storeLE m 2 (e + 6) ((base >>> 16) &&& 0xFFFF).toNat
  let m := storeLE m 4 (e + 8) ((base >>> 32) &&& 0xFFFFFFFF).toNat
  let m := storeLE m 2 (e + 2) sel
  let m := storeLE m 1 (e + 4) 0
  let m := storeLE m 1 (e + 5) flags
  storeLE m 4 (e + 12) 0

/-- The vectors whose stubs the source declares. -/
def stubVectors : List ℕ := List.range 34 ++ [42, 43]

/-- The gates of `init_idt`. The stubs are at the addresses `isrs` gives. -/
def initIdt (idt : ℕ) (isrs : ℕ → UInt64) (m : Memory) : Memory :=
  stubVectors.foldl (fun m num => idtSetGate idt m num (isrs num) 0x08 0x8E) m

/-! ## The processor -/

/-- What the processor takes from a descriptor. -/
structure Gate where
  offset : UInt64
  sel : ℕ
  ist : ℕ
  attributes : ℕ
  deriving DecidableEq, Repr

/-- A descriptor in memory. -/
def readGate (idt : ℕ) (m : Memory) (vector : ℕ) : Gate where
  offset := UInt64.ofNat (loadLE m 2 (idt + 16 * vector) + 2 ^ 16 * loadLE m 2 (idt + 16 * vector + 6) +
    2 ^ 32 * loadLE m 4 (idt + 16 * vector + 8))
  sel := loadLE m 2 (idt + 16 * vector + 2)
  ist := loadLE m 1 (idt + 16 * vector + 4)
  attributes := loadLE m 1 (idt + 16 * vector + 5)

/-- The descriptor is present. -/
def Gate.present (g : Gate) : Bool := g.attributes.testBit 7

/-- The interrupt through the table: the gate, its stub and the way back, none without a gate. The
stub that lies at an offset is `code`. -/
def Processor.takeInterrupt (isrHandler : Processor → Processor) (code : UInt64 → List Instr) (idt : ℕ)
    (s : Processor) (vector : ℕ) (errCode : Option UInt64) : Option Processor :=
  let g := readGate idt s.mem vector
  if g.present then
    some ((s.deliver g.offset (UInt64.ofNat g.sel) errCode).run isrHandler (code g.offset))
  else none

variable {idt num vector : ℕ} {m m' : Memory} {base : UInt64} {sel flags : ℕ} {isrs : ℕ → UInt64}

/-! ## One gate -/

/-- The three parts of an address make the address. -/
theorem toNat_parts (base : UInt64) :
    (base &&& 0xFFFF).toNat % 256 ^ 2 + 2 ^ 16 * (((base >>> 16) &&& 0xFFFF).toNat % 256 ^ 2) +
      2 ^ 32 * (((base >>> 32) &&& 0xFFFFFFFF).toNat % 256 ^ 4) = base.toNat := by
  have hlt : base.toNat < 2 ^ 64 := base.toNat_lt
  have hlow : (base &&& 0xFFFF).toNat = base.toNat % 2 ^ 16 := by
    rw [UInt64.toNat_and]
    exact Nat.and_two_pow_sub_one_eq_mod base.toNat 16
  have hmid : ((base >>> 16) &&& 0xFFFF).toNat = base.toNat / 2 ^ 16 % 2 ^ 16 := by
    rw [UInt64.toNat_and, UInt64.toNat_shiftRight]
    exact (Nat.and_two_pow_sub_one_eq_mod _ 16).trans (by rw [Nat.shiftRight_eq_div_pow]; rfl)
  have hhigh : ((base >>> 32) &&& 0xFFFFFFFF).toNat = base.toNat / 2 ^ 32 % 2 ^ 32 := by
    rw [UInt64.toNat_and, UInt64.toNat_shiftRight]
    exact (Nat.and_two_pow_sub_one_eq_mod _ 32).trans (by rw [Nat.shiftRight_eq_div_pow]; rfl)
  rw [hlow, hmid, hhigh]
  omega

/-- A gate is its sixteen bytes. -/
theorem readGate_congr (h : ∀ x, idt + 16 * vector ≤ x → x < idt + 16 * vector + 16 → m x = m' x) :
    readGate idt m vector = readGate idt m' vector := by
  rw [readGate, readGate, loadLE_congr fun x hlo hhi => h x (by omega) (by omega),
    loadLE_congr fun x hlo hhi => h x (by omega) (by omega),
    loadLE_congr fun x hlo hhi => h x (by omega) (by omega),
    loadLE_congr fun x hlo hhi => h x (by omega) (by omega),
    loadLE_congr fun x hlo hhi => h x (by omega) (by omega),
    loadLE_congr fun x hlo hhi => h x (by omega) (by omega)]

/-- A gate is written within its descriptor. -/
theorem idtSetGate_of_outside {x : ℕ} (hx : x < idt + 16 * num ∨ idt + 16 * num + 16 ≤ x) :
    idtSetGate idt m num base sel flags x = m x := by
  simp only [idtSetGate]
  rw [storeLE_of_outside _ _ _ _ _ (by omega), storeLE_of_outside _ _ _ _ _ (by omega),
    storeLE_of_outside _ _ _ _ _ (by omega), storeLE_of_outside _ _ _ _ _ (by omega),
    storeLE_of_outside _ _ _ _ _ (by omega), storeLE_of_outside _ _ _ _ _ (by omega),
    storeLE_of_outside _ _ _ _ _ (by omega)]

/-- The processor reads what was set. -/
theorem readGate_idtSetGate (hsel : sel < 2 ^ 16) (hflags : flags < 2 ^ 8) :
    readGate idt (idtSetGate idt m num base sel flags) num = ⟨base, sel, 0, flags⟩ := by
  simp only [readGate, idtSetGate]
  generalize idt + 16 * num = e
  simp (disch := omega) only [loadLE_storeLE_of_disjoint, loadLE_storeLE_same, toNat_parts]
  rw [UInt64.ofNat_toNat, Nat.zero_mod, Nat.mod_eq_of_lt (by omega), Nat.mod_eq_of_lt (by omega)]

/-- Setting a gate leaves the others. -/
theorem readGate_idtSetGate_of_ne (hne : vector ≠ num) :
    readGate idt (idtSetGate idt m num base sel flags) vector = readGate idt m vector :=
  readGate_congr fun x hlo hhi => idtSetGate_of_outside (by omega)

/-! ## The table -/

/-- Gates set one after the other. -/
theorem readGate_foldl {vectors : List ℕ} : readGate idt
    (vectors.foldl (fun m num => idtSetGate idt m num (isrs num) 0x08 0x8E) m) vector =
      if vector ∈ vectors then ⟨isrs vector, 0x08, 0, 0x8E⟩ else readGate idt m vector := by
  induction vectors generalizing m with
  | nil => simp
  | cons num vectors ih =>
    rw [List.foldl_cons, ih]
    by_cases hmem : vector ∈ vectors
    · simp [hmem]
    · by_cases heq : vector = num
      · subst heq
        simp [hmem, readGate_idtSetGate]
      · simp [hmem, heq, readGate_idtSetGate_of_ne]

/-- The gates of `init_idt`. -/
theorem readGate_initIdt : readGate idt (initIdt idt isrs m) vector =
    if vector ∈ stubVectors then ⟨isrs vector, 0x08, 0, 0x8E⟩ else readGate idt m vector :=
  readGate_foldl

/-! ## Interrupts through the table -/

variable {isrHandler : Processor → Processor} {code : UInt64 → List Instr} {s : Processor}
  {errCode : Option UInt64}

/-- With the table as `init_idt` left it, an interrupt leads to the stub of its vector, and to nothing
where there is none. -/
theorem takeInterrupt_eq (htable : ∀ x, idt ≤ x → x < idt + 16 * 256 →
      s.mem x = initIdt idt isrs (fun _ => 0) x)
    (hcode : ∀ num ∈ stubVectors, code (isrs num) = isr num) (hvector : vector < 256) :
    s.takeInterrupt isrHandler code idt vector errCode =
      if vector ∈ stubVectors then some (s.interrupt isrHandler vector (isrs vector) 0x08 errCode)
      else none := by
  have hgate : readGate idt s.mem vector = readGate idt (initIdt idt isrs fun _ => 0) vector :=
    readGate_congr fun x hlo hhi => htable x (by omega) (by omega)
  rw [Processor.takeInterrupt, hgate, readGate_initIdt]
  by_cases hmem : vector ∈ stubVectors
  · have hpresent : (⟨isrs vector, 0x08, 0, 0x8E⟩ : Gate).present = true :=
      (by decide : Nat.testBit 0x8E 7 = true)
    simp only [if_pos hmem, hpresent, hcode vector hmem, if_true]
    rfl
  · have hempty : (readGate idt (fun _ => 0) vector).present = false := by
      simp [readGate, Gate.present, loadLE]
    simp only [if_neg hmem, hempty, Bool.false_eq_true, if_false]

/-- An interrupt on a vector of the table is invisible to the program it interrupts, whatever the
handler does to the registers, as long as it gives back the stack pointer and keeps the saved frame.
The handler finds the program's registers where `rdi` points, with the stack aligned and interrupts
off, and nothing has been written but the 192 bytes below the program's stack pointer. -/
theorem takeInterrupt_transparent (htable : ∀ x, idt ≤ x → x < idt + 16 * 256 →
      s.mem x = initIdt idt isrs (fun _ => 0) x)
    (hcode : ∀ num ∈ stubVectors, code (isrs num) = isr num)
    (hvector : vector ∈ stubVectors) (hkind : errCode.isSome = true ↔ vector ∈ errCodeVectors)
    (hroom : 192 ≤ s.rsp) (hlt : s.rsp < 2 ^ 64)
    (hkeeps : KeepsFrame isrHandler (s.entered vector (isrs vector) 0x08 errCode)) :
    s.takeInterrupt isrHandler code idt vector errCode =
        some { s with mem := (isrHandler (s.entered vector (isrs vector) 0x08 errCode)).mem } ∧
      WordsAt (s.entered vector (isrs vector) 0x08 errCode).mem
        ((s.entered vector (isrs vector) 0x08 errCode).gpr .rdi).toNat
        (s.registers vector errCode).words ∧
      16 ∣ (s.entered vector (isrs vector) 0x08 errCode).rsp ∧
      (s.entered vector (isrs vector) 0x08 errCode).rflags &&& 0x200 = 0 ∧
      ∀ x, x < s.rsp - 192 ∨ s.rsp ≤ x →
        (s.entered vector (isrs vector) 0x08 errCode).mem x = s.mem x := by
  have hlow : ∀ num ∈ stubVectors, num < 256 := by decide
  have hentered : (s.entered vector (isrs vector) 0x08 errCode).rsp = s.rsp / 16 * 16 - 176 := rfl
  refine ⟨?_, entered_rdi hroom hlt, by omega, entered_rflags, fun x hx => entered_of_outside hroom hx⟩
  rw [takeInterrupt_eq htable hcode (hlow vector hvector), if_pos hvector,
    interrupt_transparent hkind hroom hlt hkeeps]

/-- A program with the table at `0x2000`, its stack pointer not aligned. -/
def interruptedProgram (isrs : ℕ → UInt64) : Processor where
  gpr := fun r => if r = .rdi then 0xdead else 7
  rip := 0x401000
  cs := 8
  rflags := 0x246
  rsp := 0x7008
  ss := 16
  mem := initIdt 0x2000 isrs fun _ => 0

/-- A handler that loses every register and writes below the saved frame. -/
def scratching (e : Processor) : Processor :=
  { e with gpr := fun _ => 0, rip := 0, rflags := 0, mem := storeLE e.mem 8 (e.rsp - 8) 0xffff }

/-- Stubs at `0x9000`, `0x9100` and so on. -/
def stubAddress (num : ℕ) : UInt64 := UInt64.ofNat (0x9000 + 0x100 * num)

/-- A handler that overwrites every register and one word of its frame, at a fault with an error
code. -/
theorem takeInterrupt_transparent_scratching :
    ((interruptedProgram stubAddress).takeInterrupt scratching
      (fun offset => isr ((offset.toNat - 0x9000) / 0x100)) 0x2000 13 (some 5)).map Processor.gpr =
        some fun r => if r = .rdi then 0xdead else 7 := by
  have hrsp : (interruptedProgram stubAddress).rsp = 0x7008 := rfl
  have hcode : ∀ num ∈ stubVectors, isr (((stubAddress num).toNat - 0x9000) / 0x100) = isr num := by
    intro num hnum
    have hlow : ∀ num ∈ stubVectors, ((stubAddress num).toNat - 0x9000) / 0x100 = num := by decide
    rw [hlow num hnum]
  have htop : ((interruptedProgram stubAddress).entered 13 (stubAddress 13) 8 (some 5)).rsp = 0x6f50 := rfl
  have h := (@takeInterrupt_transparent 0x2000 13 stubAddress scratching
    (fun offset => isr ((offset.toNat - 0x9000) / 0x100)) (interruptedProgram stubAddress) (some 5)
    (fun _ _ _ => rfl) hcode (by decide) (by decide) (by omega) (by omega)
    ⟨rfl, fun x hlo hhi => storeLE_of_outside _ _ _ _ _ (by omega)⟩).1
  rw [h]
  rfl

end Orionis.Cpu
