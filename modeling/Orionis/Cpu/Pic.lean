import Mathlib.Data.List.FinRange
import Mathlib.Logic.Function.Basic
import Mathlib.Data.Nat.Bitwise

/-!
# The interrupt controllers

Two 8259A chips in a cascade, and the writes of `pic.cpp` and of the boot loader to their ports. In
fully nested mode a chip offers its first unmasked request as long as no line of that priority or a
higher one is in service, and an end of interrupt takes the first line in service off.
-/

namespace Orionis.Cpu

/-! ## One chip -/

/-- The command word a chip expects on its data port. -/
inductive Icw
  | ready | icw2 | icw3 | icw4
  deriving DecidableEq, Repr

/-- The registers of a chip: requests, lines in service, mask and first vector. -/
structure Chip where
  irr : Fin 8 → Bool
  inService : Fin 8 → Bool
  imr : UInt8
  base : UInt8
  icw : Icw

/-- The first of the lines that are set. -/
def highest (lines : Fin 8 → Bool) : Option (Fin 8) := (List.finRange 8).find? lines

/-- A line the mask shuts out. -/
def Chip.masked (c : Chip) (n : Fin 8) : Bool := c.imr.toNat.testBit n

/-- Requests the mask lets through. -/
def Chip.pending (c : Chip) (n : Fin 8) : Bool := c.irr n && !c.masked n

/-- The line a chip asserts its output for. -/
def Chip.request (c : Chip) : Option (Fin 8) :=
  (highest c.pending).filter fun n => (List.finRange 8).all fun m => !(decide (m ≤ n) && c.inService m)

/-- The line is acknowledged. -/
def Chip.acknowledge (c : Chip) (n : Fin 8) : Chip :=
  { c with irr := Function.update c.irr n false, inService := Function.update c.inService n true }

/-- An end of interrupt that names no line. -/
def Chip.endOfInterrupt (c : Chip) : Chip :=
  match highest c.inService with
  | some n => { c with inService := Function.update c.inService n false }
  | none => c

/-- A write to the command port: the first initialisation word, which clears the mask and the
requests, or an end of interrupt. The other words are not written by this program. -/
def Chip.writeCommand (c : Chip) (value : UInt8) : Chip :=
  if value &&& 0x10 ≠ 0 then { c with irr := fun _ => false, imr := 0, icw := .icw2 }
  else if value = 0x20 then c.endOfInterrupt
  else c

/-- A write to the data port. -/
def Chip.writeData (c : Chip) (value : UInt8) : Chip :=
  match c.icw with
  | .icw2 => { c with base := value &&& 0xF8, icw := .icw3 }
  | .icw3 => { c with icw := .icw4 }
  | .icw4 => { c with icw := .ready }
  | .ready => { c with imr := value }

/-! ## The pair -/

/-- Master and slave, the slave's output on line 2 of the master. -/
structure Pics where
  master : Chip
  slave : Chip

/-- The lines of the two chips. -/
inductive IrqLine
  | master (n : Fin 8)
  | slave (n : Fin 8)
  deriving DecidableEq, Repr

/-- The line of the master the slave is on. -/
abbrev IrqLine.cascade : IrqLine := .master 2

/-- The line of the keyboard. -/
abbrev IrqLine.keyboard : IrqLine := .master 1

/-- A write to a port. -/
def Pics.outb (p : Pics) (port : UInt16) (value : UInt8) : Pics :=
  if port = 0x20 then { p with master := p.master.writeCommand value }
  else if port = 0x21 then { p with master := p.master.writeData value }
  else if port = 0xA0 then { p with slave := p.slave.writeCommand value }
  else if port = 0xA1 then { p with slave := p.slave.writeData value }
  else p

/-- A read of a mask. -/
def Pics.inb (p : Pics) (port : UInt16) : UInt8 :=
  if port = 0x21 then p.master.imr else p.slave.imr

/-- Writes in a row. -/
def Pics.outs (p : Pics) (writes : List (UInt16 × UInt8)) : Pics :=
  writes.foldl (fun p write => p.outb write.1 write.2) p

/-- The master with the slave's output on its line 2. -/
def Pics.wired (p : Pics) : Chip :=
  { p.master with irr := Function.update p.master.irr 2 p.slave.request.isSome }

/-- The line the pair interrupts the processor for. -/
def Pics.request (p : Pics) : Option IrqLine :=
  p.wired.request.bind fun n => if n = 2 then p.slave.request.map .slave else some (.master n)

/-- The processor takes the interrupt of a line. -/
def Pics.acknowledge (p : Pics) : IrqLine → Pics
  | .master n => { p with master := p.master.acknowledge n }
  | .slave n => ⟨p.master.acknowledge 2, p.slave.acknowledge n⟩

/-- The vector of a line. -/
def Pics.vector (p : Pics) : IrqLine → UInt8
  | .master n => p.master.base + UInt8.ofNat n
  | .slave n => p.slave.base + UInt8.ofNat n

/-- A device requests an interrupt. -/
def Pics.raise (p : Pics) : IrqLine → Pics
  | .master n => { p with master := { p.master with irr := Function.update p.master.irr n true } }
  | .slave n => { p with slave := { p.slave with irr := Function.update p.slave.irr n true } }

/-- A request is waiting on the line. -/
def Pics.requested (p : Pics) : IrqLine → Bool
  | .master n => p.master.irr n
  | .slave n => p.slave.irr n

/-- Both masks let the line through. -/
def Pics.enabled (p : Pics) : IrqLine → Bool
  | .master n => !p.master.masked n
  | .slave n => !p.slave.masked n && !p.master.masked 2

/-- The lines of devices, those that are served first in front. -/
def priorityOrder : List IrqLine :=
  [0, 1].map .master ++ ((List.finRange 8).map .slave ++ [3, 4, 5, 6, 7].map .master)

/-- The lines that wait to be served. -/
def Pics.waiting (p : Pics) : List IrqLine := priorityOrder.filter fun line => p.requested line && p.enabled line

/-! ## The source -/

/-- The writes of `pic_send_eoi`. -/
def picSendEoi (irq : UInt8) : List (UInt16 × UInt8) :=
  (if irq ≥ 8 then [(0xA0, 0x20)] else []) ++ [(0x20, 0x20)]

/-- `pic_remap`. The offsets are cut to a byte by the ports. -/
def picRemap (offset1 offset2 : UInt8) (p : Pics) : Pics :=
  let a1 := p.inb 0x21
  let a2 := p.inb 0xA1
  p.outs [(0x20, 0x11), (0xA0, 0x11), (0x21, offset1), (0xA1, offset2), (0x21, 4), (0xA1, 2),
    (0x21, 0x01), (0xA1, 0x01), (0x21, a1), (0xA1, a2)]

/-- `1 << irq` on a processor that takes the count modulo 32, its low byte. -/
def lineBit (irq : UInt8) : UInt8 := UInt8.ofNat (2 ^ (irq.toNat % 32))

/-- `pic_unmask_irq`. -/
def picUnmaskIrq (irq : UInt8) (p : Pics) : Pics :=
  if irq < 8 then p.outb 0x21 (p.inb 0x21 &&& ~~~lineBit irq)
  else p.outb 0xA1 (p.inb 0xA1 &&& ~~~lineBit (irq - 8))

/-- `pic_eoi` of the boot loader. -/
def picEoi (irq : ℕ) : List (UInt16 × UInt8) :=
  (if irq ≥ 8 then [(0xA0, 0x20)] else []) ++ [(0x20, 0x20)]

/-- `pic_mask_all` and `pic_flush`, as `stivale_spinup` calls them. -/
def picMaskAllFlush (p : Pics) : Pics :=
  (p.outs [(0xA1, 0xff), (0x21, 0xff)]).outs ((List.range 16).flatMap picEoi)

variable {c : Chip} {p : Pics} {n m : Fin 8} {lines : Fin 8 → Bool} {value irq : UInt8}

/-! ## Priority -/

/-- There is no highest line when there is none. -/
theorem highest_eq_none : highest lines = none ↔ ∀ n, lines n = false := by
  simp [highest, List.find?_eq_none]

/-- The first line that is set. -/
theorem highest_eq_some (hn : lines n = true) (hfirst : ∀ m < n, lines m = false) :
    highest lines = some n := by
  cases h : highest lines with
  | none => simp [highest_eq_none.1 h n] at hn
  | some k =>
    have hk : lines k = true := List.find?_some h
    rcases lt_trichotomy k n with hlt | heq | hgt
    · simp [hfirst k hlt] at hk
    · rw [heq]
    · rw [highest, List.find?_eq_some_iff_getElem] at h
      obtain ⟨-, i, hi, hik, hbefore⟩ := h
      simp only [List.getElem_finRange] at hik hbefore
      have hval : (i : ℕ) = k := by rw [← hik]; rfl
      have hset := hbefore n.val (by omega)
      simp [hn] at hset

/-- An end of interrupt is one for the highest line in service. -/
theorem Chip.endOfInterrupt_eq (h : highest c.inService = some n) :
    c.endOfInterrupt = { c with inService := Function.update c.inService n false } := by
  rw [Chip.endOfInterrupt, h]

/-- Lines below a bound are not in service any more once an end of interrupt has come for each. -/
theorem Chip.endOfInterrupt_inService {k : ℕ} (h : ∀ m : Fin 8, m < k → c.inService m = false) :
    ∀ m : Fin 8, m < k + 1 → c.endOfInterrupt.inService m = false := by
  intro m hm
  cases hhigh : highest c.inService with
  | none =>
    rw [Chip.endOfInterrupt, hhigh]
    exact highest_eq_none.1 hhigh m
  | some n =>
    rw [Chip.endOfInterrupt_eq hhigh]
    by_cases hmn : m = n
    · subst hmn
      exact Function.update_self ..
    · dsimp only
      rw [Function.update_of_ne hmn]
      by_contra hset
      have hfirst := highest_eq_some (by simpa using hset) fun i hi => h i (by omega)
      rw [hhigh] at hfirst
      exact hmn (Option.some.inj hfirst).symm

/-- Ends of interrupt change what is in service only. -/
theorem Chip.iterate_endOfInterrupt (c : Chip) (k : ℕ) : ∃ inService,
    (Chip.endOfInterrupt^[k] c) = { c with inService } ∧ ∀ m : Fin 8, m < k → inService m = false := by
  induction k with
  | zero => exact ⟨c.inService, rfl, fun m hm => absurd hm (Nat.not_lt_zero _)⟩
  | succ k ih =>
    obtain ⟨inService, heq, hclear⟩ := ih
    rw [Function.iterate_succ_apply', heq]
    refine ⟨({ c with inService } : Chip).endOfInterrupt.inService, ?_,
      Chip.endOfInterrupt_inService hclear⟩
    rw [Chip.endOfInterrupt]
    cases highest inService <;> rfl

/-- Eight of them leave nothing in service. -/
theorem Chip.iterate_endOfInterrupt_clear (c : Chip) {k : ℕ} (hk : 8 ≤ k) :
    (Chip.endOfInterrupt^[k] c) = { c with inService := fun _ => false } := by
  obtain ⟨inService, heq, hclear⟩ := c.iterate_endOfInterrupt k
  rw [heq]
  congr 1
  funext m
  exact hclear m (by omega)

/-! ## Up to the kernel -/

/-- Writes one after the other. -/
theorem Pics.outs_append (writes more : List (UInt16 × UInt8)) :
    p.outs (writes ++ more) = (p.outs writes).outs more := List.foldl_append

/-- An end of interrupt for the master. -/
theorem Pics.outs_eoi_master : p.outs [(0x20, 0x20)] = { p with master := p.master.endOfInterrupt } := rfl

/-- One for each of the chips. -/
theorem Pics.outs_eoi_both : p.outs [(0xA0, 0x20), (0x20, 0x20)] =
    ⟨p.master.endOfInterrupt, p.slave.endOfInterrupt⟩ := rfl

/-- Ends of interrupt for lines of the master go to the master. -/
theorem Pics.outs_flatMap_master {irqs : List ℕ} (h : ∀ irq ∈ irqs, irq < 8) :
    p.outs (irqs.flatMap picEoi) = { p with master := Chip.endOfInterrupt^[irqs.length] p.master } := by
  induction irqs generalizing p with
  | nil => rfl
  | cons irq irqs ih =>
    have hirq : picEoi irq = [(0x20, 0x20)] := by
      rw [picEoi, if_neg (Nat.not_le_of_lt (h irq List.mem_cons_self))]
      rfl
    rw [List.flatMap_cons, Pics.outs_append, hirq, Pics.outs_eoi_master,
      ih fun i hi => h i (List.mem_cons_of_mem _ hi)]
    rfl

/-- Ends of interrupt for lines of the slave go to both chips. -/
theorem Pics.outs_flatMap_both {irqs : List ℕ} (h : ∀ irq ∈ irqs, 8 ≤ irq) :
    p.outs (irqs.flatMap picEoi) = ⟨Chip.endOfInterrupt^[irqs.length] p.master,
      Chip.endOfInterrupt^[irqs.length] p.slave⟩ := by
  induction irqs generalizing p with
  | nil => rfl
  | cons irq irqs ih =>
    have hirq : picEoi irq = [(0xA0, 0x20), (0x20, 0x20)] := by
      rw [picEoi, if_pos (h irq List.mem_cons_self)]
      rfl
    rw [List.flatMap_cons, Pics.outs_append, hirq, Pics.outs_eoi_both,
      ih fun i hi => h i (List.mem_cons_of_mem _ hi)]
    rfl

/-- A chip without requests, everything masked. -/
def Chip.shut (base : UInt8) : Chip := ⟨fun _ => false, fun _ => false, 0xff, base, .ready⟩

/-- `pic_mask_all_flush` masks every line and takes all of them out of service. -/
theorem picMaskAllFlush_eq (hmaster : p.master.icw = .ready) (hslave : p.slave.icw = .ready) :
    picMaskAllFlush p = ⟨{ p.master with imr := 0xff, inService := fun _ => false },
      { p.slave with imr := 0xff, inService := fun _ => false }⟩ := by
  have hmask : p.outs [(0xA1, 0xff), (0x21, 0xff)] =
      ⟨{ p.master with imr := 0xff }, { p.slave with imr := 0xff }⟩ := by
    simp [Pics.outs, Pics.outb, Chip.writeData, hmaster, hslave]
  rw [picMaskAllFlush, hmask, show List.range 16 = List.range 8 ++ [8, 9, 10, 11, 12, 13, 14, 15] from rfl,
    List.flatMap_append, Pics.outs_append, Pics.outs_flatMap_both (by decide),
    Pics.outs_flatMap_master (by decide), List.length_range,
    Chip.iterate_endOfInterrupt_clear _ (le_refl 8), Chip.iterate_endOfInterrupt_clear _ (by decide),
    Chip.iterate_endOfInterrupt_clear _ (by decide)]

/-- However the boot loader finds the chips, `pic_remap` leaves them at their vectors, with every line
masked and nothing in service. -/
theorem picRemap_eq (hmaster : p.master.icw = .ready) (hslave : p.slave.icw = .ready) :
    picRemap 32 40 (picMaskAllFlush p) = ⟨Chip.shut 32, Chip.shut 40⟩ := by
  rw [picMaskAllFlush_eq hmaster hslave]
  rfl

/-! ## Masks -/

/-- Unmasking takes one bit off the mask. -/
theorem testBit_unmask (imr : UInt8) :
    (imr &&& ~~~lineBit irq).toNat.testBit n =
      (imr.toNat.testBit n && !decide (irq.toNat % 32 = n)) := by
  have hbit : (lineBit irq).toBitVec.getLsbD n = decide (irq.toNat % 32 = n) := by
    rw [← BitVec.testBit_toNat, UInt8.toNat_toBitVec, lineBit, UInt8.toNat_ofNat', Nat.testBit_mod_two_pow,
      Nat.testBit_two_pow, decide_eq_true n.isLt, Bool.true_and]
  rw [← UInt8.toNat_toBitVec, BitVec.testBit_toNat, UInt8.toBitVec_and, UInt8.toBitVec_not,
    BitVec.getLsbD_and, BitVec.getLsbD_not, hbit, decide_eq_true n.isLt, Bool.true_and,
    ← BitVec.testBit_toNat, UInt8.toNat_toBitVec]

/-- The line `pic_unmask_irq` lets through, none where the bit is not in the mask. -/
def unmasks (irq : UInt8) : IrqLine → Prop
  | .master n => irq < 8 ∧ irq.toNat % 32 = n
  | .slave n => ¬irq < 8 ∧ (irq - 8).toNat % 32 = n

/-- A line the mask of its chip shuts out. -/
def Pics.masked (p : Pics) : IrqLine → Bool
  | .master n => p.master.masked n
  | .slave n => p.slave.masked n

/-- After `pic_unmask_irq` the line it maps its argument to is not masked, and the others are as
before. -/
theorem masked_picUnmaskIrq (hmaster : p.master.icw = .ready) (hslave : p.slave.icw = .ready)
    (line : IrqLine) : (picUnmaskIrq irq p).masked line = false ↔
      p.masked line = false ∨ unmasks irq line := by
  rw [picUnmaskIrq]
  by_cases hlt : irq < 8
  · have hout : p.outb 0x21 (p.inb 0x21 &&& ~~~lineBit irq) =
        { p with master := { p.master with imr := p.master.imr &&& ~~~lineBit irq } } := by
      simp [Pics.outb, Pics.inb, Chip.writeData, hmaster]
    rw [if_pos hlt, hout]
    cases line with
    | master n =>
      simp only [Pics.masked, Chip.masked, testBit_unmask]
      cases p.master.imr.toNat.testBit n <;> simp [unmasks, hlt]
    | slave n => simp [Pics.masked, unmasks, hlt]
  · have hout : p.outb 0xA1 (p.inb 0xA1 &&& ~~~lineBit (irq - 8)) =
        { p with slave := { p.slave with imr := p.slave.imr &&& ~~~lineBit (irq - 8) } } := by
      simp [Pics.outb, Pics.inb, Chip.writeData, hslave]
    rw [if_neg hlt, hout]
    cases line with
    | master n => simp [Pics.masked, unmasks, hlt]
    | slave n =>
      simp only [Pics.masked, Chip.masked, testBit_unmask]
      cases p.slave.imr.toNat.testBit n <;> simp [unmasks, hlt]

end Orionis.Cpu
