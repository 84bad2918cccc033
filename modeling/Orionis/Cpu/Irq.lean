import Mathlib.Data.List.Find
import Mathlib.Data.List.FinRange
import Mathlib.Data.List.Nodup
import Orionis.Cpu.Pic
import Orionis.Cpu.Idt
import Orionis.Foundations.Run

/-!
# Hardware interrupts

Devices request interrupts at any time, between any two writes of a handler. The handler of a line
sends the ends of interrupt its line needs, so that nothing is in service once it has returned: no
request is lost, none is served twice, and the lines are served in the order of their priority.
-/

namespace Orionis.Cpu

open Orionis.Foundations

/-! ## Controllers and handler -/

/-- The controllers, and the end-of-interrupt writes the running handler still has to make. -/
structure Serving where
  pics : Pics
  eoi : List (UInt16 × UInt8)

/-- What can happen. -/
inductive IrqEvent
  | request (line : IrqLine)
  | interrupt (line : IrqLine)
  | eoi
  | unmask (irq : UInt8)
  deriving DecidableEq, Repr

/-- The lines `kmain` and the driver of the card unmask. -/
def unmaskedIrqs (cardIrq : UInt8) : List UInt8 := [1, 2, 10, cardIrq]

/-- The end-of-interrupt writes of `isr_handler`, none where it halts. -/
def isrHandlerEoi (intNo : UInt8) : Option (List (UInt16 × UInt8)) :=
  if intNo < 32 then none
  else if intNo < 48 then some (picSendEoi (intNo - 32))
  else none

/-- One event. An interrupt is taken when no handler runs, and needs a gate. A handler runs with
interrupts off, and the last write ends it. -/
def Serving.step (cardIrq : UInt8) (s : Serving) : IrqEvent → Option Serving
  | .request line => if line = .cascade then none else some { s with pics := s.pics.raise line }
  | .interrupt line =>
    if s.eoi = [] ∧ s.pics.request = some line ∧ (s.pics.vector line).toNat ∈ stubVectors then
      (isrHandlerEoi (s.pics.vector line)).map fun writes => ⟨s.pics.acknowledge line, writes⟩
    else none
  | .eoi =>
    match s.eoi with
    | [] => none
    | (port, value) :: rest => some ⟨s.pics.outb port value, rest⟩
  | .unmask irq =>
    if s.eoi = [] ∧ irq ∈ unmaskedIrqs cardIrq then some { s with pics := picUnmaskIrq irq s.pics }
    else none

/-- One event as a relation. -/
def IrqStep (cardIrq : UInt8) (s : Serving) (e : IrqEvent) (t : Serving) : Prop := s.step cardIrq e = some t

/-- After `pic_remap` of `kmain`. -/
def Serving.start (p : Pics) : Serving := ⟨picRemap 32 40 (picMaskAllFlush p), []⟩

/-- The lines served by a list of events. -/
def served (events : List IrqEvent) : List IrqLine :=
  events.filterMap fun
    | .interrupt line => some line
    | _ => none

variable {cardIrq irq : UInt8} {p : Pics} {c : Chip} {s t : Serving} {e : IrqEvent} {line l : IrqLine}
  {events : List IrqEvent} {n : Fin 8} {writes : List (UInt16 × UInt8)}

/-! ## What is in service -/

/-- At most one line is in service. -/
def Chip.Serves (c : Chip) (line : Option (Fin 8)) : Prop := ∀ m, c.inService m = decide (line = some m)

/-- Acknowledging a line puts it alone in service. -/
theorem Chip.Serves.acknowledge (h : c.Serves none) : (c.acknowledge n).Serves (some n) := by
  intro m
  by_cases hm : m = n
  · subst hm
    simp [Chip.acknowledge]
  · simp [Chip.acknowledge, Function.update_of_ne hm, h m, Ne.symm hm]

/-- An end of interrupt takes the line off again. -/
theorem Chip.Serves.endOfInterrupt (h : c.Serves (some n)) : c.endOfInterrupt.Serves none := by
  have hhigh : highest c.inService = some n :=
    highest_eq_some (by simp [h n]) fun m hm => by simp [h m, hm.ne']
  intro m
  rw [Chip.endOfInterrupt_eq hhigh]
  by_cases hm : m = n
  · subst hm
    simp
  · simp [Function.update_of_ne hm, h m, Ne.symm hm]

/-- A chip with nothing in service offers its first pending line. -/
theorem Chip.Serves.request (h : c.Serves none) : c.request = highest c.pending := by
  rw [Chip.request]
  cases highest c.pending with
  | none => rfl
  | some n => simp [h _]

/-- What is in service, by the writes the handler still has to make. -/
inductive InService (p : Pics) : List (UInt16 × UInt8) → Prop
  | idle (hmaster : p.master.Serves none) (hslave : p.slave.Serves none) : InService p []
  | master (n : Fin 8) (hmaster : p.master.Serves (some n)) (hslave : p.slave.Serves none) :
      InService p [(0x20, 0x20)]
  | slave (n : Fin 8) (hmaster : p.master.Serves (some 2)) (hslave : p.slave.Serves (some n)) :
      InService p [(0xA0, 0x20), (0x20, 0x20)]

/-- What holds all the time. -/
structure Serving.Inv (cardIrq : UInt8) (s : Serving) : Prop where
  masterBase : s.pics.master.base = 32
  slaveBase : s.pics.slave.base = 40
  masterReady : s.pics.master.icw = .ready
  slaveReady : s.pics.slave.icw = .ready
  unmasked : ∀ line, s.pics.masked line = false → ∃ irq ∈ unmaskedIrqs cardIrq, unmasks irq line
  service : InService s.pics s.eoi

/-- The controllers behind `pic_remap`. -/
theorem start_eq (hmaster : p.master.icw = .ready) (hslave : p.slave.icw = .ready) :
    Serving.start p = ⟨⟨Chip.shut 32, Chip.shut 40⟩, []⟩ := by
  rw [Serving.start, picRemap_eq hmaster hslave]

/-- A chip that is shut masks every line. -/
theorem masked_shut (n : Fin 8) (base : UInt8) : (Chip.shut base).masked n = true := by
  change Nat.testBit 0xff n = true
  revert n
  decide

/-- The kernel starts with everything masked and nothing in service. -/
theorem inv_start (hmaster : p.master.icw = .ready) (hslave : p.slave.icw = .ready) :
    (Serving.start p).Inv cardIrq := by
  rw [start_eq hmaster hslave]
  refine ⟨rfl, rfl, rfl, rfl, fun line h => ?_, .idle (fun _ => rfl) fun _ => rfl⟩
  cases line <;> simp [Pics.masked, masked_shut] at h

/-! ## Vectors -/

/-- The lines of the master have the vectors 32 to 39. -/
theorem vector_master (hbase : p.master.base = 32) : (p.vector (.master n)).toNat = 32 + n := by
  rw [Pics.vector, hbase]
  revert n
  decide

/-- The lines of the slave have the vectors 40 to 47. -/
theorem vector_slave (hbase : p.slave.base = 40) : (p.vector (.slave n)).toNat = 40 + n := by
  rw [Pics.vector, hbase]
  revert n
  decide

/-- The handler sends one end of interrupt for a line of the master. -/
theorem isrHandlerEoi_master (hbase : p.master.base = 32) :
    isrHandlerEoi (p.vector (.master n)) = some [(0x20, 0x20)] := by
  rw [Pics.vector, hbase]
  revert n
  decide

/-- For a line of the slave it sends one to each chip. -/
theorem isrHandlerEoi_slave (hbase : p.slave.base = 40) :
    isrHandlerEoi (p.vector (.slave n)) = some [(0xA0, 0x20), (0x20, 0x20)] := by
  rw [Pics.vector, hbase]
  revert n
  decide

/-! ## One event -/

/-- What an event does. -/
theorem step_cases (h : IrqStep cardIrq s e t) :
    (∃ line, e = .request line ∧ line ≠ .cascade ∧ t = { s with pics := s.pics.raise line }) ∨
    (∃ line writes, e = .interrupt line ∧ s.eoi = [] ∧ s.pics.request = some line ∧
      isrHandlerEoi (s.pics.vector line) = some writes ∧ t = ⟨s.pics.acknowledge line, writes⟩) ∨
    (∃ port value rest, e = .eoi ∧ s.eoi = (port, value) :: rest ∧ t = ⟨s.pics.outb port value, rest⟩) ∨
    (∃ irq, e = .unmask irq ∧ s.eoi = [] ∧ irq ∈ unmaskedIrqs cardIrq ∧
      t = { s with pics := picUnmaskIrq irq s.pics }) := by
  cases e with
  | request line =>
    rw [IrqStep, Serving.step] at h
    split at h
    · cases h
    · next hline => exact .inl ⟨line, rfl, hline, (Option.some.inj h).symm⟩
  | interrupt line =>
    rw [IrqStep, Serving.step] at h
    split at h
    · next hready =>
      obtain ⟨writes, hwrites, ht⟩ := Option.map_eq_some_iff.1 h
      exact .inr (.inl ⟨line, writes, rfl, hready.1, hready.2.1, hwrites, ht.symm⟩)
    · cases h
  | eoi =>
    rw [IrqStep, Serving.step] at h
    split at h
    · cases h
    · next port value rest heoi =>
      exact .inr (.inr (.inl ⟨port, value, rest, rfl, heoi, (Option.some.inj h).symm⟩))
  | unmask irq =>
    rw [IrqStep, Serving.step] at h
    split at h
    · next hready => exact .inr (.inr (.inr ⟨irq, rfl, hready.1, hready.2, (Option.some.inj h).symm⟩))
    · cases h

/-- The same chips but for what is in service. -/
def Pics.withService (p : Pics) (a b : Fin 8 → Bool) : Pics :=
  ⟨{ p.master with inService := a }, { p.slave with inService := b }⟩

/-- The next write of the handler takes the line it serves off one chip and changes nothing else. -/
theorem InService.outb {port : UInt16} {value : UInt8} {rest : List (UInt16 × UInt8)}
    (h : InService p ((port, value) :: rest)) : InService (p.outb port value) rest ∧
      ∃ a b, p.outb port value = p.withService a b := by
  cases h with
  | master n hmaster hslave =>
    have hout : p.outb 0x20 0x20 = { p with master := p.master.endOfInterrupt } := rfl
    refine ⟨?_, p.master.endOfInterrupt.inService, p.slave.inService, ?_⟩
    · rw [hout]
      exact .idle hmaster.endOfInterrupt hslave
    · rw [hout, Chip.endOfInterrupt]
      cases highest p.master.inService <;> rfl
  | slave n hmaster hslave =>
    have hout : p.outb 0xA0 0x20 = { p with slave := p.slave.endOfInterrupt } := rfl
    refine ⟨?_, p.master.inService, p.slave.endOfInterrupt.inService, ?_⟩
    · rw [hout]
      exact .master 2 hmaster hslave.endOfInterrupt
    · rw [hout, Chip.endOfInterrupt]
      cases highest p.slave.inService <;> rfl

/-- The line acknowledged is in service on the chips it goes through. -/
theorem InService.acknowledge (h : InService p []) (hmaster : p.master.base = 32)
    (hslave : p.slave.base = 40) (hwrites : isrHandlerEoi (p.vector line) = some writes) :
    InService (p.acknowledge line) writes := by
  cases h with
  | idle hm hs =>
    cases line with
    | master n =>
      rw [isrHandlerEoi_master hmaster] at hwrites
      rw [← Option.some.inj hwrites]
      exact .master n hm.acknowledge hs
    | slave n =>
      rw [isrHandlerEoi_slave hslave] at hwrites
      rw [← Option.some.inj hwrites]
      exact .slave n hm.acknowledge hs.acknowledge

/-- Requests change nothing in service. -/
theorem InService.raise (h : InService p writes) : InService (p.raise line) writes := by
  cases h with
  | idle hm hs => cases line <;> exact .idle hm hs
  | master n hm hs => cases line <;> exact .master n hm hs
  | slave n hm hs => cases line <;> exact .slave n hm hs

/-- Unmasking changes a mask only. -/
theorem picUnmaskIrq_eq (hmaster : p.master.icw = .ready) (hslave : p.slave.icw = .ready) :
    ∃ a b, picUnmaskIrq irq p = ⟨{ p.master with imr := a }, { p.slave with imr := b }⟩ := by
  rw [picUnmaskIrq]
  split
  · exact ⟨p.inb 0x21 &&& ~~~lineBit irq, p.slave.imr, by simp [Pics.outb, Chip.writeData, hmaster]⟩
  · exact ⟨p.master.imr, p.inb 0xA1 &&& ~~~lineBit (irq - 8), by simp [Pics.outb, Chip.writeData, hslave]⟩

/-! ### Masks -/

/-- Requests mask nothing. -/
@[simp]
theorem masked_raise : (p.raise line).masked l = p.masked l := by cases line <;> cases l <;> rfl

/-- Acknowledging masks nothing. -/
@[simp]
theorem masked_acknowledge : (p.acknowledge line).masked l = p.masked l := by
  cases line <;> cases l <;> rfl

/-- Masks do not depend on what is in service. -/
@[simp]
theorem masked_withService (a b : Fin 8 → Bool) : (p.withService a b).masked l = p.masked l := by
  cases l <;> rfl

/-- Every event keeps the invariant. -/
theorem inv_step (hinv : s.Inv cardIrq) (h : IrqStep cardIrq s e t) : t.Inv cardIrq := by
  obtain ⟨hmb, hsb, hmr, hsr, hmask, hserv⟩ := hinv
  obtain ⟨line, rfl, -, rfl⟩ | ⟨line, writes, rfl, hidle, -, hwrites, rfl⟩ |
    ⟨port, value, rest, rfl, heoi, rfl⟩ | ⟨irq, rfl, hidle, hirq, rfl⟩ := step_cases h
  · have hnext : ∀ l, (s.pics.raise line).masked l = false → _ := fun l h => hmask l (by simpa using h)
    have hraise := @InService.raise _ line _ hserv
    cases line <;> exact ⟨hmb, hsb, hmr, hsr, hnext, hraise⟩
  · rw [hidle] at hserv
    have hnext := hserv.acknowledge hmb hsb hwrites
    have hmasks : ∀ l, (s.pics.acknowledge line).masked l = false → _ :=
      fun l h => hmask l (by simpa using h)
    cases line <;> exact ⟨hmb, hsb, hmr, hsr, hmasks, hnext⟩
  · rw [heoi] at hserv
    obtain ⟨hnext, a, b, hout⟩ := hserv.outb
    rw [hout] at hnext ⊢
    exact ⟨hmb, hsb, hmr, hsr, fun l h => hmask l (by simpa using h), hnext⟩
  · have hunmasked : ∀ l, (picUnmaskIrq irq s.pics).masked l = false →
        ∃ irq ∈ unmaskedIrqs cardIrq, unmasks irq l := by
      intro l hl
      rcases (masked_picUnmaskIrq hmr hsr l).1 hl with hl | hl
      · exact hmask l hl
      · exact ⟨irq, hirq, hl⟩
    obtain ⟨a, b, hpics⟩ := @picUnmaskIrq_eq irq s.pics hmr hsr
    rw [hidle] at hserv
    rw [hpics] at hunmasked
    rw [hpics, hidle]
    cases hserv with
    | idle hm hs => exact ⟨hmb, hsb, hmr, hsr, hunmasked, .idle hm hs⟩

/-- The invariant holds in every state of a run. -/
theorem inv_of_run (hmaster : p.master.icw = .ready) (hslave : p.slave.icw = .ready)
    (h : Run (IrqStep cardIrq) (Serving.start p) events s) : s.Inv cardIrq :=
  h.invariant (inv_start hmaster hslave) fun _ _ _ hinv hstep => inv_step hinv hstep

/-! ## The line that is offered -/

/-- A request is one for its own line. -/
@[simp]
theorem requested_raise : (p.raise line).requested l = (decide (l = line) || p.requested l) := by
  cases line with
  | master n =>
    cases l with
    | master m =>
      by_cases hm : m = n
      · subst hm
        simp [Pics.raise, Pics.requested]
      · simp [Pics.raise, Pics.requested, hm]
    | slave m => simp [Pics.raise, Pics.requested]
  | slave n =>
    cases l with
    | master m => simp [Pics.raise, Pics.requested]
    | slave m =>
      by_cases hm : m = n
      · subst hm
        simp [Pics.raise, Pics.requested]
      · simp [Pics.raise, Pics.requested, hm]

/-- An acknowledgement takes the request away, and the cascade line has none of its own. -/
theorem requested_acknowledge (hl : l ≠ .cascade) :
    (p.acknowledge line).requested l = (p.requested l && !decide (l = line)) := by
  cases line with
  | master n =>
    cases l with
    | master m =>
      by_cases hm : m = n
      · subst hm
        simp [Pics.acknowledge, Chip.acknowledge, Pics.requested]
      · simp [Pics.acknowledge, Chip.acknowledge, Pics.requested, hm]
    | slave m => simp [Pics.acknowledge, Pics.requested]
  | slave n =>
    cases l with
    | master m =>
      have hm : m ≠ 2 := fun h => hl (by rw [h])
      simp [Pics.acknowledge, Chip.acknowledge, Pics.requested, hm]
    | slave m =>
      by_cases hm : m = n
      · subst hm
        simp [Pics.acknowledge, Chip.acknowledge, Pics.requested]
      · simp [Pics.acknowledge, Chip.acknowledge, Pics.requested, hm]

/-- Requests do not depend on what is in service. -/
@[simp]
theorem requested_withService (a b : Fin 8 → Bool) :
    (p.withService a b).requested l = p.requested l := by
  cases l <;> rfl

/-- Unmasking requests nothing. -/
theorem requested_picUnmaskIrq (hmaster : p.master.icw = .ready) (hslave : p.slave.icw = .ready) :
    (picUnmaskIrq irq p).requested l = p.requested l := by
  obtain ⟨a, b, hpics⟩ := @picUnmaskIrq_eq irq p hmaster hslave
  rw [hpics]
  cases l <;> rfl

/-- A line is let through when neither it nor, for a line of the slave, the cascade is masked. -/
theorem enabled_eq : p.enabled l = (!p.masked l && (decide (l = .master 2) || match l with
    | .master _ => true
    | .slave _ => !p.masked (.master 2))) := by
  cases l <;> simp [Pics.enabled, Pics.masked]

/-- What is let through depends on the masks only. -/
theorem enabled_congr {q : Pics} (h : ∀ l, q.masked l = p.masked l) : q.enabled l = p.enabled l := by
  rw [enabled_eq, enabled_eq, h]
  cases l <;> simp [h]

/-- The lines above the cascade, the slave's lines and the lines below it. -/
theorem highest_split (lines : Fin 8 → Bool) : highest lines =
    (([0, 1] : List (Fin 8)).find? lines).or
      ((if lines 2 then some 2 else none).or (([3, 4, 5, 6, 7] : List (Fin 8)).find? lines)) := by
  have hlines : List.finRange 8 = [0, 1] ++ ([2] ++ [3, 4, 5, 6, 7]) := by decide
  rw [highest, hlines, List.find?_append, List.find?_append]
  cases h : lines 2 <;> simp [h]

/-- With nothing in service the pair offers the first line that waits. -/
theorem request_eq (h : InService p []) : p.request = p.waiting.head? := by
  obtain ⟨hmaster, hslave⟩ : p.master.Serves none ∧ p.slave.Serves none := by
    cases h with
    | idle hm hs => exact ⟨hm, hs⟩
  have hwired : p.wired.Serves none := hmaster
  have hcascade : p.wired.pending 2 = (p.slave.request.isSome && !p.master.masked 2) := by
    simp [Chip.pending, Pics.wired, Chip.masked]
  have hother : ∀ ns : List (Fin 8), 2 ∉ ns → ns.find? p.wired.pending =
      ns.find? ((fun line => p.requested line && p.enabled line) ∘ IrqLine.master) := by
    intro ns hns
    refine List.find?_congr fun n hn => ?_
    have hne : n ≠ 2 := fun heq => hns (heq ▸ hn)
    simp [Chip.pending, Pics.wired, Chip.masked, hne, Pics.requested, Pics.enabled]
  have hbelow : (List.finRange 8).find?
      ((fun line => p.requested line && p.enabled line) ∘ IrqLine.slave) =
        if p.master.masked 2 then none else p.slave.request := by
    rw [hslave.request, highest]
    cases hmask : p.master.masked 2 with
    | true => simp [Pics.enabled, hmask]
    | false =>
      refine List.find?_congr fun n _ => ?_
      simp [Chip.pending, Pics.requested, Pics.enabled, hmask]
  rw [Pics.waiting, List.head?_filter, priorityOrder, List.find?_append, List.find?_append,
    List.find?_map, List.find?_map, List.find?_map, hbelow, ← hother [0, 1] (by decide),
    ← hother [3, 4, 5, 6, 7] (by decide), Pics.request, hwired.request, highest_split, hcascade]
  have hdirect : ∀ ns : List (Fin 8), 2 ∉ ns → ((ns.find? p.wired.pending).bind fun n =>
      if n = 2 then p.slave.request.map IrqLine.slave else some (IrqLine.master n)) =
        (ns.find? p.wired.pending).map IrqLine.master := by
    intro ns hns
    cases hfind : ns.find? p.wired.pending with
    | none => rfl
    | some n =>
      have hne : n ≠ 2 := fun heq => hns (heq ▸ List.mem_of_find?_eq_some hfind)
      simp [hne]
  have hlast := hdirect [3, 4, 5, 6, 7] (by decide)
  cases hfirst : List.find? p.wired.pending [0, 1] with
  | some n =>
    have hfront := hdirect [0, 1] (by decide)
    rw [hfirst] at hfront
    simpa using hfront
  | none =>
    cases hrequest : p.slave.request with
    | some n =>
      rw [hrequest] at hlast
      cases hmask : p.master.masked 2 with
      | true => simpa using hlast
      | false => simp
    | none =>
      rw [hrequest] at hlast
      simpa using hlast

/-- What is offered has been requested and is let through. -/
theorem waiting_of_request (h : InService p []) (hrequest : p.request = some line) :
    p.requested line = true ∧ p.enabled line = true ∧ line ≠ .cascade := by
  rw [request_eq h] at hrequest
  obtain ⟨horder, hwaits⟩ := List.mem_filter.1 (List.mem_of_head? hrequest)
  rw [Bool.and_eq_true] at hwaits
  refine ⟨hwaits.1, hwaits.2, ?_⟩
  rintro rfl
  exact absurd horder (by decide)

/-! ## Requests over a run -/

/-- What an event does to the request of a line. -/
theorem requested_step (hinv : s.Inv cardIrq) (hl : l ≠ .cascade) (h : IrqStep cardIrq s e t) :
    t.pics.requested l = (decide (e = .request l) || s.pics.requested l && !decide (e = .interrupt l)) := by
  obtain ⟨line, rfl, -, rfl⟩ | ⟨line, writes, rfl, hidle, -, hwrites, rfl⟩ |
    ⟨port, value, rest, rfl, heoi, rfl⟩ | ⟨irq, rfl, hidle, hirq, rfl⟩ := step_cases h
  · simp [eq_comm]
  · simp [requested_acknowledge hl, eq_comm]
  · have hserv := hinv.service
    rw [heoi] at hserv
    obtain ⟨-, a, b, hout⟩ := hserv.outb
    simp [hout]
  · simp [requested_picUnmaskIrq hinv.masterReady hinv.slaveReady]

/-- A request waits until its line is served. -/
theorem requested_of_run (hinv : s.Inv cardIrq) (hl : l ≠ .cascade)
    (h : Run (IrqStep cardIrq) s events t) (hrequested : s.pics.requested l = true)
    (hserved : .interrupt l ∉ events) : t.pics.requested l = true := by
  induction h with
  | nil => exact hrequested
  | snoc hrun hstep ih =>
    simp only [List.mem_append, List.mem_singleton, not_or] at hserved
    have hmid := hrun.invariant hinv fun _ _ _ hinv hstep => inv_step hinv hstep
    rw [requested_step hmid hl hstep, ih hserved.1]
    simp [Ne.symm hserved.2]

/-- A line is served no more often than it has been requested. -/
theorem count_interrupt_le (hinv : s.Inv cardIrq) (hl : l ≠ .cascade)
    (h : Run (IrqStep cardIrq) s events t) :
    events.count (.interrupt l) + (t.pics.requested l).toNat ≤
      events.count (.request l) + (s.pics.requested l).toNat := by
  induction h with
  | nil => exact le_refl _
  | @snoc mid t events e hrun hstep ih =>
    have hmid := hrun.invariant hinv fun _ _ _ hinv hstep => inv_step hinv hstep
    have hrequest : e = .interrupt l → mid.pics.requested l = true := by
      rintro rfl
      obtain ⟨line, heq, -, -⟩ | ⟨line, writes, heq, hidle, hoffer, -, -⟩ |
        ⟨port, value, rest, heq, -, -⟩ | ⟨irq, heq, -, -, -⟩ := step_cases hstep
      · cases heq
      · cases heq
        have hserv := hmid.service
        rw [hidle] at hserv
        exact (waiting_of_request hserv hoffer).1
      · cases heq
      · cases heq
    have hbefore := ih
    rw [requested_step hmid hl hstep, List.count_append, List.count_append, List.count_singleton,
      List.count_singleton]
    by_cases hint : e = .interrupt l
    · have hnot : e ≠ .request l := by
        rw [hint]
        exact fun h => by cases h
      rw [hrequest hint] at hbefore
      simp [hint] at hbefore ⊢
      omega
    · by_cases hreq : e = .request l
      · have hle : (mid.pics.requested l).toNat ≤ 1 := Bool.toNat_le _
        simp [hreq] at hbefore ⊢
        omega
      · simp [hint, hreq] at hbefore ⊢
        omega

/-! ## Order -/

/-- The first line that waits is taken off the list when it is acknowledged. -/
theorem waiting_acknowledge (h : InService p []) (hrequest : p.request = some line) :
    p.waiting = line :: (p.acknowledge line).waiting := by
  have hhead := request_eq h ▸ hrequest
  obtain ⟨rest, hrest⟩ := List.head?_eq_some_iff.1 hhead
  have hnodup : p.waiting.Nodup := List.Nodup.filter _ (by decide)
  rw [hrest, List.nodup_cons] at hnodup
  have hnext : (p.acknowledge line).waiting = p.waiting.filter fun l => !decide (l = line) := by
    rw [Pics.waiting, Pics.waiting, List.filter_filter]
    refine List.filter_congr fun l hl => ?_
    have hcascade : l ≠ .cascade := by
      rintro rfl
      exact absurd hl (by decide)
    have henabled : (p.acknowledge line).enabled l = p.enabled l := enabled_congr fun _ => masked_acknowledge
    rw [requested_acknowledge hcascade, henabled]
    cases p.requested l <;> cases p.enabled l <;> simp
  have hkeep : rest.filter (fun l => !decide (l = line)) = rest := by
    refine List.filter_eq_self.2 fun l hl => ?_
    have hne : l ≠ line := fun heq => hnodup.1 (heq ▸ hl)
    simp [hne]
  rw [hnext, hrest]
  simp [hkeep]

/-- What waits does not depend on what is in service. -/
theorem waiting_withService (a b : Fin 8 → Bool) : (p.withService a b).waiting = p.waiting := by
  have henabled : ∀ l, (p.withService a b).enabled l = p.enabled l :=
    fun l => enabled_congr fun _ => masked_withService a b
  simp [Pics.waiting, henabled]

/-- Only interrupts and handlers, no new request and no line unmasked. -/
def Quiet (events : List IrqEvent) : Prop := ∀ e ∈ events, e = .eoi ∨ ∃ line, e = .interrupt line

/-- Lines served one after the other. -/
theorem served_append (events more : List IrqEvent) : served (events ++ more) = served events ++ served more :=
  List.filterMap_append ..

/-- Without new requests the lines served are the first of those that wait. -/
theorem served_append_waiting (hinv : s.Inv cardIrq) (h : Run (IrqStep cardIrq) s events t)
    (hquiet : Quiet events) : served events ++ t.pics.waiting = s.pics.waiting := by
  induction h with
  | nil => rfl
  | @snoc mid t events e hrun hstep ih =>
    have hmid := hrun.invariant hinv fun _ _ _ hinv hstep => inv_step hinv hstep
    have hbefore := ih fun e he => hquiet e (List.mem_append_left _ he)
    have hlast := hquiet e (by simp)
    have hserv := hmid.service
    rw [served_append, List.append_assoc, ← hbefore]
    congr 1
    obtain ⟨line, rfl, -, -⟩ | ⟨line, writes, rfl, hidle, hoffer, -, rfl⟩ |
      ⟨port, value, rest, rfl, heoi, rfl⟩ | ⟨irq, rfl, -, -, -⟩ := step_cases hstep
    · simp at hlast
    · rw [hidle] at hserv
      exact (waiting_acknowledge hserv hoffer).symm
    · rw [heoi] at hserv
      obtain ⟨-, a, b, hout⟩ := hserv.outb
      rw [hout, waiting_withService]
      rfl
    · simp at hlast

/-! ## Gates -/

/-- The line of the card has a vector with a gate, or none at all. -/
def HasGates (cardIrq : UInt8) : Prop :=
  if cardIrq < 8 then cardIrq.toNat ≤ 2
  else (cardIrq - 8).toNat % 32 = 2 ∨ (cardIrq - 8).toNat % 32 = 3 ∨ 8 ≤ (cardIrq - 8).toNat % 32

instance : Decidable (HasGates cardIrq) := inferInstanceAs (Decidable (ite ..))

/-- The vectors with a gate. -/
theorem mem_stubVectors {v : ℕ} : v ∈ stubVectors ↔ v < 34 ∨ v = 42 ∨ v = 43 := by
  simp [stubVectors]

/-- An enabled line is one that has been unmasked. -/
theorem unmasks_of_enabled (hinv : s.Inv cardIrq) (h : s.pics.enabled line = true) :
    ∃ irq ∈ unmaskedIrqs cardIrq, unmasks irq line := by
  refine hinv.unmasked line ?_
  rw [enabled_eq, Bool.and_eq_true] at h
  simpa using h.1

/-- Whatever is offered has a gate. -/
theorem gate_of_request (hinv : s.Inv cardIrq) (hgates : HasGates cardIrq) (hidle : s.eoi = [])
    (hrequest : s.pics.request = some line) : (s.pics.vector line).toNat ∈ stubVectors := by
  have hserv := hinv.service
  rw [hidle] at hserv
  obtain ⟨-, henabled, hcascade⟩ := waiting_of_request hserv hrequest
  obtain ⟨irq, hirq, hline⟩ := unmasks_of_enabled hinv henabled
  rw [mem_stubVectors]
  simp only [unmaskedIrqs, List.mem_cons, List.not_mem_nil, or_false] at hirq
  cases line with
  | master n =>
    rw [vector_master hinv.masterBase]
    have hne : (n : ℕ) ≠ 2 := fun h => hcascade (by rw [show n = 2 from Fin.ext h])
    obtain ⟨hlt, hbit⟩ := hline
    rcases hirq with rfl | rfl | rfl | rfl
    · simp at hbit
      omega
    · simp at hbit
      omega
    · exact absurd hlt (by decide)
    · rw [HasGates, if_pos hlt] at hgates
      omega
  | slave n =>
    rw [vector_slave hinv.slaveBase]
    obtain ⟨hge, hbit⟩ := hline
    rcases hirq with rfl | rfl | rfl | rfl
    · exact absurd (by decide) hge
    · exact absurd (by decide) hge
    · have hten : (10 - 8 : UInt8).toNat % 32 = 2 := by decide
      omega
    · rw [HasGates, if_neg hge] at hgates
      omega

/-- As long as every vector has its gate, the handlers come to an end with nothing left waiting. -/
theorem exists_drained (hinv : s.Inv cardIrq) (hgates : HasGates cardIrq) : ∃ events t,
    Run (IrqStep cardIrq) s events t ∧ Quiet events ∧ t.eoi = [] ∧ t.pics.waiting = [] := by
  -- an interrupt takes one line off the list and brings two writes at most
  generalize hk : 3 * s.pics.waiting.length + s.eoi.length = k
  induction k using Nat.strong_induction_on generalizing s with
  | _ k ih =>
    have hnext : ∀ e t, IrqStep cardIrq s e t → (e = .eoi ∨ ∃ line, e = .interrupt line) →
        3 * t.pics.waiting.length + t.eoi.length < k → ∃ events t, Run (IrqStep cardIrq) s events t ∧
          Quiet events ∧ t.eoi = [] ∧ t.pics.waiting = [] := by
      intro e t hstep hquiet hlt
      obtain ⟨events, u, hrun, hrest, hidle, hempty⟩ := ih _ hlt (inv_step hinv hstep) rfl
      refine ⟨e :: events, u, .cons hstep hrun, fun e' he' => ?_, hidle, hempty⟩
      rcases List.mem_cons.1 he' with rfl | he'
      · exact hquiet
      · exact hrest e' he'
    have hserv := hinv.service
    cases heoi : s.eoi with
    | cons write rest =>
      obtain ⟨port, value⟩ := write
      rw [heoi] at hserv hk
      obtain ⟨-, a, b, hout⟩ := hserv.outb
      refine hnext .eoi ⟨s.pics.outb port value, rest⟩ (by rw [IrqStep, Serving.step, heoi]) (.inl rfl) ?_
      rw [hout, waiting_withService]
      simp only [List.length_cons] at hk ⊢
      omega
    | nil =>
      rw [heoi] at hserv hk
      cases hwaiting : s.pics.waiting with
      | nil => exact ⟨[], s, .nil s, fun e he => absurd he List.not_mem_nil, heoi, hwaiting⟩
      | cons line rest =>
        have hrequest : s.pics.request = some line := by rw [request_eq hserv, hwaiting, List.head?_cons]
        have hrest := waiting_acknowledge hserv hrequest
        have hgate := gate_of_request hinv hgates heoi hrequest
        obtain ⟨writes, hwrites, hlen⟩ : ∃ writes, isrHandlerEoi (s.pics.vector line) = some writes ∧
            writes.length ≤ 2 := by
          cases line with
          | master n => exact ⟨_, isrHandlerEoi_master hinv.masterBase, by decide⟩
          | slave n => exact ⟨_, isrHandlerEoi_slave hinv.slaveBase, by decide⟩
        refine hnext (.interrupt line) ⟨s.pics.acknowledge line, writes⟩ ?_ (.inr ⟨line, rfl⟩) ?_
        · rw [IrqStep, Serving.step, if_pos ⟨heoi, hrequest, hgate⟩, hwrites]
          rfl
        · rw [hrest] at hk
          simp only [List.length_cons, List.length_nil] at hk ⊢
          omega

/-! ## Runs of the kernel -/

/-- In every run, however the devices request and the handlers are delayed: when no handler runs,
nothing is in service and the first waiting line is offered. A request waits until its line is
served, and no line is served more often than it has been requested. -/
theorem interrupts_of_run (hmaster : p.master.icw = .ready) (hslave : p.slave.icw = .ready)
    (h : Run (IrqStep cardIrq) (Serving.start p) events s) :
    (s.eoi = [] → (∀ n, s.pics.master.inService n = false ∧ s.pics.slave.inService n = false) ∧
      s.pics.request = s.pics.waiting.head?) ∧
    ∀ line, line ≠ .cascade →
      (∀ before after, events = before ++ .request line :: after → .interrupt line ∉ after →
        s.pics.requested line = true) ∧
      events.count (.interrupt line) ≤ events.count (.request line) := by
  have hstart := @inv_start cardIrq p hmaster hslave
  have hinv := inv_of_run hmaster hslave h
  refine ⟨fun hidle => ?_, fun line hline => ⟨?_, ?_⟩⟩
  · have hserv := hinv.service
    rw [hidle] at hserv
    refine ⟨fun n => ?_, request_eq hserv⟩
    cases hserv with
    | idle hm hs => exact ⟨hm n, hs n⟩
  · rintro before after rfl hserved
    obtain ⟨mid, hbefore, hrest⟩ := h.split
    obtain ⟨t, hstep, hlast⟩ := hrest.uncons
    have hmid := inv_of_run hmaster hslave hbefore
    have ht := inv_step hmid hstep
    refine requested_of_run ht hline hlast ?_ hserved
    rw [requested_step hmid hline hstep]
    simp
  · have hnone : (Serving.start p).pics.requested line = false := by
      rw [start_eq hmaster hslave]
      cases line <;> rfl
    have hle := count_interrupt_le hstart hline h
    rw [hnone] at hle
    simp only [Bool.toNat_false] at hle
    omega

/-- The controllers as a BIOS leaves them. -/
def biosPics : Pics := ⟨Chip.shut 0x08, Chip.shut 0x70⟩

/-- The keyboard is unmasked, a key pressed, its interrupt taken, and a second key pressed before the
handler has come to its end. -/
def keyEvents : List IrqEvent :=
  [.unmask 1, .request .keyboard, .interrupt .keyboard, .request .keyboard, .eoi]

/-- The two keys make a run, and no handler is left. -/
theorem run_of_keys :
    ∃ s, Run (IrqStep 11) (Serving.start biosPics) keyEvents s ∧ s.eoi = [] ∧
      s.pics.waiting = [.keyboard] :=
  ⟨_, .cons rfl (.cons rfl (.cons rfl (.cons rfl (.cons rfl (.nil _))))), rfl, by decide +kernel⟩

/-- The second key still waits and is offered. -/
theorem interrupts_of_run_key : ∃ s, Run (IrqStep 11) (Serving.start biosPics) keyEvents s ∧
    (∀ n, s.pics.master.inService n = false ∧ s.pics.slave.inService n = false) ∧
    s.pics.request = some .keyboard ∧ s.pics.requested .keyboard = true ∧
    keyEvents.count (.interrupt .keyboard) ≤ keyEvents.count (.request .keyboard) := by
  obtain ⟨s, hrun, hidle, hwaiting⟩ := run_of_keys
  obtain ⟨hall, hline⟩ := interrupts_of_run rfl rfl hrun
  obtain ⟨hservice, hrequest⟩ := hall hidle
  obtain ⟨hkept, hcount⟩ := hline .keyboard (by decide)
  rw [hwaiting] at hrequest
  exact ⟨s, hrun, hservice, hrequest,
    hkept [.unmask 1, .request .keyboard, .interrupt .keyboard] [.eoi] rfl (by decide), hcount⟩

/-- Every line but the cascade has its place. -/
theorem mem_priorityOrder (hne : line ≠ .cascade) : line ∈ priorityOrder := by
  have hmaster : ∀ n : Fin 8, IrqLine.master n ≠ .master 2 → IrqLine.master n ∈ priorityOrder := by decide
  have hslave : ∀ n : Fin 8, IrqLine.slave n ∈ priorityOrder := by decide
  cases line with
  | master n => exact hmaster n hne
  | slave n => exact hslave n

/-- A line nobody has requested before is offered once it alone is requested. -/
theorem request_of_only (h : InService p []) (hrequested : ∀ l ∈ priorityOrder, p.requested l = decide (l = line))
    (henabled : p.enabled line = true) (hmem : line ∈ priorityOrder) : p.request = some line := by
  rw [request_eq h, Pics.waiting, List.head?_filter]
  have hcongr : priorityOrder.find? (fun l => p.requested l && p.enabled l) =
      priorityOrder.find? fun l => decide (l = line) := by
    refine List.find?_congr fun l hl => ?_
    rw [hrequested l hl]
    by_cases heq : l = line
    · rw [heq, henabled]
      simp
    · simp [heq]
  have hself : ∀ line ∈ priorityOrder, priorityOrder.find? (fun l => decide (l = line)) = some line := by
    decide
  rw [hcongr, hself line hmem]

/-- The line of the card is offered in some run. -/
theorem offered_of_unmasks (hmaster : p.master.icw = .ready) (hslave : p.slave.icw = .ready)
    (hline : unmasks cardIrq line) (hne : line ≠ .cascade) : ∃ events s,
      Run (IrqStep cardIrq) (Serving.start p) events s ∧ s.eoi = [] ∧ s.pics.request = some line ∧
        s.Inv cardIrq := by
  rw [start_eq hmaster hslave]
  generalize hshut : (⟨Chip.shut 32, Chip.shut 40⟩ : Pics) = q
  have hqm : q.master.icw = .ready := by rw [← hshut]; rfl
  have hqs : q.slave.icw = .ready := by rw [← hshut]; rfl
  obtain ⟨a, b, hfirst⟩ := @picUnmaskIrq_eq 2 q hqm hqs
  have hfm : (picUnmaskIrq 2 q).master.icw = .ready := by rw [hfirst, hqm]
  have hfs : (picUnmaskIrq 2 q).slave.icw = .ready := by rw [hfirst, hqs]
  have hrun : Run (IrqStep cardIrq) ⟨q, []⟩ [.unmask 2, .unmask cardIrq, .request line]
      ⟨(picUnmaskIrq cardIrq (picUnmaskIrq 2 q)).raise line, []⟩ := by
    refine .cons (t := ⟨picUnmaskIrq 2 q, []⟩) ?_ (.cons (t := ⟨picUnmaskIrq cardIrq (picUnmaskIrq 2 q), []⟩) ?_
      (.single ?_))
    · simp [IrqStep, Serving.step, unmaskedIrqs]
    · simp [IrqStep, Serving.step, unmaskedIrqs]
    · simp [IrqStep, Serving.step, hne]
  have hinv : (⟨(picUnmaskIrq cardIrq (picUnmaskIrq 2 q)).raise line, []⟩ : Serving).Inv cardIrq := by
    refine hrun.invariant ?_ fun _ _ _ hinv hstep => inv_step hinv hstep
    rw [← hshut, ← start_eq hmaster hslave]
    exact inv_start hmaster hslave
  refine ⟨_, _, hrun, rfl, request_of_only hinv.service ?_ ?_ ?_, hinv⟩
  · intro l hl
    have hnone : q.requested l = false := by
      rw [← hshut]
      cases l <;> rfl
    rw [requested_raise, requested_picUnmaskIrq hfm hfs, requested_picUnmaskIrq hqm hqs, hnone, Bool.or_false]
  · have hcascade : (picUnmaskIrq cardIrq (picUnmaskIrq 2 q)).masked (.master 2) = false :=
      (masked_picUnmaskIrq hfm hfs _).2 (.inl ((masked_picUnmaskIrq hqm hqs _).2 (.inr ⟨by decide, by decide⟩)))
    have hopen : (picUnmaskIrq cardIrq (picUnmaskIrq 2 q)).masked line = false :=
      (masked_picUnmaskIrq hfm hfs _).2 (.inr hline)
    rw [enabled_eq, masked_raise, masked_raise, hopen, hcascade]
    cases line <;> simp
  · exact mem_priorityOrder hne

/-- Without gates for the card a run comes to a line that is offered and has none. -/
theorem exists_offered_without_gate (hmaster : p.master.icw = .ready) (hslave : p.slave.icw = .ready)
    (hbad : ¬ HasGates cardIrq) : ∃ events s line,
      Run (IrqStep cardIrq) (Serving.start p) events s ∧ s.eoi = [] ∧ s.pics.request = some line ∧
        (s.pics.vector line).toNat ∉ stubVectors := by
  rw [HasGates] at hbad
  split at hbad
  · next hlt =>
    have hsmall : cardIrq.toNat < 8 := hlt
    have hne : IrqLine.master ⟨cardIrq.toNat, hsmall⟩ ≠ .master 2 := by
      intro heq
      have hval : cardIrq.toNat = 2 := congrArg Fin.val (IrqLine.master.inj heq)
      omega
    have hline : unmasks cardIrq (.master ⟨cardIrq.toNat, hsmall⟩) :=
      ⟨hlt, Nat.mod_eq_of_lt (by omega)⟩
    obtain ⟨events, s, hrun, hidle, hrequest, hinv⟩ := offered_of_unmasks hmaster hslave hline hne
    refine ⟨events, s, _, hrun, hidle, hrequest, fun hgate => ?_⟩
    rw [vector_master hinv.masterBase, mem_stubVectors] at hgate
    dsimp only at hgate
    omega
  · next hge =>
    have hsmall : (cardIrq - 8).toNat % 32 < 8 := by omega
    have hline : unmasks cardIrq (.slave ⟨(cardIrq - 8).toNat % 32, hsmall⟩) := ⟨hge, rfl⟩
    obtain ⟨events, s, hrun, hidle, hrequest, hinv⟩ :=
      offered_of_unmasks hmaster hslave hline fun heq => by cases heq
    refine ⟨events, s, _, hrun, hidle, hrequest, fun hgate => ?_⟩
    rw [vector_slave hinv.slaveBase, mem_stubVectors] at hgate
    dsimp only at hgate
    omega

/-- In every run every line that is offered has a gate in the table, exactly when the card's interrupt
line is 0 to 2, or one that `pic_unmask_irq` maps to 10, 11 or to no line. -/
theorem offered_gate_iff (hmaster : p.master.icw = .ready) (hslave : p.slave.icw = .ready) :
    (∀ events s line, Run (IrqStep cardIrq) (Serving.start p) events s → s.eoi = [] →
      s.pics.request = some line → (s.pics.vector line).toNat ∈ stubVectors) ↔ HasGates cardIrq := by
  constructor
  · intro hall
    by_contra hbad
    obtain ⟨events, s, line, hrun, hidle, hrequest, hgate⟩ :=
      exists_offered_without_gate hmaster hslave hbad
    exact hgate (hall events s line hrun hidle hrequest)
  · intro hgates events s line hrun hidle hrequest
    exact gate_of_request (inv_of_run hmaster hslave hrun) hgates hidle hrequest

/-- A card on line 11. -/
theorem offered_gate_iff_eleven : HasGates 11 ∧ ∀ events s line,
    Run (IrqStep 11) (Serving.start biosPics) events s → s.eoi = [] → s.pics.request = some line →
      (s.pics.vector line).toNat ∈ stubVectors :=
  ⟨by decide, (offered_gate_iff rfl rfl).2 (by decide)⟩

/-! ## Serving what waits -/

/-- Where the line that is offered has no gate, nothing more is served. -/
theorem not_step_of_no_gate (hidle : s.eoi = []) (hrequest : s.pics.request = some line)
    (hgate : (s.pics.vector line).toNat ∉ stubVectors)
    (hquiet : e = .eoi ∨ ∃ line, e = .interrupt line) : ¬ IrqStep cardIrq s e t := by
  rcases hquiet with rfl | ⟨other, rfl⟩
  · simp [IrqStep, Serving.step, hidle]
  · intro hstep
    rw [IrqStep, Serving.step, Option.ite_none_right_eq_some] at hstep
    obtain ⟨⟨-, hother, hmem⟩, -⟩ := hstep
    obtain rfl := Option.some.inj (hrequest.symm.trans hother)
    exact hgate hmem

/-- Such a line waits for ever. -/
theorem waiting_of_no_gate (hinv : s.Inv cardIrq) (hidle : s.eoi = [])
    (hrequest : s.pics.request = some line) (hgate : (s.pics.vector line).toNat ∉ stubVectors)
    (h : Run (IrqStep cardIrq) s events t) (hquiet : Quiet events) : t.pics.waiting ≠ [] := by
  cases events with
  | cons e events =>
    obtain ⟨mid, hstep, -⟩ := h.uncons
    exact absurd hstep (not_step_of_no_gate hidle hrequest hgate (hquiet e List.mem_cons_self))
  | nil =>
    obtain rfl : s = t := h.eq_of_nil
    have hserv := hinv.service
    rw [hidle] at hserv
    rw [request_eq hserv] at hrequest
    intro hempty
    rw [hempty] at hrequest
    cases hrequest

/-- As long as nothing new is requested the lines that wait are served in the order of their priority,
each of them once, whatever came before: the lines 0 and 1, those of the slave, the rest of the
master. That the serving can be brought to its end, however far it has come, holds of every run
exactly when every line the card may unmask has its gate. -/
theorem served_in_order (hmaster : p.master.icw = .ready) (hslave : p.slave.icw = .ready) :
    (∀ events s more t, Run (IrqStep cardIrq) (Serving.start p) events s →
      Run (IrqStep cardIrq) s more t → Quiet more → served more <+: s.pics.waiting) ∧
    ((∀ events s more t, Run (IrqStep cardIrq) (Serving.start p) events s →
      Run (IrqStep cardIrq) s more t → Quiet more → ∃ rest u, Run (IrqStep cardIrq) t rest u ∧
        Quiet rest ∧ u.eoi = [] ∧ u.pics.waiting = [] ∧ served (more ++ rest) = s.pics.waiting) ↔
      HasGates cardIrq) := by
  refine ⟨fun events s more t h hmore hquiet => ?_, fun hall => ?_,
    fun hgates events s more t h hmore hquiet => ?_⟩
  · exact ⟨_, served_append_waiting (inv_of_run hmaster hslave h) hmore hquiet⟩
  · by_contra hbad
    obtain ⟨events, s, line, hrun, hidle, hrequest, hgate⟩ :=
      exists_offered_without_gate hmaster hslave hbad
    obtain ⟨rest, u, hrest, hquiet, -, hempty, -⟩ := hall events s [] s hrun (.nil s)
      fun e he => absurd he List.not_mem_nil
    exact waiting_of_no_gate (inv_of_run hmaster hslave hrun) hidle hrequest hgate hrest hquiet hempty
  · have hinv := inv_of_run hmaster hslave h
    have ht := hmore.invariant hinv fun _ _ _ hinv hstep => inv_step hinv hstep
    have hserved := served_append_waiting hinv hmore hquiet
    obtain ⟨rest, u, hrest, hquietRest, hidle, hempty⟩ := exists_drained ht hgates
    refine ⟨rest, u, hrest, hquietRest, hidle, hempty, ?_⟩
    have hlast := served_append_waiting ht hrest hquietRest
    rw [hempty, List.append_nil] at hlast
    rw [served_append, hlast, hserved]

/-- After the two keys the second one is served, and that is all. -/
theorem served_in_order_key : ∃ s, Run (IrqStep 11) (Serving.start biosPics) keyEvents s ∧
    ∃ rest u, Run (IrqStep 11) s rest u ∧ u.eoi = [] ∧ u.pics.waiting = [] ∧
      served rest = [.keyboard] := by
  obtain ⟨s, hrun, -, hwaiting⟩ := run_of_keys
  obtain ⟨rest, u, hrest, -, hidle, hempty, hserved⟩ :=
    (served_in_order rfl rfl).2.2 (by decide) keyEvents s [] s hrun (.nil s)
      fun e he => absurd he List.not_mem_nil
  rw [List.nil_append, hwaiting] at hserved
  exact ⟨s, hrun, rest, u, hrest, hidle, hempty, hserved⟩

end Orionis.Cpu
