import Orionis.Foundations.WordStack

/-!
# Interrupt stubs

`isr_asm.asm` saves the registers on the stack of the interrupted program, hands `isr_handler` their
address, and restores them. A handler that leaves the saved frame alone is invisible to the program:
it goes on with every register as it was.
-/

namespace Orionis.Cpu

open Orionis.Foundations

/-! ## The processor -/

/-- The general registers but the stack pointer. -/
inductive Reg
  | rax | rbx | rcx | rdx | rsi | rdi | rbp | r8 | r9 | r10 | r11 | r12 | r13 | r14 | r15
  deriving DecidableEq, Repr

/-- A processor in long mode. Within a stub the instruction pointer is the place in its list. -/
structure Processor where
  gpr : Reg → UInt64
  rip : UInt64
  cs : UInt64
  rflags : UInt64
  rsp : ℕ
  ss : UInt64
  mem : Memory

/-- The instructions of the stubs. -/
inductive Instr
  | cli
  | pushByte (value : UInt64)
  | push (r : Reg)
  | pop (r : Reg)
  | movRdiRsp
  | callIsrHandler
  | addRsp (n : ℕ)
  | iretq
  deriving DecidableEq, Repr

/-- The stack pointer `n` bytes lower, on 64 bits. -/
def lower (rsp n : ℕ) : ℕ := (rsp + 2 ^ 64 - n) % 2 ^ 64

/-- Push a word. -/
def Processor.pushWord (s : Processor) (w : UInt64) : Processor :=
  { s with mem := storeLE s.mem 8 (lower s.rsp 8) w.toNat, rsp := lower s.rsp 8 }

/-- One instruction. The call and the return from it are left to `isrHandler`. -/
def Processor.exec (isrHandler : Processor → Processor) (s : Processor) : Instr → Processor
  | .cli => { s with rflags := s.rflags &&& ~~~0x200 }
  | .pushByte value => s.pushWord value
  | .push r => s.pushWord (s.gpr r)
  | .pop r =>
    { s with gpr := Function.update s.gpr r (loadWord s.mem s.rsp), rsp := (s.rsp + 8) % 2 ^ 64 }
  | .movRdiRsp => { s with gpr := Function.update s.gpr .rdi (UInt64.ofNat s.rsp) }
  | .callIsrHandler => isrHandler s
  | .addRsp n => { s with rsp := (s.rsp + n) % 2 ^ 64 }
  | .iretq =>
    { s with
      rip := loadWord s.mem s.rsp
      cs := loadWord s.mem (s.rsp + 8)
      rflags := loadWord s.mem (s.rsp + 16)
      rsp := (loadWord s.mem (s.rsp + 24)).toNat
      ss := loadWord s.mem (s.rsp + 32) }

/-- Instructions in a row. -/
def Processor.run (isrHandler : Processor → Processor) (s : Processor) (code : List Instr) : Processor :=
  code.foldl (Processor.exec isrHandler) s

/-- What the processor does with an interrupt through a gate of the same privilege: the stack is
aligned, the state of the program is pushed, with an error code for some exceptions, and the flags
IF, TF, NT and RF are cleared. -/
def Processor.deliver (s : Processor) (base sel : UInt64) (errCode : Option UInt64) : Processor :=
  let words := [s.ss, UInt64.ofNat s.rsp, s.rflags, s.cs, s.rip] ++ errCode.toList
  let rsp := s.rsp / 16 * 16
  { s with
    mem := pushWords s.mem rsp words
    rsp := lower rsp (8 * words.length)
    rip := base
    cs := sel
    rflags := s.rflags &&& ~~~0x14300 }

/-! ## The source -/

/-- Vectors whose stub is an `ISR_ERR_CODE`. -/
def errCodeVectors : List ℕ := [8, 10, 11, 12, 13, 14, 17]

/-- The registers in the order `isr_common_stub` pushes them. -/
def savedRegs : List Reg :=
  [.rax, .rbx, .rcx, .rdx, .rsi, .rdi, .rbp, .r8, .r9, .r10, .r11, .r12, .r13, .r14, .r15]

/-- `isr_common_stub`. -/
def isrCommonStub : List Instr :=
  [.push .rax, .push .rbx, .push .rcx, .push .rdx, .push .rsi, .push .rdi, .push .rbp, .push .r8,
    .push .r9, .push .r10, .push .r11, .push .r12, .push .r13, .push .r14, .push .r15,
    .movRdiRsp, .callIsrHandler,
    .pop .r15, .pop .r14, .pop .r13, .pop .r12, .pop .r11, .pop .r10, .pop .r9, .pop .r8,
    .pop .rbp, .pop .rdi, .pop .rsi, .pop .rdx, .pop .rcx, .pop .rbx, .pop .rax,
    .addRsp 16, .iretq]

/-- `ISR_ERR_CODE` and `ISR_NO_ERR_CODE`, which jump to the common stub. -/
def isr (vector : ℕ) : List Instr :=
  (if vector ∈ errCodeVectors then [.cli, .pushByte (UInt64.ofNat vector)]
    else [.cli, .pushByte 0, .pushByte (UInt64.ofNat vector)]) ++ isrCommonStub

/-- `registers_t`. -/
structure Registers where
  gpr : Reg → UInt64
  intNo : UInt64
  errCode : UInt64
  rip : UInt64
  cs : UInt64
  rflags : UInt64
  userrsp : UInt64
  ss : UInt64

/-- Its fields in memory. -/
def Registers.words (r : Registers) : List UInt64 :=
  [r.gpr .r15, r.gpr .r14, r.gpr .r13, r.gpr .r12, r.gpr .r11, r.gpr .r10, r.gpr .r9, r.gpr .r8,
    r.gpr .rbp, r.gpr .rdi, r.gpr .rsi, r.gpr .rdx, r.gpr .rcx, r.gpr .rbx, r.gpr .rax,
    r.intNo, r.errCode, r.rip, r.cs, r.rflags, r.userrsp, r.ss]

/-- The interrupt as the program sees it: delivery and stub. -/
def Processor.interrupt (isrHandler : Processor → Processor) (s : Processor) (vector : ℕ) (base sel : UInt64)
    (errCode : Option UInt64) : Processor :=
  (s.deliver base sel errCode).run isrHandler (isr vector)

variable {isrHandler : Processor → Processor} {s t : Processor} {vector : ℕ} {base sel : UInt64}
  {errCode : Option UInt64} {code rest : List Instr} {regs : List Reg} {words : List UInt64}

/-! ## Runs of pushes and pops -/

/-- Code one after the other. -/
theorem run_append : s.run isrHandler (code ++ rest) = (s.run isrHandler code).run isrHandler rest :=
  List.foldl_append

/-- With room on the stack its pointer does not wrap. -/
theorem lower_eq {rsp n : ℕ} (hroom : n ≤ rsp) (hlt : rsp < 2 ^ 64) : lower rsp n = rsp - n := by
  rw [lower]
  omega

/-- Words pushed one after the other. -/
def Processor.pushAll (s : Processor) (words : List UInt64) : Processor :=
  { s with mem := pushWords s.mem s.rsp words, rsp := s.rsp - 8 * words.length }

/-- Words pushed one after the other. -/
theorem Processor.pushAll_pushAll (s : Processor) (words more : List UInt64) :
    (s.pushAll words).pushAll more = s.pushAll (words ++ more) := by
  simp only [pushAll, pushWords_append, List.length_append]
  rw [Nat.sub_sub, Nat.mul_add]

/-- One word pushed. -/
theorem Processor.pushWord_eq (w : UInt64) (hroom : 8 ≤ s.rsp) (hlt : s.rsp < 2 ^ 64) :
    s.pushWord w = s.pushAll [w] := by
  rw [pushWord, pushAll, lower_eq hroom hlt]
  rfl

/-- Pushing registers one by one pushes their values. -/
theorem run_push (hroom : 8 * regs.length ≤ s.rsp) (hlt : s.rsp < 2 ^ 64) :
    s.run isrHandler (regs.map Instr.push) = s.pushAll (regs.map s.gpr) := by
  induction regs generalizing s with
  | nil => rfl
  | cons r regs ih =>
    rw [List.length_cons] at hroom
    have hfirst : s.exec isrHandler (.push r) = s.pushAll [s.gpr r] :=
      s.pushWord_eq (s.gpr r) (by omega) hlt
    have hrsp : (s.pushAll [s.gpr r]).rsp = s.rsp - 8 := rfl
    rw [List.map_cons, Processor.run, List.foldl_cons, ← Processor.run, hfirst, ih (by omega) (by omega),
      Processor.pushAll_pushAll]
    rfl

/-- Popping registers from words they were pushed as. -/
theorem run_pop {saved : Reg → UInt64} (h : WordsAt s.mem s.rsp (regs.map saved))
    (hlt : s.rsp + 8 * regs.length < 2 ^ 64) :
    s.run isrHandler (regs.map Instr.pop) =
      { s with
        gpr := fun r => if r ∈ regs then saved r else s.gpr r
        rsp := s.rsp + 8 * regs.length } := by
  induction regs generalizing s with
  | nil => simp [Processor.run]
  | cons r regs ih =>
    rw [List.length_cons] at hlt
    obtain ⟨hword, hrest⟩ := h
    have hnext : (s.rsp + 8) % 2 ^ 64 = s.rsp + 8 := Nat.mod_eq_of_lt (by omega)
    have hfirst : s.exec isrHandler (.pop r) =
        { s with gpr := Function.update s.gpr r (saved r), rsp := s.rsp + 8 } := by
      rw [Processor.exec, hword, hnext]
    rw [List.map_cons, Processor.run, List.foldl_cons, ← Processor.run, hfirst, ih hrest (by dsimp only; omega)]
    simp only [List.length_cons]
    congr 1
    · funext q
      by_cases hq : q = r
      · subst hq
        simp
      · simp [hq, Function.update_of_ne]
    · omega

/-! ## An interrupt -/

/-- The registers of the program, as the handler is to see them. -/
def Processor.registers (s : Processor) (vector : ℕ) (errCode : Option UInt64) : Registers :=
  ⟨s.gpr, UInt64.ofNat vector, errCode.getD 0, s.rip, s.cs, s.rflags, UInt64.ofNat s.rsp, s.ss⟩

/-- The processor when `isr_handler` is called. -/
def Processor.entered (s : Processor) (vector : ℕ) (base sel : UInt64) (errCode : Option UInt64) :
    Processor where
  gpr := Function.update s.gpr .rdi (UInt64.ofNat (s.rsp / 16 * 16 - 176))
  rip := base
  cs := sel
  rflags := s.rflags &&& ~~~0x14300 &&& ~~~0x200
  rsp := s.rsp / 16 * 16 - 176
  ss := s.ss
  mem := pushWords s.mem (s.rsp / 16 * 16) (s.registers vector errCode).words.reverse

/-- The stub saves the registers, calls the handler, and restores them in reverse. -/
theorem isrCommonStub_eq : isrCommonStub = savedRegs.map Instr.push ++ ([.movRdiRsp, .callIsrHandler] ++
    (savedRegs.reverse.map Instr.pop ++ [.addRsp 16, .iretq])) := rfl

/-- The processor with the flags of a gate, on an aligned stack. -/
def Processor.gated (s : Processor) (base sel rflags : UInt64) : Processor :=
  { s with rip := base, cs := sel, rflags := rflags, rsp := s.rsp / 16 * 16 }

/-- The processor pushes its frame and leaves for the gate. -/
theorem deliver_eq (hroom : 192 ≤ s.rsp) (hlt : s.rsp < 2 ^ 64) : s.deliver base sel errCode =
    (s.gated base sel (s.rflags &&& ~~~0x14300)).pushAll
      ([s.ss, UInt64.ofNat s.rsp, s.rflags, s.cs, s.rip] ++ errCode.toList) := by
  have hlen : errCode.toList.length ≤ 1 := by cases errCode <;> simp
  have hwords : 8 * ([s.ss, UInt64.ofNat s.rsp, s.rflags, s.cs, s.rip] ++ errCode.toList).length ≤
      s.rsp / 16 * 16 := by
    rw [List.length_append]
    simp only [List.length_cons, List.length_nil]
    omega
  rw [Processor.deliver, lower_eq hwords (by omega)]
  rfl

/-- `cli` clears the interrupt flag. -/
theorem exec_cli (rflags : UInt64) : ((s.gated base sel rflags).pushAll words).exec isrHandler .cli =
    (s.gated base sel (rflags &&& ~~~0x200)).pushAll words := rfl

/-- A stub pushes its number. -/
theorem exec_pushByte (value : UInt64) (hroom : 8 * words.length + 8 ≤ s.rsp) (hlt : s.rsp < 2 ^ 64) :
    (s.pushAll words).exec isrHandler (.pushByte value) = s.pushAll (words ++ [value]) := by
  have hrsp : (s.pushAll words).rsp = s.rsp - 8 * words.length := rfl
  rw [Processor.exec, Processor.pushWord_eq _ (by omega) (by omega), Processor.pushAll_pushAll]

/-- Delivery and the pushes of the stub. The processor pushes an error code where the stub leaves
one out. -/
theorem deliver_entry (hkind : errCode.isSome = true ↔ vector ∈ errCodeVectors)
    (hroom : 192 ≤ s.rsp) (hlt : s.rsp < 2 ^ 64) :
    (s.deliver base sel errCode).run isrHandler (if vector ∈ errCodeVectors then
        [.cli, .pushByte (UInt64.ofNat vector)]
      else [.cli, .pushByte 0, .pushByte (UInt64.ofNat vector)]) =
    (s.gated base sel (s.rflags &&& ~~~0x14300 &&& ~~~0x200)).pushAll
      [s.ss, UInt64.ofNat s.rsp, s.rflags, s.cs, s.rip, errCode.getD 0, UInt64.ofNat vector] := by
  have hgated : ∀ rflags, (s.gated base sel rflags).rsp = s.rsp / 16 * 16 := fun _ => rfl
  rw [deliver_eq hroom hlt]
  cases errCode with
  | none =>
    have hvector : vector ∉ errCodeVectors := mt hkind.2 (by simp)
    rw [if_neg hvector, Processor.run, List.foldl_cons, List.foldl_cons, List.foldl_cons, List.foldl_nil,
      exec_cli, exec_pushByte _ (by simp [hgated]; omega) (by rw [hgated]; omega),
      exec_pushByte _ (by simp [hgated]; omega) (by rw [hgated]; omega)]
    rfl
  | some code =>
    have hvector : vector ∈ errCodeVectors := hkind.1 rfl
    rw [if_pos hvector, Processor.run, List.foldl_cons, List.foldl_cons, List.foldl_nil,
      exec_cli, exec_pushByte _ (by simp [hgated]; omega) (by rw [hgated]; omega)]
    rfl

/-- Up to the call of the handler, and what is left behind it. -/
theorem interrupt_eq (hkind : errCode.isSome = true ↔ vector ∈ errCodeVectors)
    (hroom : 192 ≤ s.rsp) (hlt : s.rsp < 2 ^ 64) :
    s.interrupt isrHandler vector base sel errCode =
      (isrHandler (s.entered vector base sel errCode)).run isrHandler
        (savedRegs.reverse.map Instr.pop ++ [.addRsp 16, .iretq]) := by
  rw [Processor.interrupt, isr, run_append, deliver_entry hkind hroom hlt, isrCommonStub_eq,
    run_append, @run_append _ _ [.movRdiRsp, .callIsrHandler]]
  generalize hg : s.gated base sel (s.rflags &&& ~~~0x14300 &&& ~~~0x200) = g
  have hgated : g.rsp = s.rsp / 16 * 16 := by rw [← hg]; rfl
  have hgpr : g.gpr = s.gpr := by rw [← hg]; rfl
  generalize hw : [s.ss, UInt64.ofNat s.rsp, s.rflags, s.cs, s.rip, errCode.getD 0,
    UInt64.ofNat vector] = words
  have hlen : words.length = 7 := by rw [← hw]; rfl
  have hrsp : (g.pushAll words).rsp = s.rsp / 16 * 16 - 56 := by
    rw [Processor.pushAll, hgated, hlen]
  have hregs : savedRegs.length = 15 := rfl
  have hframe : words ++ savedRegs.map g.gpr = (s.registers vector errCode).words.reverse := by
    rw [← hw, hgpr]
    rfl
  rw [run_push (by omega) (by omega), Processor.pushAll_pushAll,
    show (g.pushAll words).gpr = g.gpr from rfl, hframe]
  have hdepth : 8 * (s.registers vector errCode).words.reverse.length = 176 := rfl
  have hentered : (g.pushAll (s.registers vector errCode).words.reverse).exec isrHandler .movRdiRsp =
      s.entered vector base sel errCode := by
    rw [Processor.exec, Processor.pushAll, hdepth, hgpr, hgated, ← hg, Processor.gated, Processor.entered]
  rw [show (g.pushAll (s.registers vector errCode).words.reverse).run isrHandler
    [.movRdiRsp, .callIsrHandler] = isrHandler ((g.pushAll (s.registers vector errCode).words.reverse).exec
      isrHandler .movRdiRsp) from rfl, hentered]

/-- The saved registers, on top of the stack at the call. -/
theorem entered_words (hroom : 192 ≤ s.rsp) : WordsAt (s.entered vector base sel errCode).mem
    (s.entered vector base sel errCode).rsp (s.registers vector errCode).words := by
  have hdepth : (s.registers vector errCode).words.reverse.length = 22 := rfl
  have hwords := @wordsAt_pushWords s.mem (s.rsp / 16 * 16) (s.registers vector errCode).words.reverse
    (by omega)
  rwa [List.reverse_reverse, hdepth] at hwords

/-- The last two instructions take the vector and the error code off the stack and go back. -/
theorem run_leave {vectorWord errWord : UInt64} (h : WordsAt t.mem t.rsp
      [vectorWord, errWord, s.rip, s.cs, s.rflags, UInt64.ofNat s.rsp, s.ss])
    (hlt : s.rsp < 2 ^ 64) (htop : t.rsp + 56 < 2 ^ 64) :
    t.run isrHandler [.addRsp 16, .iretq] =
      { t with rip := s.rip, cs := s.cs, rflags := s.rflags, rsp := s.rsp, ss := s.ss } := by
  obtain ⟨-, -, hrip, hcs, hrflags, hrsp, hss, -⟩ := h
  have hnext : (t.rsp + 16) % 2 ^ 64 = t.rsp + 16 := Nat.mod_eq_of_lt (by omega)
  simp only [Nat.add_assoc, Nat.reduceAdd] at hrip hcs hrflags hrsp hss
  simp only [Processor.run, List.foldl_cons, List.foldl_nil, Processor.exec, hnext, Nat.add_assoc,
    Nat.reduceAdd, hrip, hcs, hrflags, hrsp, hss]
  rw [UInt64.toNat_ofNat', Nat.mod_eq_of_lt hlt]

/-- The handler gives back the stack pointer and leaves the saved frame as it was. -/
def KeepsFrame (isrHandler : Processor → Processor) (e : Processor) : Prop :=
  (isrHandler e).rsp = e.rsp ∧ ∀ x, e.rsp ≤ x → x < e.rsp + 176 → (isrHandler e).mem x = e.mem x

/-- A handler that keeps the frame is invisible to the interrupted program. -/
theorem interrupt_transparent (hkind : errCode.isSome = true ↔ vector ∈ errCodeVectors)
    (hroom : 192 ≤ s.rsp) (hlt : s.rsp < 2 ^ 64)
    (hkeeps : KeepsFrame isrHandler (s.entered vector base sel errCode)) :
    s.interrupt isrHandler vector base sel errCode =
      { s with mem := (isrHandler (s.entered vector base sel errCode)).mem } := by
  have hdepth : 8 * (s.registers vector errCode).words.length = 176 := rfl
  have hentered : (s.entered vector base sel errCode).rsp = s.rsp / 16 * 16 - 176 := rfl
  have hkept := (@entered_words s vector base sel errCode hroom).congr (by rw [hdepth]; exact hkeeps.2)
  rw [← hkeeps.1] at hentered hkept
  rw [interrupt_eq hkind hroom hlt]
  generalize isrHandler (s.entered vector base sel errCode) = t at hentered hkept ⊢
  have hsplit : (s.registers vector errCode).words = savedRegs.reverse.map s.gpr ++
    [UInt64.ofNat vector, errCode.getD 0, s.rip, s.cs, s.rflags, UInt64.ofNat s.rsp, s.ss] := rfl
  rw [hsplit, wordsAt_append] at hkept
  obtain ⟨hsaved, hleave⟩ := hkept
  have hsavedLength : savedRegs.reverse.length = 15 := rfl
  have hmem : ∀ r : Reg, r ∈ savedRegs.reverse := by
    intro r
    cases r <;> decide
  rw [run_append, run_pop hsaved (by omega), run_leave (by simpa using hleave) hlt (by dsimp only; omega)]
  simp only [hmem, if_true]

/-- The handler finds the registers of the program where `rdi` points. -/
theorem entered_rdi (hroom : 192 ≤ s.rsp) (hlt : s.rsp < 2 ^ 64) :
    WordsAt (s.entered vector base sel errCode).mem
      ((s.entered vector base sel errCode).gpr .rdi).toNat (s.registers vector errCode).words := by
  have hentered : (s.entered vector base sel errCode).rsp = s.rsp / 16 * 16 - 176 := rfl
  have hrdi : (s.entered vector base sel errCode).gpr .rdi =
      UInt64.ofNat (s.rsp / 16 * 16 - 176) := Function.update_self Reg.rdi _ s.gpr
  rw [hrdi, UInt64.toNat_ofNat', Nat.mod_eq_of_lt (by omega), ← hentered]
  exact entered_words hroom

/-- Interrupts are off at the call. -/
theorem entered_rflags : (s.entered vector base sel errCode).rflags &&& 0x200 = 0 := by
  rw [Processor.entered, UInt64.and_assoc, UInt64.not_and_self, UInt64.and_zero]

/-- Delivery and stub write below the stack pointer only, no further than 192 bytes. -/
theorem entered_of_outside {x : ℕ} (hroom : 192 ≤ s.rsp) (hx : x < s.rsp - 192 ∨ s.rsp ≤ x) :
    (s.entered vector base sel errCode).mem x = s.mem x := by
  have hdepth : (s.registers vector errCode).words.reverse.length = 22 := rfl
  exact pushWords_of_outside (by omega) (by omega)

end Orionis.Cpu
