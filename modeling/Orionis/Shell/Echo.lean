import Orionis.Shell.CommandReads
import Orionis.Shell.Input

/-!
# `echo` and the way a line was typed

Two histories of the keyboard may leave the same pending line and different bytes behind
its NUL. For a line that begins with `echo` and a space, `execute_command` stays within the
line, so both histories print the same. For the line `echo` itself, `cmd_echo` starts one
byte behind the NUL and prints what was erased there.
-/

namespace Orionis.Shell

open Orionis.Foundations

/-- The lines that `execute_command` takes for the echo command. -/
def EchoLine (line : List UInt8) : Prop := line = ascii "echo" ∨ ascii "echo " <+: line

/-- A state reached by typing, with debug mode off, in which a line is pending. -/
structure Pending (s : ShellState) (line : List UInt8) : Prop where
  reached : ∃ s₀ keys events, handleChars (initShell s₀).1 keys = some (s, events)
  debugOff : s.debugMode = false
  line_eq : pendingLine s = some line

/-- What Enter does. -/
def enterEvents (s : ShellState) : Option (List Event) := (shellHandleChar s 10).map Prod.snd

/-- `cmd_buffer` when `execute_command` is called, cut off `n` bytes from its start. -/
def bufferUpTo (s : ShellState) (n : ℕ) : Option View :=
  (storeBuffer s.cmdBuffer s.cmdBufferIndex 0).map fun buf => View.firstBytes buf n

/-- However the line was typed, Enter does the same. -/
def PrintsAlike (line : List UInt8) : Prop :=
  ∀ s s', Pending s line → Pending s' line →
    ∃ events, enterEvents s = some events ∧ enterEvents s' = some events

/-- However the line was typed, `execute_command` reads nothing behind its NUL. -/
def ReadsWithin (line : List UInt8) : Prop :=
  ∀ s, Pending s line →
    ∃ out, (bufferUpTo s (line.length + 1)).bind (executeCommand false) = some out

variable {s : ShellState} {line : List UInt8}

/-- Such a line is not empty. -/
theorem EchoLine.ne_nil (h : EchoLine line) : line ≠ [] := by
  intro heq
  subst heq
  exact absurd h (by simp [EchoLine, ascii])

/-- The buffer holds the pending line, and its index is not zero unless the line is empty. -/
theorem pendingLine_cases (h : pendingLine s = some line) (hne : line ≠ []) :
    ∃ buf, storeBuffer s.cmdBuffer s.cmdBufferIndex 0 = some buf ∧
      readString (bufferView buf) cmdBufferSize 0 = some line ∧ s.cmdBufferIndex > 0 := by
  obtain ⟨buf, hbuf, hread⟩ := Option.bind_eq_some_iff.1 h
  refine ⟨buf, hbuf, hread, ?_⟩
  obtain ⟨⟨hlo, -⟩, heq⟩ := Option.ite_none_right_eq_some.1 hbuf
  by_contra hpos
  apply hne
  have hzero : s.cmdBufferIndex.toNat = 0 := by omega
  have hnul : bufferView buf 0 = some 0 := by
    rw [← Option.some.inj heq, hzero]
    simp [bufferView, View.firstBytes, cmdBufferSize]
  rw [cmdBufferSize, readString, hnul, Option.bind_some, if_pos rfl] at hread
  exact (Option.some.inj hread).symm

/-- Enter on a line that the command does not leave. -/
theorem enterEvents_eq (h : Pending s line) (hne : line ≠ []) {debugMode : Bool}
    {output : List Output}
    (hout : executeCommand false (View.ofString line) = some (debugMode, output)) :
    enterEvents s = some
      (.out (.putc 10 0xFFFFFF) :: [.call line output] ++ printEvents (ascii "> ") 0x4EC9B0) := by
  obtain ⟨buf, hbuf, hread, hpos⟩ := pendingLine_cases h.line_eq hne
  have hrun := stable_executeCommand false _ _ _ (within_of_readString hread) hout
  simp only [enterEvents, shellHandleChar, if_true, executeAndResetShell, hbuf, runLine, hpos,
    callCommand, hread, h.debugOff, hrun, Option.bind_eq_bind, Option.bind_some]
  rfl

/-- The bytes up to the NUL are enough to run a command that stays within its line. -/
theorem executeCommand_bufferUpTo (h : Pending s line) (hne : line ≠ []) {out : Bool × List Output}
    (hout : executeCommand false (View.ofString line) = some out) :
    (bufferUpTo s (line.length + 1)).bind (executeCommand false) = some out := by
  obtain ⟨buf, hbuf, hread, -⟩ := pendingLine_cases h.line_eq hne
  rw [bufferUpTo, hbuf, Option.map_some, Option.bind_some]
  apply stable_executeCommand false _ _ out _ hout
  intro i c hc
  have hi : i < (line ++ [0]).length := (List.getElem?_eq_some_iff.1 hc).1
  rw [List.length_append, List.length_singleton] at hi
  have hread' := within_of_readString hread i c hc
  obtain ⟨-, hval⟩ := Option.ite_none_right_eq_some.1 hread'
  rw [View.firstBytes, if_pos hi, hval]

/-! ## The line `echo` -/

/-- `echo` typed directly. -/
def typed : List UInt8 := ascii "echo"

/-- `echo hello`, of which six characters are erased. -/
def erased : List UInt8 := ascii "echo hello\x08\x08\x08\x08\x08\x08"

/-- A shell that has just started. -/
def boot : ShellState := ⟨fun _ => 0, 0, false⟩

/-- The state after some keys. -/
def after (keys : List UInt8) : Option ShellState :=
  (handleChars (initShell boot).1 keys).map Prod.fst

/-- After the keys the line is pending, without the debug mode. -/
theorem exists_pending {keys : List UInt8}
    (hdebug : (after keys).map ShellState.debugMode = some false)
    (hline : (after keys).bind pendingLine = some line) :
    ∃ s, after keys = some s ∧ Pending s line := by
  obtain ⟨s, hs, hoff⟩ := Option.map_eq_some_iff.1 hdebug
  obtain ⟨⟨t, events⟩, hrun, rfl⟩ := Option.map_eq_some_iff.1 hs
  rw [hs, Option.bind_some] at hline
  exact ⟨t, hs, ⟨boot, keys, events, hrun⟩, hoff, hline⟩

/-- The line as it is typed. -/
theorem exists_pending_typed : ∃ s, after typed = some s ∧ Pending s (ascii "echo") :=
  exists_pending (by decide +kernel) (by decide +kernel)

/-- The line after characters were erased. -/
theorem exists_pending_erased : ∃ s, after erased = some s ∧ Pending s (ascii "echo") :=
  exists_pending (by decide +kernel) (by decide +kernel)

/-- What Enter prints after the typed line. -/
theorem enterEvents_typed :
    (after typed).bind enterEvents = some
      (.out (.putc 10 0xFFFFFF) :: [.call (ascii "echo") (ttyPrint (ascii "\n") 0xFFFFFF)] ++
        printEvents (ascii "> ") 0x4EC9B0) := by
  decide +kernel

/-- The characters that were erased are printed. -/
theorem enterEvents_erased :
    (after erased).bind enterEvents = some
      (.out (.putc 10 0xFFFFFF) :: [.call (ascii "echo") (ttyPrint (ascii "hello\n") 0xFFFFFF)] ++
        printEvents (ascii "> ") 0x4EC9B0) := by
  decide +kernel

/-- The same line is printed in two ways. -/
theorem not_printsAlike_echo : ¬PrintsAlike (ascii "echo") := by
  intro halike
  obtain ⟨s, hs, hpending⟩ := exists_pending_typed
  obtain ⟨s', hs', hpending'⟩ := exists_pending_erased
  obtain ⟨events, h, h'⟩ := halike s s' hpending hpending'
  have htyped := enterEvents_typed
  have herased := enterEvents_erased
  rw [hs, Option.bind_some, h] at htyped
  rw [hs', Option.bind_some, h', htyped] at herased
  exact absurd herased (by decide)

/-- A byte behind the string is read. -/
theorem not_readsWithin_echo : ¬ReadsWithin (ascii "echo") := by
  intro hwithin
  obtain ⟨s, hs, hpending⟩ := exists_pending_typed
  obtain ⟨out, hout⟩ := hwithin s hpending
  have hstuck : (after typed).bind (fun s =>
      (bufferUpTo s ((ascii "echo").length + 1)).bind (executeCommand false)) = none := by
    decide +kernel
  rw [hs, Option.bind_some, hout] at hstuck
  exact absurd hstuck (by simp)

/-! ## Every line -/

/-- A pending line other than `echo` is a command that stays within its line. -/
theorem Pending.exists_executeCommand (h : Pending s line) (hne : line ≠ [])
    (hecho : line ≠ ascii "echo") :
    ∃ out, executeCommand false (View.ofString line) = some out := by
  obtain ⟨buf, -, hread, -⟩ := pendingLine_cases h.line_eq hne
  obtain ⟨-, hnul, hlen⟩ := of_readString hread
  exact (executeCommand_ofString_iff false hnul hlen).2 hecho

/-- What an echo line prints depends on the line alone, and no byte behind its NUL is read,
exactly when the line is not `echo` itself. -/
theorem echo_depends_on_line_iff (line : List UInt8) (hecho : EchoLine line) :
    (PrintsAlike line ↔ line ≠ ascii "echo") ∧ (ReadsWithin line ↔ line ≠ ascii "echo") := by
  refine ⟨⟨?_, ?_⟩, ⟨?_, ?_⟩⟩
  · intro halike heq
    subst heq
    exact not_printsAlike_echo halike
  · intro hne s s' h h'
    obtain ⟨out, hout⟩ := h.exists_executeCommand hecho.ne_nil hne
    exact ⟨_, enterEvents_eq h hecho.ne_nil hout, enterEvents_eq h' hecho.ne_nil hout⟩
  · intro hwithin heq
    subst heq
    exact not_readsWithin_echo hwithin
  · intro hne s h
    obtain ⟨out, hout⟩ := h.exists_executeCommand hecho.ne_nil hne
    exact ⟨out, executeCommand_bufferUpTo h hecho.ne_nil hout⟩

/-- A line with something to echo. -/
theorem echo_depends_on_line_iff_hi :
    EchoLine (ascii "echo hi") ∧ PrintsAlike (ascii "echo hi") ∧ ReadsWithin (ascii "echo hi") :=
  have hecho : EchoLine (ascii "echo hi") := Or.inr (by decide)
  have h := echo_depends_on_line_iff (ascii "echo hi") hecho
  ⟨hecho, h.1.2 (by decide), h.2.2 (by decide)⟩

/-- The line `echo` is pending after `echo` was typed and after `echo hello` was typed and
cut back, and the second prints `hello`. -/
theorem not_echo_depends_on_line :
    (after typed).bind pendingLine = some (ascii "echo") ∧
      (after erased).bind pendingLine = some (ascii "echo") ∧
      (after typed).bind enterEvents ≠ (after erased).bind enterEvents ∧
      ¬∀ line, EchoLine line → PrintsAlike line ∧ ReadsWithin line := by
  refine ⟨by decide +kernel, by decide +kernel, ?_, ?_⟩
  · rw [enterEvents_typed, enterEvents_erased]
    decide
  · intro h
    exact not_printsAlike_echo (h (ascii "echo") (Or.inl rfl)).1

end Orionis.Shell
