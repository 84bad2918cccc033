import Orionis.Shell.CommandReads
import Orionis.Shell.Input

/-!
# The shell refines a bounded line editor

The editor holds the line as a list of characters and knows nothing of buffers, indices or
NUL bytes. The shell represents it by the first `cmd_buffer_index` bytes of `cmd_buffer`;
the bytes behind them are arbitrary, up to the last byte of the array, which stays NUL.
-/

namespace Orionis.Shell

open Orionis.Foundations

/-- The longest line. -/
def maxLine : ℕ := 255

/-- The reference editor: the line being typed and the lines submitted. -/
structure Editor where
  line : List UInt8
  submitted : List (List UInt8)
  deriving DecidableEq, Repr

/-- An empty line and nothing submitted. -/
def Editor.start : Editor := ⟨[], []⟩

/-- Enter submits a line that is not empty and starts an empty one. -/
def Editor.enter (e : Editor) : Editor :=
  if e.line = [] then e else ⟨[], e.submitted ++ [e.line]⟩

/-- Enter, backspace, or a character that is appended where the line has room. -/
def Editor.handle (e : Editor) (c : UInt8) : Editor :=
  if c = 10 then e.enter
  else if c = 8 then { e with line := e.line.dropLast }
  else if e.line.length < maxLine then { e with line := e.line ++ [c] }
  else e

/-- The buffer and its index represent a line. -/
structure ShellState.Holds (s : ShellState) (text : List UInt8) : Prop where
  index : s.cmdBufferIndex = text.length
  short : text.length ≤ maxLine
  bytes : ∀ j (h : j < text.length), s.cmdBuffer j = text[j]
  last : s.cmdBuffer maxLine = 0
  nonNul : 0 ∉ text

variable {s : ShellState} {line : List UInt8} {c : UInt8}

/-- The shell starts with an empty line. -/
theorem initShell_holds (s : ShellState) : (initShell s).1.Holds [] where
  index := rfl
  short := Nat.zero_le _
  bytes j h := absurd h (Nat.not_lt_zero j)
  last := rfl
  nonNul := List.not_mem_nil

/-- Commands run one after the other. -/
@[simp]
theorem commands_append (events later : List Event) :
    commands (events ++ later) = commands events ++ commands later :=
  List.filterMap_append

/-- Printing runs no command. -/
@[simp]
theorem commands_printEvents (text : List UInt8) (color : ℕ) :
    commands (printEvents text color) = [] := by
  simp [commands, printEvents, List.filterMap_map]

/-- The index of a represented line is inside the array, so the store succeeds. -/
theorem ShellState.Holds.store (h : s.Holds line) (c : UInt8) :
    storeBuffer s.cmdBuffer s.cmdBufferIndex c =
      some (Function.update s.cmdBuffer line.length c) := by
  have hshort : line.length ≤ 255 := h.short
  rw [storeBuffer, h.index, if_pos ⟨by omega, by simp only [cmdBufferSize]; omega⟩,
    Int.toNat_natCast]

/-- Typing a character behind the line. -/
theorem ShellState.Holds.type (h : s.Holds line) (hc : c ≠ 0) (hroom : line.length < maxLine) :
    ({ s with cmdBuffer := Function.update s.cmdBuffer line.length c,
              cmdBufferIndex := s.cmdBufferIndex + 1 } : ShellState).Holds (line ++ [c]) where
  index := by simp [h.index]
  short := by simpa [Nat.succ_le_iff] using hroom
  bytes j hj := by
    rw [List.getElem_append]
    split
    · next hold => exact (Function.update_of_ne (by omega) _ _).trans (h.bytes j hold)
    · next hnew =>
      have hlast : j = line.length := by
        simp at hj
        omega
      subst hlast
      simp
  last := (Function.update_of_ne (by omega) _ _).trans h.last
  nonNul := by simp [h.nonNul, Ne.symm hc]

/-- Moving the index back takes the last character off. -/
theorem ShellState.Holds.erase (h : s.Holds line) (hpos : s.cmdBufferIndex > 0) :
    ({ s with cmdBufferIndex := s.cmdBufferIndex - 1 } : ShellState).Holds line.dropLast where
  index := by
    have hindex := h.index
    simp only [List.length_dropLast]
    omega
  short := by
    have hshort := h.short
    rw [List.length_dropLast]
    omega
  bytes j hj := by
    rw [List.length_dropLast] at hj
    rw [List.getElem_dropLast]
    exact h.bytes j (by omega)
  last := h.last
  nonNul := fun hmem => h.nonNul (List.dropLast_subset _ hmem)

/-- With a NUL stored at the index, the line stands at the start of the buffer. -/
theorem ShellState.Holds.within (h : s.Holds line) :
    (View.ofString line).Within (bufferView (Function.update s.cmdBuffer line.length 0)) := by
  have hshort : line.length ≤ 255 := h.short
  apply View.ofString_within
  · intro j hj
    rw [Function.update_of_ne (by omega), h.bytes j hj]
  · exact Function.update_self _ _ _
  · simp only [cmdBufferSize]
    omega

/-- Enter calls `execute_command` with the line unless it is empty. -/
theorem ShellState.Holds.enter (h : s.Holds line) :
    ∃ s' events, executeAndResetShell s = some (s', events) ∧ s'.Holds [] ∧
      commands events = if line = [] then [] else [line] := by
  set buf := Function.update s.cmdBuffer line.length 0 with hbuf
  have hshort : line.length < cmdBufferSize := Nat.lt_succ_of_le h.short
  have hlast : buf (cmdBufferSize - 1) = 0 := by
    rw [hbuf, Function.update_apply]
    split
    · rfl
    · exact h.last
  by_cases hempty : line = []
  · have hindex : ¬s.cmdBufferIndex > 0 := by simp [h.index, hempty]
    simp only [executeAndResetShell, h.store, runLine, hindex, if_false, Option.bind_eq_bind,
      Option.bind_some, if_pos hempty]
    exact ⟨_, _, rfl, initShell_holds _, rfl⟩
  · have hindex : s.cmdBufferIndex > 0 := by
      have hpos := List.length_pos_of_ne_nil hempty
      have hindex := h.index
      omega
    obtain ⟨⟨debugMode, output⟩, hout⟩ := exists_executeCommand hlast s.debugMode
    have hread : readString (bufferView buf) cmdBufferSize 0 = some line :=
      stable_readString _ _ _ _ line h.within
        (readString_ofString cmdBufferSize h.nonNul (Nat.zero_le _) hshort)
    have hcall : callCommand s.debugMode buf = some (debugMode, [.call line output]) := by
      rw [callCommand, hread, bufferView, hout]
      rfl
    simp only [executeAndResetShell, h.store, runLine, hindex, if_true, ← hbuf, hcall,
      Option.bind_eq_bind, Option.bind_some, if_neg hempty]
    exact ⟨_, _, rfl, initShell_holds _, rfl⟩

/-- One character: the store is in bounds and the editor takes the same step. -/
theorem ShellState.Holds.step {e : Editor} (h : s.Holds e.line) (hc : c ≠ 0) :
    ∃ s' events, shellHandleChar s c = some (s', events) ∧ s'.Holds (e.handle c).line ∧
      (e.handle c).submitted = e.submitted ++ commands events := by
  unfold shellHandleChar Editor.handle
  by_cases henter : c = 10
  · rw [if_pos henter, if_pos henter]
    obtain ⟨s', events, hrun, hholds, hcommands⟩ := h.enter
    refine ⟨s', events, hrun, ?_⟩
    rw [hcommands, Editor.enter]
    by_cases hempty : e.line = []
    · rw [if_pos hempty, if_pos hempty, hempty, List.append_nil]
      exact ⟨hholds, rfl⟩
    · rw [if_neg hempty, if_neg hempty]
      exact ⟨hholds, rfl⟩
  · rw [if_neg henter, if_neg henter]
    by_cases hback : c = 8
    · rw [if_pos hback, if_pos hback]
      by_cases hpos : s.cmdBufferIndex > 0
      · exact ⟨_, _, if_pos hpos, h.erase hpos, (List.append_nil _).symm⟩
      · have hempty : e.line = [] := by
          have hindex := h.index
          exact List.eq_nil_of_length_eq_zero (by omega)
        refine ⟨s, [], if_neg hpos, ?_, (List.append_nil _).symm⟩
        simpa [hempty] using h
    · rw [if_neg hback, if_neg hback]
      by_cases hroom : e.line.length < maxLine
      · have hindex : s.cmdBufferIndex < (cmdBufferSize : ℤ) - 1 := by
          rw [h.index]
          simp only [cmdBufferSize, maxLine] at hroom ⊢
          omega
        rw [if_pos hindex, if_pos hroom, h.store]
        exact ⟨_, _, rfl, h.type hc hroom, by simp⟩
      · have hindex : ¬s.cmdBufferIndex < (cmdBufferSize : ℤ) - 1 := by
          rw [h.index]
          simp only [cmdBufferSize, maxLine] at hroom ⊢
          omega
        rw [if_neg hindex, if_neg hroom]
        exact ⟨s, [], rfl, h, (List.append_nil _).symm⟩

/-- A whole input: every store is in bounds and both submit the same lines. -/
theorem ShellState.Holds.run {e : Editor} (h : s.Holds e.line) (cs : List UInt8) (hcs : 0 ∉ cs) :
    ∃ s' events, handleChars s cs = some (s', events) ∧
      s'.Holds (cs.foldl Editor.handle e).line ∧
      (cs.foldl Editor.handle e).submitted = e.submitted ++ commands events := by
  induction cs generalizing s e with
  | nil => exact ⟨s, [], rfl, h, (List.append_nil _).symm⟩
  | cons c cs ih =>
    rw [List.mem_cons, not_or] at hcs
    obtain ⟨t, events, hstep, hholds, hsubmitted⟩ := h.step (Ne.symm hcs.1)
    obtain ⟨u, later, hrun, hholds', hsubmitted'⟩ := ih hholds hcs.2
    refine ⟨u, events ++ later, ?_, hholds', ?_⟩
    · simp only [handleChars, hstep, hrun, Option.bind_eq_bind, Option.bind_some]
      rfl
    · rw [List.foldl_cons, hsubmitted', hsubmitted, commands_append, List.append_assoc]

/-- After `init_shell` the shell never leaves its buffer, and `execute_command` gets exactly
the lines that the reference editor submits. -/
theorem refines_lineEditor (s : ShellState) (cs : List UInt8) (hcs : 0 ∉ cs) :
    ∃ s' events, handleChars (initShell s).1 cs = some (s', events) ∧
      0 ≤ s'.cmdBufferIndex ∧ s'.cmdBufferIndex ≤ maxLine ∧
      commands events = (cs.foldl Editor.handle Editor.start).submitted := by
  obtain ⟨s', events, hrun, hholds, hsubmitted⟩ :=
    ShellState.Holds.run (e := Editor.start) (initShell_holds s) cs hcs
  refine ⟨s', events, hrun, ?_, ?_, hsubmitted.symm⟩
  · rw [hholds.index]
    omega
  · rw [hholds.index]
    exact Int.ofNat_le.2 hholds.short

/-- Two lines, an empty one and a backspace too many. -/
theorem refines_lineEditor_session :
    0 ∉ ascii "lx\x08s\n\n\x08time\n" ∧
      ∃ s' events, handleChars (initShell ⟨fun _ => 1, 7, true⟩).1 (ascii "lx\x08s\n\n\x08time\n") =
          some (s', events) ∧
        0 ≤ s'.cmdBufferIndex ∧ s'.cmdBufferIndex ≤ maxLine ∧
        commands events = [ascii "ls", ascii "time"] :=
  ⟨by decide, refines_lineEditor _ _ (by decide)⟩

end Orionis.Shell
