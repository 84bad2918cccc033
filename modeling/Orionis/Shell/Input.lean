import Orionis.Shell.Command

/-!
# The command line of `shell.cpp`

The shell collects characters in `cmd_buffer`. A backspace only moves the index back, so
the characters behind it stay in the array until `init_shell` clears it. Every store goes
through a bounds check that the code does not have; where it fails the model is stuck.
-/

namespace Orionis.Shell

open Orionis.Foundations

/-- The variables of the shell: `cmd_buffer`, `cmd_buffer_index` and `debug_mode`. -/
structure ShellState where
  cmdBuffer : Memory
  cmdBufferIndex : ℤ
  debugMode : Bool

/-- What the shell does, in order. -/
inductive Event
  /-- Output of the shell itself. -/
  | out (o : Output)
  /-- A call of `execute_command` with the string it gets and what it does. -/
  | call (command : List UInt8) (output : List Output)
  deriving DecidableEq, Repr

/-- `tty_print`, called by the shell. -/
def printEvents (text : List UInt8) (color : ℕ) : List Event :=
  (ttyPrint text color).map Event.out

/-- `cmd_buffer[i] = c`. -/
def storeBuffer (buf : Memory) (i : ℤ) (c : UInt8) : Option Memory :=
  if 0 ≤ i ∧ i < cmdBufferSize then some (Function.update buf i.toNat c) else none

/-- The bytes that can be read through `cmd_buffer`. -/
def bufferView (buf : Memory) : View := View.firstBytes buf cmdBufferSize

/-- `init_shell`. -/
def initShell (s : ShellState) : ShellState × List Event :=
  ({ s with cmdBuffer := fun _ => 0, cmdBufferIndex := 0 }, printEvents (ascii "> ") 0x4EC9B0)

/-- `execute_command(cmd_buffer)`. -/
def callCommand (debugMode : Bool) (buf : Memory) : Option (Bool × List Event) := do
  let command ← readString (bufferView buf) cmdBufferSize 0
  let (debugMode, output) ← executeCommand debugMode (bufferView buf)
  return (debugMode, [.call command output])

/-- The block `if (cmd_buffer_index > 0) …` of `execute_and_reset_shell`. -/
def runLine (s : ShellState) (buf : Memory) : Option (Bool × List Event) :=
  if s.cmdBufferIndex > 0 then callCommand s.debugMode buf else some (s.debugMode, [])

/-- `execute_and_reset_shell`. -/
def executeAndResetShell (s : ShellState) : Option (ShellState × List Event) := do
  let buf ← storeBuffer s.cmdBuffer s.cmdBufferIndex 0
  let (debugMode, events) ← runLine s buf
  let (s, prompt) := initShell { s with cmdBuffer := buf, debugMode := debugMode }
  return (s, .out (.putc 10 0xFFFFFF) :: events ++ prompt)

/-- `shell_handle_char`. A string of one character that is NUL is empty. -/
def shellHandleChar (s : ShellState) (c : UInt8) : Option (ShellState × List Event) :=
  if c = 10 then executeAndResetShell s
  else if c = 8 then
    if s.cmdBufferIndex > 0 then
      some ({ s with cmdBufferIndex := s.cmdBufferIndex - 1 }, [.out (.putc 8 0xFFFFFF)])
    else some (s, [])
  else if s.cmdBufferIndex < cmdBufferSize - 1 then do
    let buf ← storeBuffer s.cmdBuffer s.cmdBufferIndex c
    return ({ s with cmdBuffer := buf, cmdBufferIndex := s.cmdBufferIndex + 1 },
      printEvents (if c = 0 then [] else [c]) 0xFFFFFF)
  else some (s, [])

/-- One character after the other. -/
def handleChars (s : ShellState) : List UInt8 → Option (ShellState × List Event)
  | [] => some (s, [])
  | c :: cs => do
    let (s, events) ← shellHandleChar s c
    let (s, later) ← handleChars s cs
    return (s, events ++ later)

/-- The strings passed to `execute_command`. -/
def commands (events : List Event) : List (List UInt8) :=
  events.filterMap fun
    | .out _ => none
    | .call command _ => some command

/-- The line in the buffer when Enter arrives, up to its NUL. -/
def pendingLine (s : ShellState) : Option (List UInt8) := do
  let buf ← storeBuffer s.cmdBuffer s.cmdBufferIndex 0
  readString (bufferView buf) cmdBufferSize 0

end Orionis.Shell
