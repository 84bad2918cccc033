import Orionis.Foundations.CString

/-!
# Command dispatch of `command.cpp`

`execute_command` compares its argument with the command names through `strcmp` and
`strncmp` of `libc.cpp` and hands it to a handler. Its argument is a pointer, so it is a
program over the readable bytes; a read outside them fails.

What `cmd_echo` and the dispatcher print is modelled character by character. The other
handlers do not look at the command and appear as one event each, and so does the dump that
debug mode prints.
-/

namespace Orionis.Shell

open Orionis.Foundations

/-- `CMD_BUFFER_SIZE`. No loop over a command looks at more bytes. -/
def cmdBufferSize : ℕ := 256

/-- The handlers that do not read the command. -/
inductive Builtin
  | help | clear | shutdown | meminfo | cpuinfo | version | panic | time | memtest | nettest
  | lspci | reboot
  deriving DecidableEq, Repr

/-- What a command does, in order. -/
inductive Output
  /-- `tty_putc`. -/
  | putc (c : UInt8) (color : ℕ)
  | builtin (b : Builtin)
  /-- The block `execute_command` prints in debug mode. -/
  | debugDump (command : List UInt8)
  deriving DecidableEq, Repr

/-- `tty_print`. -/
def ttyPrint (text : List UInt8) (color : ℕ) : List Output := text.map (Output.putc · color)

/-! ## Comparing strings -/

/-- The loop of `strcmp` and `strncmp` from offset `i` on, against the bytes of a literal.
`char` is signed. -/
def compareFrom (s1 : View) : (i : ℕ) → List UInt8 → Option ℤ
  | _, [] => some 0
  | i, c2 :: rest => do
    let c1 ← s1 i
    if c1 ≠ c2 then return if c1.toInt8 < c2.toInt8 then -1 else 1
    else if c1 = 0 then return 0
    else compareFrom s1 (i + 1) rest

/-- `strcmp` with a literal. -/
def strcmp (s1 : View) (s2 : List UInt8) : Option ℤ := compareFrom s1 0 (s2 ++ [0])

/-- `strncmp` with a literal. -/
def strncmp (s1 : View) (s2 : List UInt8) (n : ℕ) : Option ℤ :=
  compareFrom s1 0 ((s2 ++ [0]).take n)

/-! ## Running a command -/

/-- The loop `while (*msg == ' ') msg++`. -/
def skipSpaces (s : View) : (fuel i : ℕ) → Option ℕ
  | 0, _ => none
  | fuel + 1, i => do
    let c ← s i
    if c = 32 then skipSpaces s fuel (i + 1) else return i

/-- `cmd_echo`. -/
def cmdEcho (command : View) : Option (List Output) := do
  let msg ← skipSpaces command cmdBufferSize 5
  let c ← command msg
  if c = 0 then return ttyPrint (ascii "\n") 0xFFFFFF
  else do
    let text ← readString command cmdBufferSize msg
    return ttyPrint text 0xFFFFFF ++ ttyPrint (ascii "\n") 0xFFFFFF

/-- A chain `if (strcmp(command, name) == 0) … else if …`. -/
def matchName (command : View) : List (String × Builtin) → Option (Option Builtin)
  | [] => some none
  | (name, b) :: rest => do
    let r ← strcmp command (ascii name)
    if r = 0 then return some b else matchName command rest

/-- The names `execute_command` tries before `echo`. -/
def namesBeforeEcho : List (String × Builtin) := [("help", .help), ("clear", .clear)]

/-- The names `execute_command` tries after `echo`. -/
def namesAfterEcho : List (String × Builtin) :=
  [("shutdown", .shutdown), ("meminfo", .meminfo), ("cpuinfo", .cpuinfo),
    ("version", .version), ("panic", .panic), ("time", .time), ("memtest", .memtest),
    ("nettest", .nettest), ("lspci", .lspci), ("reboot", .reboot)]

/-- `strncmp(command, "echo", 4) == 0 && (command[4] == ' ' || command[4] == '\0')`. -/
def isEcho (command : View) : Option Bool := do
  let r ← strncmp command (ascii "echo") 4
  if r = 0 then do
    let c ← command 4
    return c = 32 ∨ c = 0
  else return false

/-- The last `else` of `execute_command`. -/
def unknownCommand (command : View) : Option (List Output) := do
  let text ← readString command cmdBufferSize 0
  return ttyPrint (ascii "\nUnknown command: ") 0xFF6060 ++ ttyPrint text 0xFF6060 ++
    ttyPrint (ascii "\n") 0xFF6060

/-- The chain of comparisons at the end of `execute_command`. -/
def dispatch (command : View) : Option (List Output) := do
  match ← matchName command namesBeforeEcho with
  | some b => return [.builtin b]
  | none =>
    if ← isEcho command then cmdEcho command
    else match ← matchName command namesAfterEcho with
      | some b => return [.builtin b]
      | none => unknownCommand command

/-- The block `if (debug_mode) …` of `execute_command`. -/
def debugBlock (debugMode : Bool) (command : View) : Option (List Output) :=
  if debugMode then (readString command cmdBufferSize 0).map fun text => [.debugDump text]
  else some []

/-- `execute_command`: the new `debug_mode` and what happens. -/
def executeCommand (debugMode : Bool) (command : View) : Option (Bool × List Output) := do
  let r ← strcmp command (ascii "debug")
  if r = 0 then return (true, ttyPrint (ascii "\nDebug mode enabled.\n") 0x00FF00)
  else do
    let r ← strcmp command (ascii "undebug")
    if r = 0 then
      if debugMode then return (false, ttyPrint (ascii "\nDebug mode disabled.\n") 0x00FF00)
      else return (debugMode, ttyPrint (ascii "\nNo debug mode found.\n") 0xFF6060)
    else do
      let dump ← debugBlock debugMode command
      let out ← dispatch command
      return (debugMode, dump ++ out)

/-! ## More readable bytes do not change a command -/

/-- A comparison that returns does so with more readable bytes. -/
theorem stable_compareFrom (i : ℕ) (s2 : List UInt8) : Stable fun v => compareFrom v i s2 := by
  induction s2 generalizing i with
  | nil => exact stable_const _
  | cons c2 rest ih =>
    exact (stable_read i).bind fun c1 =>
      (stable_const _).ite ((stable_const _).ite (ih (i + 1)))

/-- `strcmp` is stable. -/
theorem stable_strcmp (s2 : List UInt8) : Stable fun v => strcmp v s2 :=
  stable_compareFrom 0 _

/-- Skipping spaces is stable. -/
theorem stable_skipSpaces (fuel i : ℕ) : Stable fun v => skipSpaces v fuel i := by
  induction fuel generalizing i with
  | zero => exact stable_const none
  | succ fuel ih => exact (stable_read i).bind fun c => (ih (i + 1)).ite (stable_const _)

/-- `cmd_echo` is stable. -/
theorem stable_cmdEcho : Stable cmdEcho :=
  (stable_skipSpaces _ _).bind fun msg => (stable_read msg).bind fun _ =>
    (stable_const _).ite ((stable_readString _ _).bind fun _ => stable_const _)

/-- The search for the command is stable. -/
theorem stable_matchName (names : List (String × Builtin)) :
    Stable fun v => matchName v names := by
  induction names with
  | nil => exact stable_const _
  | cons entry rest ih =>
    exact (stable_strcmp _).bind fun r => (stable_const _).ite ih

/-- The test for the echo command is stable. -/
theorem stable_isEcho : Stable isEcho :=
  (stable_compareFrom 0 _).bind fun _ =>
    ((stable_read 4).bind fun c => stable_const (some (decide (c = 32 ∨ c = 0)))).ite
      (stable_const _)

/-- The answer to an unknown command is stable. -/
theorem stable_unknownCommand : Stable unknownCommand :=
  (stable_readString _ _).bind fun _ => stable_const _

/-- So all of the dispatch is stable. -/
theorem stable_dispatch : Stable dispatch := by
  apply (stable_matchName namesBeforeEcho).bind
  intro b
  cases b with
  | some b => exact stable_const _
  | none =>
    apply stable_isEcho.bind
    intro echo
    apply stable_cmdEcho.ite
    apply (stable_matchName namesAfterEcho).bind
    intro b
    cases b with
    | some b => exact stable_const _
    | none => exact stable_unknownCommand

/-- The output of the debug mode is stable. -/
theorem stable_debugBlock (debugMode : Bool) : Stable (debugBlock debugMode) :=
  ((stable_readString _ _).map _).ite (stable_const _)

/-- What a command does only depends on the bytes it reads. -/
theorem stable_executeCommand (debugMode : Bool) : Stable (executeCommand debugMode) := by
  apply (stable_strcmp _).bind
  intro r
  apply (stable_const _).ite
  apply (stable_strcmp _).bind
  intro r
  apply Stable.ite
  · exact stable_const _
  · apply (stable_debugBlock debugMode).bind
    intro dump
    exact stable_dispatch.bind fun out => stable_const _

end Orionis.Shell
