import OSChallenges.Library.Words
import Mathlib.Logic.Function.Basic

/-!
# The parser of `myshell_parser.c`

`pipeline_build` goes over a line once. The local variables are the fields of a record, the commands
of the linked list are a list, and every `malloc` returns the next block, with the bytes that an
earlier owner has left in it. A store behind the end of a buffer is noted and the parser goes on.
-/

namespace OSChallenges.Shell

open Words

/-- `MAX_ARGV_LENGTH`. -/
def maxArgvLength : Nat := 257

/-- `sizeof(char[30])`. -/
def bufferSize : Nat := 30

/-! ### The characters that the parser looks for -/

def newline : UInt8 := 10

def space : UInt8 := 32

def ampersand : UInt8 := 38

def less : UInt8 := 60

def greater : UInt8 := 62

def bar : UInt8 := 124

/-! ### Memory -/

/-- The bytes from the start of each block on. -/
abbrev Heap := Nat → Nat → UInt8

/-- A pointer to a string; nobody has assigned `garbage`. -/
inductive Pointer
  | garbage
  | null
  | block (n : Nat)
  deriving DecidableEq, Repr

/-- Why the parser does not come to its end. -/
inductive Fault
  /-- A pointer is followed that points to no block. -/
  | wildPointer
  /-- `command_args` is indexed at `MAX_ARGV_LENGTH` or behind. -/
  | outOfBounds
  /-- The line has no newline and is read behind its zero. -/
  | overread
  deriving DecidableEq, Repr

/-- `struct pipeline_command`. -/
structure PipelineCommand where
  commandArgs : Nat → Pointer
  redirectInPath : Pointer
  redirectOutPath : Pointer

/-- `struct pipeline`. -/
structure Pipeline where
  commands : List PipelineCommand
  isBackground : Bool

/-- The variables of `pipeline_build` and the memory it works on; the commands of the list are those
of `before` and `currentCommand`. -/
structure Parser where
  heap : Heap
  /-- How many blocks `malloc` has returned. -/
  allocated : Nat
  /-- A character has been stored behind the end of its buffer. -/
  overflow : Bool
  isBackground : Bool
  doubleRedirectCheck : Bool
  ampersandPosCheck : Bool
  before : List PipelineCommand
  currentCommand : PipelineCommand
  argStorePos : Nat
  commandArgPos : Nat
  redirectInPos : Nat
  redirectOutPos : Nat
  riCheck : Nat
  roCheck : Nat
  inputPos : Nat
  inCheck : Bool
  outCheck : Bool
  mallocCheck : Bool

namespace PipelineCommand

/-- What `malloc` returns for a command. -/
def uninitialised : PipelineCommand := ⟨fun _ => .garbage, .garbage, .garbage⟩

def arg (c : PipelineCommand) (i : Nat) : Except Fault Pointer :=
  if i < maxArgvLength then .ok (c.commandArgs i) else .error .outOfBounds

def setArg (c : PipelineCommand) (i : Nat) (p : Pointer) : Except Fault PipelineCommand :=
  if i < maxArgvLength then .ok { c with commandArgs := Function.update c.commandArgs i p }
  else .error .outOfBounds

end PipelineCommand

namespace Parser

/-- `malloc`. -/
def malloc (s : Parser) : Nat × Parser := (s.allocated, { s with allocated := s.allocated + 1 })

/-- `malloc` of a buffer, which is marked as empty by an ampersand. -/
def newBuffer (s : Parser) : Pointer × Parser :=
  (.block s.allocated, { s with
    allocated := s.allocated + 1
    heap := Function.update s.heap s.allocated
      (Function.update (s.heap s.allocated) 0 ampersand) })

def firstByte (s : Parser) : Pointer → Except Fault UInt8
  | .block b => .ok (s.heap b 0)
  | .garbage | .null => .error .wildPointer

/-- A store behind the 30 bytes of a buffer stays in the row of its block and is noted. The real one runs
into the next blocks and into what `malloc` keeps between them, so from there on only the local variables
are those of the program: what is proved of strings, of the end of the parser and of `free` is for
`overflow = false`. -/
def store (s : Parser) (letter : UInt8) (pos : Nat) : Pointer → Except Fault Parser
  | .block b => .ok { s with
      heap := Function.update s.heap b (Function.update (s.heap b) pos letter)
      overflow := s.overflow || bufferSize ≤ pos }
  | .garbage | .null => .error .wildPointer

/-! ### The functions of the parser -/

def newCommand (s : Parser) : Parser :=
  let (_, s) := s.malloc
  let (buffer, s) := s.newBuffer
  { s with
    before := s.before ++ [s.currentCommand]
    currentCommand := { PipelineCommand.uninitialised with
      commandArgs := Function.update (fun _ => .garbage) 0 buffer } }

def characterInsert (s : Parser) (argStore redirectIn redirectOut : Pointer) (letter : UInt8) :
    Except Fault Parser := do
  if s.inCheck then
    let s ← s.store letter s.redirectInPos redirectIn
    return { s with redirectInPos := s.redirectInPos + 1 }
  else if s.outCheck then
    let s ← s.store letter s.redirectOutPos redirectOut
    return { s with redirectOutPos := s.redirectOutPos + 1 }
  else
    let s ← s.store letter s.argStorePos argStore
    return { s with argStorePos := s.argStorePos + 1 }

/-- Both redirect paths are allocated, once per command. -/
def allocateRedirects (s : Parser) : Parser :=
  if s.mallocCheck then
    let (redirectIn, s) := s.newBuffer
    let (redirectOut, s) := s.newBuffer
    { s with
      currentCommand := { s.currentCommand with
        redirectInPath := redirectIn
        redirectOutPath := redirectOut }
      mallocCheck := false }
  else s

/-- The arguments end with a null pointer: in place of the last buffer if nothing is in it. -/
def closeArgs (s : Parser) : Except Fault Parser := do
  let arg ← s.currentCommand.arg s.commandArgPos
  let first ← s.firstByte arg
  let command ← s.currentCommand.setArg
    (if first = ampersand then s.commandArgPos else s.commandArgPos + 1) .null
  return { s with currentCommand := command }

/-- A redirect that has not been filled becomes a null pointer. -/
def closePath (s : Parser) (path : Pointer) : Except Fault Pointer := do
  let first ← s.firstByte path
  return if first = ampersand then .null else path

def closeRedirects (s : Parser) : Except Fault Parser := do
  let redirectIn ← s.closePath s.currentCommand.redirectInPath
  let redirectOut ← s.closePath s.currentCommand.redirectOutPath
  return { s with currentCommand := { s.currentCommand with
    redirectInPath := redirectIn
    redirectOutPath := redirectOut } }

/-- The command ends at a bar, and a new one begins. -/
def nextCommand (s : Parser) : Except Fault Parser := do
  let s ← s.closeArgs
  let s ← s.closeRedirects
  return { s.newCommand with
    mallocCheck := true
    argStorePos := 0
    redirectInPos := 0
    redirectOutPos := 0
    commandArgPos := 0
    inCheck := false
    outCheck := false }

/-- A space behind an argument moves on to the next one. -/
def nextArg (s : Parser) : Except Fault Parser := do
  let arg ← s.currentCommand.arg s.commandArgPos
  let first ← s.firstByte arg
  if first ≠ ampersand ∧ !s.inCheck ∧ !s.outCheck then
    let (buffer, s) := s.newBuffer
    let command ← s.currentCommand.setArg (s.commandArgPos + 1) buffer
    return { s with
      commandArgPos := s.commandArgPos + 1
      currentCommand := command
      argStorePos := 0 }
  else return s

/-- A character of a word. -/
def insert (s : Parser) (letter : UInt8) : Except Fault Parser := do
  let arg ← s.currentCommand.arg s.commandArgPos
  s.characterInsert arg s.currentCommand.redirectInPath s.currentCommand.redirectOutPath letter

/-- One turn of the loop: false if it is the last. -/
def turn (s : Parser) (inSize : Int) (c : UInt8) : Except Fault (Bool × Parser) := do
  let s := s.allocateRedirects
  if c = ampersand then
    let s := { s with isBackground := true }
    if s.inputPos ≠ inSize - 2 then return (false, { s with ampersandPosCheck := true })
    else return (true, { s with inputPos := s.inputPos + 1 })
  else if c = less then
    let s := { s with inCheck := true, outCheck := false, riCheck := s.riCheck + 1 }
    if 1 < s.riCheck then return (false, { s with doubleRedirectCheck := true })
    else return (true, { s with inputPos := s.inputPos + 1 })
  else if c = greater then
    let s := { s with outCheck := true, inCheck := false, roCheck := s.roCheck + 1 }
    if 1 < s.roCheck then return (false, { s with doubleRedirectCheck := true })
    else return (true, { s with inputPos := s.inputPos + 1 })
  else if c = bar then
    let s ← s.nextCommand
    return (true, { s with inputPos := s.inputPos + 1 })
  else if c = space then
    let s ← s.nextArg
    return (true, { s with inputPos := s.inputPos + 1 })
  else
    let s ← s.insert c
    return (true, { s with inputPos := s.inputPos + 1 })

/-- The loop over the rest of the line, behind which there is a zero. -/
def loop (inSize : Int) : List UInt8 → Parser → Except Fault Parser
  | [], s => do
    let _ ← s.turn inSize 0
    .error .overread
  | c :: rest, s => do
    if c = newline then return s
    else
      let (more, s) ← s.turn inSize c
      if more then loop inSize rest s else return s

/-- What is left to do for the last command. -/
def finish (s : Parser) : Except Fault Parser := do
  let s ← s.closeRedirects
  s.closeArgs

/-- `is_background` is behind the pointer to the commands. -/
def isBackgroundOffset : Nat := 8

/-- Before the loop: the pipeline, its first command and the first argument of that are allocated. -/
def start (heap : Heap) : Parser :=
  { heap := Function.update heap 2 (Function.update (heap 2) 0 ampersand)
    allocated := 3
    overflow := false
    isBackground := heap 0 isBackgroundOffset ≠ 0
    doubleRedirectCheck := false
    ampersandPosCheck := false
    before := []
    currentCommand := { PipelineCommand.uninitialised with
      commandArgs := Function.update (fun _ => .garbage) 0 (.block 2) }
    argStorePos := 0
    commandArgPos := 0
    redirectInPos := 0
    redirectOutPos := 0
    riCheck := 0
    roCheck := 0
    inputPos := 0
    inCheck := false
    outCheck := false
    mallocCheck := true }

/-- `pipe`. -/
def pipeline (s : Parser) : Pipeline := ⟨s.before ++ [s.currentCommand], s.isBackground⟩

end Parser

/-- The parser at the return of `pipeline_build`, for the characters of a line and a heap with what
has been left in it. -/
def pipelineBuild (heap : Heap) (commandLine : List UInt8) : Except Fault Parser := do
  let s ← Parser.loop (toInt32 commandLine.length) commandLine (Parser.start heap)
  s.finish

end OSChallenges.Shell
