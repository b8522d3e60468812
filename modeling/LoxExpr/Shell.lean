import LoxExpr.Input
import LoxExpr.Run

/-!
Running a script, and running the lines of an input one by one at a prompt.
-/

set_option autoImplicit false
set_option relaxedAutoImplicit false

namespace LoxExpr

/-- What a program leaves behind: an exit code and what it wrote. -/
structure Outcome where
  exitCode : UInt32
  stdout : ByteArray
  stderr : ByteArray

/-- The standard output of a program, and the journal that is echoed to its error output. -/
structure Shell where
  stdout : Sink
  journal : Journal

namespace Shell

def start : Shell := ⟨{}, { echo? := some {} }⟩

def print (s : Shell) (text : String) : Shell := { s with stdout := (s.stdout.write text).1 }

def run (s : Shell) (source : String) (listTokens : Bool) : Shell :=
  let r := Run.ofSource source listTokens s.journal s.stdout
  ⟨r.output, r.journal⟩

/-- Runs one line of an input, without its line end, and clears the journal. -/
def runLine (s : Shell) (line : List UInt8) (listTokens : Bool) : Except ReadError Shell := do
  let text ← Input.decode line.toByteArray
  let s := s.run (Input.trimLineEnd text) listTokens
  return { s with journal := s.journal.clear }

def finish (s : Shell) (exitCode : UInt32) : Outcome :=
  ⟨exitCode, s.stdout.received, (s.journal.echo?.getD {}).received⟩

def fail (s : Shell) (e : ReadError) : Outcome :=
  let outcome := s.finish 1
  { outcome with stderr := outcome.stderr ++ ("Error: " ++ e.message ++ "\n").toUTF8 }

def promptText : String := "> "

/-- Runs lines until there are no more or one cannot be read, with a prompt before each. -/
def runLines (s : Shell) (listTokens : Bool) : List (List UInt8) → Outcome
  | [] => (s.print promptText).finish 0
  | line :: lines =>
    let s := s.print promptText
    match s.runLine line listTokens with
    | .ok s => s.runLines listTokens lines
    | .error e => s.fail e

def dataError : UInt32 := 65

def usageError : UInt32 := 64

def usageText : String := "Usage: lox [script]\n"

def runScript (listTokens : Bool) (content : Except ReadError ByteArray) : Outcome :=
  match content >>= Input.decode with
  | .ok source =>
    let s := start.run source listTokens
    s.finish (if s.journal.hasErrors then dataError else 0)
  | .error e => start.fail e

def runPrompt (listTokens : Bool) (input : ByteArray) : Outcome :=
  start.runLines listTokens (Input.lines input.toList)

def showUsage : Outcome := (start.print usageText).finish usageError

end Shell

end LoxExpr
