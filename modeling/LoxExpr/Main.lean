import LoxExpr.CommandLine

/-!
The program itself: reads files and the standard input, and writes what the shell answers.
-/

set_option autoImplicit false
set_option relaxedAutoImplicit false

namespace LoxExpr

/-- How many bytes of an outcome have been written. -/
structure Written where
  stdout : Nat := 0
  stderr : Nat := 0

/-- Writes the rest of an outcome. -/
def Written.emit (written : Written) (outcome : Outcome) : IO Written := do
  let stdout ← IO.getStdout
  stdout.write (outcome.stdout.extract written.stdout outcome.stdout.size)
  stdout.flush
  (← IO.getStderr).write (outcome.stderr.extract written.stderr outcome.stderr.size)
  return ⟨outcome.stdout.size, outcome.stderr.size⟩

/-- Ends the program with an outcome, of which some may have been written. -/
def Written.exit (written : Written) (outcome : Outcome) : IO UInt32 := do
  let _ ← written.emit outcome
  return outcome.exitCode

/-- The code of the system for reading from a directory. -/
def directoryCode : UInt32 := 21

def readFile (name : String) : IO (Except ReadError ByteArray) := do
  try
    return .ok (← IO.FS.readBinFile name)
  catch
    | .noFileOrDirectory .. => return .error .notFound
    | .inappropriateType _ code _ =>
      return .error (if code = directoryCode then .isDirectory else .notADirectory)
    | e => throw e

/-- Reads the bytes of one line, with its line feed; `pending` holds what was read beyond the line
before. -/
partial def readLine (stdin : IO.FS.Stream) (pending : List UInt8) :
    IO (List UInt8 × List UInt8) := do
  match pending.span (· != 10) with
  | (line, feed :: rest) => return (line ++ [feed], rest)
  | (line, []) =>
    let more ← stdin.read 4096
    if more.isEmpty then
      return (line, [])
    else
      readLine stdin (line ++ more.toList)

/-- Runs lines from the standard input, all in one shell, until it ends or one cannot be read. -/
partial def prompt (s : Shell) (listTokens : Bool) (stdin : IO.FS.Stream) (pending : List UInt8)
    (written : Written) : IO UInt32 := do
  let s := s.print Shell.promptText
  let written ← written.emit (s.finish 0)
  let (line, pending) ← readLine stdin pending
  if line.isEmpty then
    written.exit (s.finish 0)
  else
    match s.runLine line listTokens with
    | .ok s =>
      let written ← written.emit (s.finish 0)
      prompt s listTokens stdin pending written
    | .error e => written.exit (s.fail e)

def helpText : String :=
  Shell.usageText ++ "\n" ++
    "Arguments:\n  [SCRIPTS]...  Script to run. Starts an interactive prompt if omitted\n\n" ++
    "Options:\n      --tokens  Print the scanned tokens before the parsed expression\n" ++
    "  -h, --help    Print help\n"

/-- The exit code for arguments that are refused. -/
def argumentsError : UInt32 := 2

end LoxExpr

open LoxExpr in
def main (args : List String) : IO UInt32 := do
  match Options.read {} args with
  | .help => Written.exit {} ⟨0, helpText.toUTF8, .empty⟩
  | .refused => Written.exit {} ⟨argumentsError, .empty, Shell.usageText.toUTF8⟩
  | .options o =>
    match o.scripts with
    | [] => prompt .start o.listTokens (← IO.getStdin) [] {}
    | [script] => Written.exit {} (Shell.runScript o.listTokens (← readFile script))
    | _ => Written.exit {} Shell.showUsage
