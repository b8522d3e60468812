import LoxExpr.Parser.Report

/-!
Running a source: its tokens are listed if asked for, and the expression is written in prefix form
if nothing was recorded against it.
-/

set_option autoImplicit false
set_option relaxedAutoImplicit false

namespace LoxExpr

/-- The line of a token in the list of tokens: kind, text and value, as far as there are any. -/
def Token.listing (t : Token) : String :=
  match t.literal? with
  | some value => t.kind.name ++ " " ++ t.lexeme ++ " " ++ value.text ++ "\n"
  | none => if t.lexeme = "" then t.kind.name ++ "\n" else t.kind.name ++ " " ++ t.lexeme ++ "\n"

structure Run where
  journal : Journal
  output : Sink
  completed : Bool

namespace Run

/-- The message with which a run fails; it can only fail to write. -/
def error? (r : Run) : Option String := if r.completed then none else some Sink.fullMessage

/-- Reads the tokens of a source as an expression and writes it in prefix form, unless the journal
holds anything by then. A source without tokens is no expression and no error. -/
def evaluate (s : Scan) (journal : Journal) (output : Sink) : Run :=
  if s.words.isEmpty then
    ⟨journal, output, true⟩
  else
    match (Parser.ofScan s).parseInto journal with
    | (none, journal) => ⟨journal, output, true⟩
    | (some e, journal) =>
      if journal.hasErrors then
        ⟨journal, output, true⟩
      else
        let (output, completed) := output.write (e.text ++ "\n")
        ⟨journal, output, completed⟩

/-- Runs a source: scans it, lists the tokens if asked for, and goes on with the expression. The
run stops at the first text that the output does not take in full. -/
def ofSource (source : String) (listTokens : Bool) (journal : Journal) (output : Sink) : Run :=
  let s := Scan.ofSource source
  let journal := journal.recordScan s
  match output.writeAll (if listTokens then s.tokens.map Token.listing else []) with
  | (output, true) => evaluate s journal output
  | (output, false) => ⟨journal, output, false⟩

end Run

/-- One step of a session that shares its journal. -/
inductive SessionStep where
  | clear
  | run (source : String) (listTokens : Bool) (capacity? : Option Nat)

/-- Takes one step; clearing writes nothing. -/
def SessionStep.perform (journal : Journal) : SessionStep → Run
  | .clear => ⟨journal.clear, {}, true⟩
  | .run source listTokens capacity? =>
    Run.ofSource source listTokens journal { capacity? := capacity? }

end LoxExpr
