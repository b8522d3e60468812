import LoxExpr.Journal
import LoxExpr.Parser
import LoxExpr.Scan

/-!
Scanning and parsing with the errors recorded in a journal.
-/

set_option autoImplicit false
set_option relaxedAutoImplicit false

namespace LoxExpr

namespace Journal

def recordScan (j : Journal) (s : Scan) : Journal := j.recordAll s.diagnostics

/-- Records the error, if that is what came out. -/
def recordResult {α : Type} (j : Journal) : Except SyntaxError α → Journal
  | .ok _ => j
  | .error e => j.record e.diagnostic

end Journal

namespace Parser

/-- The parser at the start of the tokens of a source. -/
def ofScan (s : Scan) : Parser := ⟨0, s.words, s.eof, .start⟩

/-- What a parser can be asked for again and again. -/
inductive Request where
  | readExpression
  | recover
  deriving DecidableEq

inductive Reply where
  | expression (result : Except SyntaxError Tree)
  | recovered

/-- Answers a request; the parser moves on, and an error is recorded. -/
def answer (p : Parser) (j : Journal) : Request → Reply × Parser × Journal
  | .readExpression =>
    let (result, p) := p.readExpression
    (.expression result, p, j.recordResult result)
  | .recover => (.recovered, p.recover, j)

/-- Reads all tokens up to the end as one expression; an error is recorded. -/
def parseInto (p : Parser) (j : Journal) : Option Tree × Journal :=
  let result := p.parse
  (result.toOption, j.recordResult result)

end Parser

/-- Scans a source and reads its tokens as one expression; all errors are recorded. -/
def parseSource (source : String) (j : Journal) : Option Tree × Journal :=
  let s := Scan.ofSource source
  (Parser.ofScan s).parseInto (j.recordScan s)

end LoxExpr
