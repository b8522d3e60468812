import LoxExpr.Diagnostic
import LoxExpr.Token

/-!
Syntax errors: what is wrong, and the token at which it shows.
-/

set_option autoImplicit false
set_option relaxedAutoImplicit false

namespace LoxExpr

/-- The ways in which tokens can fail to be an expression. -/
inductive SyntaxFault where
  | missingRightParen
  | expectedExpression
  | expectedEndOfExpression
  | tooDeeplyNested
  deriving DecidableEq

namespace SyntaxFault

def name : SyntaxFault → String
  | missingRightParen => "MissingRightParen"
  | expectedExpression => "ExpectedExpression"
  | expectedEndOfExpression => "ExpectedEndOfExpression"
  | tooDeeplyNested => "TooDeeplyNested"

def message : SyntaxFault → String
  | missingRightParen => "Expect ')' after expression."
  | expectedExpression => "Expect expression."
  | expectedEndOfExpression => "Expect end of expression."
  | tooDeeplyNested => "Expression nests too deeply."

end SyntaxFault

/-- A fault and the token at which it shows, given by its line and its location. -/
structure SyntaxError where
  fault : SyntaxFault
  line : Nat
  location : Location
  deriving DecidableEq

namespace SyntaxError

def atToken (fault : SyntaxFault) (t : Token) : SyntaxError where
  fault := fault
  line := t.position.line
  location := if t.isEof then .atEnd else .atLexeme t.lexeme

/-- An error is shown as its message. -/
def text (e : SyntaxError) : String := e.fault.message

def diagnostic (e : SyntaxError) : Diagnostic := ⟨e.line, e.location, e.text⟩

end SyntaxError

end LoxExpr
