import LoxExpr.Literal
import LoxExpr.Position
import LoxExpr.Token.Kind

/-!
Tokens: a kind, the text of the source it was read from, a value for strings and numbers, and the
place where the text starts.
-/

set_option autoImplicit false
set_option relaxedAutoImplicit false

namespace LoxExpr

/-- One word or symbol of a source, or its end. -/
structure Token where
  kind : Token.Kind
  lexeme : String
  /-- The value, if the token stands for one that its kind does not tell. -/
  literal? : Option Literal
  position : Position
  deriving DecidableEq

namespace Token

/-- The token behind the last character of a source. -/
def eof (position : Position) : Token := ⟨.eof, "", none, position⟩

def isEof (t : Token) : Bool := t.kind == .eof

/-- A token is shown as its text in the source. -/
def text (t : Token) : String := t.lexeme

/-- Tokens are equal when all their parts are, values by `Literal.equal`. -/
def equal (a b : Token) : Bool :=
  a.kind == b.kind && a.lexeme == b.lexeme && Literal.equal? a.literal? b.literal? &&
    a.position == b.position

end Token

end LoxExpr
