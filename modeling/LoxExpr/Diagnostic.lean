/-!
Messages about a source: the line, where on it, and what is wrong.
-/

set_option autoImplicit false
set_option relaxedAutoImplicit false

namespace LoxExpr

/-- Where a message points to, beside its line. -/
inductive Location where
  | nowhere
  | atEnd
  | atLexeme (lexeme : String)
  deriving DecidableEq

def Location.text : Location → String
  | .nowhere => ""
  | .atEnd => " at end"
  | .atLexeme lexeme => " at '" ++ lexeme ++ "'"

structure Diagnostic where
  line : Nat
  location : Location
  message : String
  deriving DecidableEq

/-- A diagnostic that points to a line alone. -/
def Diagnostic.onLine (line : Nat) (message : String) : Diagnostic := ⟨line, .nowhere, message⟩

/-- A diagnostic names its line in brackets, then the location, then the message. -/
def Diagnostic.text (d : Diagnostic) : String :=
  "[line " ++ d.line.repr ++ "] Error" ++ d.location.text ++ ": " ++ d.message

end LoxExpr
