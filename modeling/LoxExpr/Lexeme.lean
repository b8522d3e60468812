import LoxExpr.Token

/-!
The spellings that make a token: symbols, strings, numbers and words.

A lexeme knows its text, its kind and its value, so a token is a lexeme at a place.
-/

set_option autoImplicit false
set_option relaxedAutoImplicit false

namespace LoxExpr

/-- A spelling that makes a token. -/
inductive Lexeme where
  | symbol (s : Symbol)
  /-- A string, without the quotes around it. -/
  | string (inner : List Char)
  /-- A number: the digits before the point, and those behind it if there is a point. -/
  | number (whole fraction : List Char)
  | word (letters : List Char)
  deriving DecidableEq

namespace Lexeme

def text : Lexeme → List Char
  | symbol s => s.text
  | string inner => '"' :: inner ++ ['"']
  | number whole [] => whole
  | number whole fraction => whole ++ '.' :: fraction
  | word letters => letters

/-- The kind of token that a lexeme makes; a word that is no keyword is a name. -/
def kind : Lexeme → Token.Kind
  | symbol s => .symbol s
  | string _ => .string
  | number _ _ => .number
  | word letters =>
    match Keyword.ofText? (String.ofList letters) with
    | some k => .keyword k
    | none => .identifier

/-- The value of a lexeme; symbols and words have none. -/
def literal? : Lexeme → Option Literal
  | string inner => some (.string (String.ofList inner))
  | number whole fraction => some (.number (Decimal.ofDigits whole fraction).toBinary64)
  | _ => none

def tokenAt (l : Lexeme) (position : Position) : Token :=
  ⟨l.kind, String.ofList l.text, l.literal?, position⟩

end Lexeme

end LoxExpr
