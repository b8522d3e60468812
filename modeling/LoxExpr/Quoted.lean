/-!
Quoted texts: a text between double quotes, with the characters escaped that would end it, start
an escape, or leave the line.
-/

set_option autoImplicit false
set_option relaxedAutoImplicit false

namespace LoxExpr.Quoted

/-- How one character stands between the quotes. -/
def escape : Char → List Char
  | '"' => ['\\', '"']
  | '\\' => ['\\', '\\']
  | '\n' => ['\\', 'n']
  | '\r' => ['\\', 'r']
  | '\t' => ['\\', 't']
  | c => [c]

/-- A text between double quotes, each of its characters escaped where needed. -/
def encode (text : String) : String :=
  String.ofList ('"' :: text.toList.flatMap escape ++ ['"'])

end LoxExpr.Quoted
