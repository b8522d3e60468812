import LoxExpr.Binary64.Shortest

/-!
The values that a literal stands for, their text and their equality.
-/

set_option autoImplicit false
set_option relaxedAutoImplicit false

namespace LoxExpr

inductive Literal where
  | nil
  | boolean (value : Bool)
  | string (value : String)
  | number (value : Binary64)
  deriving DecidableEq

namespace Literal

/-- A string stands for itself, and a number for its shortest decimal. -/
def text : Literal → String
  | nil => "nil"
  | boolean true => "true"
  | boolean false => "false"
  | string value => value
  | number value => value.text

/-- Values of one kind are equal when their contents are, numbers by `Binary64.equal`. -/
def equal : Literal → Literal → Bool
  | nil, nil => true
  | boolean a, boolean b => a == b
  | string a, string b => a == b
  | number a, number b => a.equal b
  | _, _ => false

def equal? : Option Literal → Option Literal → Bool
  | none, none => true
  | some a, some b => a.equal b
  | _, _ => false

end Literal

end LoxExpr
