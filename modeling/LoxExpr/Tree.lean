import LoxExpr.Token

/-!
Expression trees and their text in prefix form.

The text of a tree is made of the texts of its parts (`text_binary`, `text_group`, `text_unary`,
`text_leaf`).
-/

set_option autoImplicit false
set_option relaxedAutoImplicit false

namespace LoxExpr

/-- An expression; operators are kept as the tokens that they were read from. -/
inductive Tree where
  | leaf (value : Literal)
  | group (inner : Tree)
  | unary (operator : Token) (operand : Tree)
  | binary (left : Tree) (operator : Token) (right : Tree)
  deriving DecidableEq

namespace Tree

/-- Writes the prefix form of an expression behind a text: each operation in parentheses, the
operator in front of its operands. -/
def writeTo (out : String) : Tree → String
  | leaf value => out ++ value.text
  | group inner => writeTo (out ++ "(group ") inner ++ ")"
  | unary operator operand => writeTo (out ++ "(" ++ operator.text ++ " ") operand ++ ")"
  | binary left operator right =>
    writeTo (writeTo (out ++ "(" ++ operator.text ++ " ") left ++ " ") right ++ ")"

def text (e : Tree) : String := e.writeTo ""

theorem writeTo_eq (out : String) (e : Tree) : e.writeTo out = out ++ e.text := by
  induction e generalizing out with
  | leaf value => simp [text, writeTo]
  | group inner ih =>
    simp only [text, writeTo]
    rw [ih, ih ("" ++ _)]
    simp [String.append_assoc]
  | unary operator operand ih =>
    simp only [text, writeTo]
    rw [ih, ih ("" ++ _ ++ _ ++ _)]
    simp [String.append_assoc]
  | binary left operator right ihl ihr =>
    simp only [text, writeTo]
    rw [ihr, ihl, ihr (_ ++ " "), ihl ("" ++ _ ++ _ ++ _)]
    simp [String.append_assoc]

theorem text_leaf (value : Literal) : (leaf value).text = value.text := by
  simp [text, writeTo]

theorem text_group (inner : Tree) : (group inner).text = "(group " ++ inner.text ++ ")" := by
  simp [text.eq_def (group _), writeTo, writeTo_eq, String.append_assoc]

theorem text_unary (operator : Token) (operand : Tree) :
    (unary operator operand).text = "(" ++ operator.text ++ " " ++ operand.text ++ ")" := by
  simp [text.eq_def (unary _ _), writeTo, writeTo_eq, String.append_assoc]

theorem text_binary (left : Tree) (operator : Token) (right : Tree) :
    (binary left operator right).text =
      "(" ++ operator.text ++ " " ++ left.text ++ " " ++ right.text ++ ")" := by
  simp [text.eq_def (binary _ _ _), writeTo, writeTo_eq, String.append_assoc]

/-- Expressions are equal when they have one shape, equal operators and equal values. -/
def equal : Tree → Tree → Bool
  | leaf v₁, leaf v₂ => v₁.equal v₂
  | group e₁, group e₂ => e₁.equal e₂
  | unary o₁ e₁, unary o₂ e₂ => o₁.equal o₂ && e₁.equal e₂
  | binary l₁ o₁ r₁, binary l₂ o₂ r₂ => l₁.equal l₂ && o₁.equal o₂ && r₁.equal r₂
  | _, _ => false

end Tree

end LoxExpr
