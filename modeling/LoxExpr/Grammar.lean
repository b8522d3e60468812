import LoxExpr.Tree

/-!
The parts that tokens play in expressions: values, opening parentheses and prefix operators, binary
operators with their levels, and the starts of statements.
-/

set_option autoImplicit false
set_option relaxedAutoImplicit false

namespace LoxExpr

/-- The level of a binary operator: equality 1, comparison 2, sums 3, products 4. An operator of a
higher level binds its operands more tightly. -/
def Symbol.binaryLevel? : Symbol → Option Nat
  | .bangEqual | .equalEqual => some 1
  | .greater | .greaterEqual | .less | .lessEqual => some 2
  | .minus | .plus => some 3
  | .slash | .star => some 4
  | _ => none

def Keyword.startsStatement : Keyword → Bool
  | .classWord | .forWord | .funWord | .ifWord | .printWord | .returnWord | .varWord
  | .whileWord => true
  | _ => false

namespace Token

def binaryLevel? (t : Token) : Option Nat :=
  match t.kind with
  | .symbol s => s.binaryLevel?
  | _ => none

/-- The token is an operator in front of its one operand. -/
def isUnary (t : Token) : Bool :=
  t.kind == .symbol .bang || t.kind == .symbol .minus

def isLeftParen (t : Token) : Bool := t.kind == .symbol .leftParen

def isRightParen (t : Token) : Bool := t.kind == .symbol .rightParen

/-- The value of a token that is an expression by itself. -/
def leaf? (t : Token) : Option Literal :=
  match t.kind with
  | .keyword .falseWord => some (.boolean false)
  | .keyword .trueWord => some (.boolean true)
  | .keyword .nilWord => some .nil
  | .string | .number => t.literal?
  | _ => none

def endsStatement (t : Token) : Bool := t.kind == .symbol .semicolon

def startsStatement (t : Token) : Bool :=
  match t.kind with
  | .keyword k => k.startsStatement
  | _ => false

end Token

end LoxExpr
