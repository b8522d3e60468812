import LoxExpr.Grammar

/-!
Constructs that have been begun and wait for their last operand.

The frames around a place in an expression are listed from the inside out. `settle` fills those that
bind an operand more tightly than the operator that follows it.
-/

set_option autoImplicit false
set_option relaxedAutoImplicit false

namespace LoxExpr

/-- A construct that waits for its last operand. -/
inductive Frame where
  | group
  | unary (operator : Token)
  | binary (left : Tree) (operator : Token)
  deriving DecidableEq

namespace Frame

def fill : Frame → Tree → Tree
  | group, e => .group e
  | unary operator, e => .unary operator e
  | binary left operator, e => .binary left operator e

/-- Groups and prefix operators nest; binary operators do not. -/
def nests : Frame → Bool
  | group => true
  | unary _ => true
  | binary _ _ => false

/-- The number of groups and prefix operators around a place. -/
def depth (frames : List Frame) : Nat := frames.countP nests

/-- The frame binds its operand at least as tightly as a binary operator of the given level, which
follows the operand; level 0 stands for the end of the expression or group. -/
def holds (level : Nat) : Frame → Bool
  | group => false
  | unary _ => true
  | binary _ operator => level ≤ operator.binaryLevel?.getD 0

/-- Fills frames from the inside out as long as they hold the operand: the filled expression, and
the frames left around it. -/
def settle (level : Nat) : List Frame → Tree → Tree × List Frame
  | [], e => (e, [])
  | frame :: frames, e =>
    if frame.holds level then settle level frames (frame.fill e) else (e, frame :: frames)

end Frame

/-- The frame that a token opens in place of an operand: a group or a prefix operator. -/
def Token.frame? (t : Token) : Option Frame :=
  if t.isLeftParen then some .group else if t.isUnary then some (.unary t) else none

end LoxExpr
