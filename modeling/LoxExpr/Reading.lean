import LoxExpr.Frame
import LoxExpr.SyntaxError

/-!
Reading an expression token by token.

Between two tokens a reading either waits for an operand or has just completed one, inside some
frames. `take?` says which tokens can come next and what becomes of the reading; `advance` takes as
many as it can; `result` says what the reading amounts to when the next token is not taken.
-/

set_option autoImplicit false
set_option relaxedAutoImplicit false

namespace LoxExpr

/-- A reading between two tokens. -/
inductive Reading where
  /-- An operand must follow. -/
  | operand (frames : List Frame)
  /-- An operand has just been completed. -/
  | operator (e : Tree) (frames : List Frame)
  deriving DecidableEq

namespace Reading

def start : Reading := operand []

def frames : Reading → List Frame
  | operand frames => frames
  | operator _ frames => frames

def depth (r : Reading) : Nat := Frame.depth r.frames

/-- The reading behind one more token in place of an operand: a value, or a frame that the limit
on nesting leaves room for. -/
def takeOperand? (limit : Option Nat) (frames : List Frame) (t : Token) : Option Reading :=
  match t.leaf?, t.frame? with
  | some value, _ => some (operator (.leaf value) frames)
  | none, some frame =>
    if limit.all (Frame.depth frames < ·) then some (operand (frame :: frames)) else none
  | none, none => none

/-- The reading behind one more token in place of an operator: a binary operator, or a parenthesis
that closes the nearest group. -/
def takeOperator? (e : Tree) (frames : List Frame) (t : Token) : Option Reading :=
  match t.binaryLevel? with
  | some level =>
    let (left, outer) := Frame.settle level frames e
    some (operand (.binary left t :: outer))
  | none =>
    if t.isRightParen then
      match Frame.settle 0 frames e with
      | (inner, .group :: outer) => some (operator (.group inner) outer)
      | _ => none
    else
      none

/-- The reading behind one more token, if the token can come next. -/
def take? (limit : Option Nat) : Reading → Token → Option Reading
  | operand frames, t => takeOperand? limit frames t
  | operator e frames, t => takeOperator? e frames t

/-- Takes tokens as long as they can come next: the reading behind them, and the tokens left. -/
def advance (limit : Option Nat) (r : Reading) : List Token → Reading × List Token
  | [] => (r, [])
  | t :: ts =>
    match r.take? limit t with
    | some r => r.advance limit ts
    | none => (r, t :: ts)

/-- The expression that has been read, or the fault, when the next token is not taken. -/
def result (r : Reading) (next : Token) : Except SyntaxFault Tree :=
  match r with
  | operand _ =>
    if next.frame?.isSome then .error .tooDeeplyNested else .error .expectedExpression
  | operator e frames =>
    match Frame.settle 0 frames e with
    | (e, []) => .ok e
    | _ => .error .missingRightParen

end Reading

end LoxExpr
