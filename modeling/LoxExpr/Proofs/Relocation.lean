import LoxExpr.Proofs.Transcript

/-!
Reading tokens as an expression does not look at their places.

Tokens that are moved elsewhere are taken as before, with the same operators at their new places in
the frames and in the expression (`Reading.advance_relocate`), and an error shows at the same token
(`Parser.parseWithin_relocate`).
-/

set_option autoImplicit false
set_option relaxedAutoImplicit false

namespace LoxExpr

def Token.relocate (place : Token → Position) (t : Token) : Token := { t with position := place t }

def Tree.relocate (place : Token → Position) : Tree → Tree
  | leaf value => leaf value
  | group inner => group (inner.relocate place)
  | unary operator operand => unary (operator.relocate place) (operand.relocate place)
  | binary left operator right =>
    binary (left.relocate place) (operator.relocate place) (right.relocate place)

def Frame.relocate (place : Token → Position) : Frame → Frame
  | group => group
  | unary operator => unary (operator.relocate place)
  | binary left operator => binary (left.relocate place) (operator.relocate place)

def Reading.relocate (place : Token → Position) : Reading → Reading
  | operand frames => operand (frames.map (.relocate place))
  | operator e frames => operator (e.relocate place) (frames.map (.relocate place))

def Parser.relocate (place : Token → Position) (p : Parser) : Parser where
  taken := p.taken
  ahead := p.ahead.map (.relocate place)
  finish := p.finish.relocate place
  reading := p.reading.relocate place

variable (place : Token → Position)

theorem Tree.text_relocate (e : Tree) : (e.relocate place).text = e.text := by
  induction e with
  | leaf value => rfl
  | group inner ih => rw [relocate, text_group, ih, text_group]
  | unary operator operand ih =>
    rw [relocate, text_unary, ih, text_unary]
    rfl
  | binary left operator right ihl ihr =>
    rw [relocate, text_binary, ihl, ihr, text_binary]
    rfl

namespace Frame

theorem holds_relocate (level : Nat) (frame : Frame) :
    (frame.relocate place).holds level = frame.holds level := by
  cases frame <;> rfl

theorem fill_relocate (frame : Frame) (e : Tree) :
    (frame.relocate place).fill (e.relocate place) = (frame.fill e).relocate place := by
  cases frame <;> rfl

theorem depth_relocate (frames : List Frame) :
    depth (frames.map (.relocate place)) = depth frames := by
  have same : ∀ frame : Frame, (frame.relocate place).nests = frame.nests := by
    intro frame
    cases frame <;> rfl
  simp only [depth, List.countP_map, Function.comp_def, same]

theorem settle_relocate (level : Nat) (frames : List Frame) (e : Tree) :
    settle level (frames.map (.relocate place)) (e.relocate place) =
      ((settle level frames e).1.relocate place,
        (settle level frames e).2.map (.relocate place)) := by
  induction frames generalizing e with
  | nil => rfl
  | cons frame frames ih =>
    rw [List.map_cons, settle, settle, holds_relocate]
    by_cases held : frame.holds level = true
    · rw [if_pos held, if_pos held, fill_relocate, ih]
    · rw [if_neg held, if_neg held, List.map_cons]

end Frame

theorem Token.frame?_relocate (t : Token) :
    (t.relocate place).frame? = t.frame?.map (.relocate place) := by
  show (if t.isLeftParen then _ else if t.isUnary then _ else _) =
    (if t.isLeftParen then _ else if t.isUnary then _ else _ : Option Frame).map _
  cases t.isLeftParen <;> cases t.isUnary <;> rfl

namespace Reading

variable (limit : Option Nat)

private theorem takeOperand?_relocate (frames : List Frame) (t : Token) :
    takeOperand? limit (frames.map (.relocate place)) (t.relocate place) =
      (takeOperand? limit frames t).map (.relocate place) := by
  have leaf : (t.relocate place).leaf? = t.leaf? := rfl
  unfold takeOperand?
  rw [leaf, Token.frame?_relocate, Frame.depth_relocate]
  cases t.leaf? with
  | some value => rfl
  | none =>
    cases t.frame? with
    | none => rfl
    | some frame =>
      simp only [Option.map_some]
      split <;> rfl

private theorem takeOperator?_relocate (e : Tree) (frames : List Frame) (t : Token) :
    takeOperator? (e.relocate place) (frames.map (.relocate place)) (t.relocate place) =
      (takeOperator? e frames t).map (.relocate place) := by
  have level : (t.relocate place).binaryLevel? = t.binaryLevel? := rfl
  have paren : (t.relocate place).isRightParen = t.isRightParen := rfl
  unfold takeOperator?
  rw [level, paren, Frame.settle_relocate]
  cases t.binaryLevel? with
  | some k =>
    simp only [Frame.settle_relocate]
    rfl
  | none =>
    cases t.isRightParen with
    | false => rfl
    | true =>
      obtain ⟨inner, outer⟩ := Frame.settle 0 frames e
      cases outer with
      | nil => rfl
      | cons frame outer => cases frame <;> rfl

theorem take?_relocate (r : Reading) (t : Token) :
    (r.relocate place).take? limit (t.relocate place) =
      (r.take? limit t).map (.relocate place) := by
  cases r with
  | operand frames => exact takeOperand?_relocate place limit frames t
  | operator e frames => exact takeOperator?_relocate place e frames t

theorem advance_relocate (r : Reading) (tokens : List Token) :
    (r.relocate place).advance limit (tokens.map (.relocate place)) =
      ((r.advance limit tokens).1.relocate place,
        (r.advance limit tokens).2.map (.relocate place)) := by
  induction tokens generalizing r with
  | nil => rfl
  | cons t ts ih =>
    rw [List.map_cons, advance, advance, take?_relocate]
    cases r.take? limit t with
    | none => rfl
    | some r' => exact ih r'

theorem result_relocate (r : Reading) (t : Token) :
    (r.relocate place).result (t.relocate place) = (r.result t).map (.relocate place) := by
  cases r with
  | operand frames =>
    show (if (t.relocate place).frame?.isSome then _ else _) = _
    rw [Token.frame?_relocate, Option.isSome_map, result]
    split <;> rfl
  | operator e frames =>
    simp only [relocate, result, Frame.settle_relocate]
    obtain ⟨inner, outer⟩ := Frame.settle 0 frames e
    cases outer <;> rfl

end Reading

namespace Parser

variable (limit : Option Nat)

theorem advance_relocate (p : Parser) :
    (p.relocate place).advance limit = (p.advance limit).relocate place := by
  simp only [advance, relocate, moveTo, Reading.advance_relocate, List.length_map]

theorem next_relocate (p : Parser) : (p.relocate place).next = p.next.relocate place := by
  obtain ⟨taken, ahead, finish, reading⟩ := p
  cases ahead <;> rfl

theorem parseWithin_eq_advance (p : Parser) :
    p.parseWithin limit =
      match (p.advance limit).reading.result (p.advance limit).next with
      | .ok e =>
        if (p.advance limit).ahead.isEmpty then .ok e
        else .error (.atToken .expectedEndOfExpression (p.advance limit).next)
      | .error fault => .error (.atToken fault (p.advance limit).next) := by
  unfold parseWithin readWithin
  cases result : (p.advance limit).reading.result (p.advance limit).next with
  | ok e =>
    simp only [result]
    rfl
  | error fault => cases fault <;> simp only [result]

theorem parseWithin_relocate (p : Parser) :
    (∃ e, p.parseWithin limit = .ok e ∧
        (p.relocate place).parseWithin limit = .ok (e.relocate place)) ∨
      ∃ fault t, p.parseWithin limit = .error (.atToken fault t) ∧
        (p.relocate place).parseWithin limit = .error (.atToken fault (t.relocate place)) := by
  have reading : ((p.advance limit).relocate place).reading =
      (p.advance limit).reading.relocate place := rfl
  have left : ((p.advance limit).relocate place).ahead.isEmpty = (p.advance limit).ahead.isEmpty :=
    List.isEmpty_map
  rw [parseWithin_eq_advance, parseWithin_eq_advance, advance_relocate, next_relocate, reading,
    Reading.result_relocate, left]
  cases (p.advance limit).reading.result (p.advance limit).next with
  | error fault => exact .inr ⟨fault, _, rfl, rfl⟩
  | ok e =>
    cases (p.advance limit).ahead.isEmpty with
    | true => exact .inl ⟨e, rfl, rfl⟩
    | false => exact .inr ⟨_, _, rfl, rfl⟩

end Parser

namespace Scan

variable {s s' : Scan}

theorem outcome?_relocate (words : s'.words = s.words.map (.relocate place))
    (eof : s'.eof = s.eof.relocate place) :
    (s.outcome? = none ∧ s'.outcome? = none) ∨
      (∃ e, s.outcome? = some (.ok e) ∧ s'.outcome? = some (.ok (e.relocate place))) ∨
      ∃ fault t, s.outcome? = some (.error (.atToken fault t)) ∧
        s'.outcome? = some (.error (.atToken fault (t.relocate place))) := by
  have empty : s'.words.isEmpty = s.words.isEmpty := by rw [words, List.isEmpty_map]
  have parser : Parser.ofScan s' = (Parser.ofScan s).relocate place := by
    rw [Parser.ofScan, words, eof]
    rfl
  unfold outcome?
  rw [empty, parser]
  cases s.words.isEmpty with
  | true => exact .inl ⟨rfl, rfl⟩
  | false =>
    rcases Parser.parseWithin_relocate place (some nestingLimit) (Parser.ofScan s) with
      ⟨e, here, there⟩ | ⟨fault, t, here, there⟩
    · exact .inr (.inl ⟨e, congrArg some here, congrArg some there⟩)
    · exact .inr (.inr ⟨fault, t, congrArg some here, congrArg some there⟩)

end Scan

end LoxExpr
