import LoxExpr.Proofs.ViablePrefix
import Mathlib.Data.List.Basic

/-!
Which fault shows at a token is settled by what stands in front of it.

The last token taken tells whether a reading waits for an operand (`Reading.Step.last`), and the
parentheses taken count the groups that are still open (`Reading.openGroups_of_takeAll?`). These two
decide between the four faults.
-/

set_option autoImplicit false
set_option relaxedAutoImplicit false

namespace LoxExpr

namespace Token

def IsBinary (t : Token) : Prop := ∃ k, ∃ s ∈ binaryOperators k, t.kind = .symbol s

/-- Behind the token an operand has to follow. -/
def LeadsToOperand (t : Token) : Prop :=
  t.kind = .symbol .leftParen ∨ t.kind = .symbol .bang ∨ t.IsBinary

def EndsOperand (t : Token) : Prop :=
  t.kind = .symbol .rightParen ∨ t.kind = .keyword .falseWord ∨ t.kind = .keyword .trueWord ∨
    t.kind = .keyword .nilWord ∨
      (t.kind = .number ∨ t.kind = .string) ∧ t.literal?.isSome = true

variable {t : Token}

theorem EndsOperand.not_leadsToOperand (ends : t.EndsOperand) : ¬ t.LeadsToOperand := by
  have symbol : ∀ s, t.kind = .symbol s → s = .rightParen := by
    intro s hs
    unfold EndsOperand at ends
    simp only [hs, reduceCtorEq, or_false, false_and] at ends
    exact Kind.symbol.inj ends
  rintro (paren | bang | ⟨k, s, hs, binary⟩)
  · cases symbol _ paren
  · cases symbol _ bang
  · obtain rfl := symbol s binary
    have level := Symbol.binaryLevel?_eq_some_iff.mpr hs
    contradiction

end Token

/-- At the given index of some tokens an operand has to stand: it is the first, or it is behind a
token that leads to one. -/
def OperandPlace (tokens : List Token) (i : Nat) : Prop :=
  i = 0 ∨ ∃ t, tokens[i - 1]? = some t ∧ t.LeadsToOperand

theorem Frame.count_group_settle (level : Nat) (frames : List Frame) (e : Tree) :
    (settle level frames e).2.count .group = frames.count .group := by
  induction frames generalizing e with
  | nil => rfl
  | cons frame frames ih =>
    unfold settle
    split
    · rename_i held
      have other : frame ≠ .group := by
        rintro rfl
        contradiction
      rw [ih, List.count_cons_of_ne other]
    · rfl

namespace Reading

variable {limit : Option Nat} {r r' : Reading} {t : Token} {e : Tree} {frames : List Frame}
  {w : List Token}

def AwaitsOperand : Reading → Prop
  | operand _ => True
  | operator _ _ => False

def openGroups (r : Reading) : Nat := r.frames.count .group

theorem Step.last (step : Step limit r t r') :
    r'.AwaitsOperand ∧ t.LeadsToOperand ∨ ¬ r'.AwaitsOperand ∧ t.EndsOperand := by
  cases step with
  | leaf value =>
    refine .inr ⟨id, .inr ?_⟩
    cases Token.leaf?_eq_some_iff.mp value with
    | falseWord h => exact .inl h
    | trueWord h => exact .inr (.inl h)
    | nilWord h => exact .inr (.inr (.inl h))
    | literal h there => exact .inr (.inr (.inr ⟨h, by rw [there]; rfl⟩))
  | @nest frames t frame opening _ =>
    refine .inl ⟨trivial, ?_⟩
    rcases Token.isSome_frame?_iff.mp (by rw [opening]; rfl) with paren | bang | minus
    · exact .inl paren
    · exact .inr (.inl bang)
    · exact .inr (.inr ⟨3, .minus, by decide, minus⟩)
  | binary level _ => exact .inl ⟨trivial, .inr (.inr ⟨_, Token.binaryLevel?_eq_some_iff.mp level⟩)⟩
  | close paren _ => exact .inr ⟨id, .inl (Token.isRightParen_iff.mp paren)⟩

theorem Step.openGroups_add (step : Step limit r t r') :
    r'.openGroups + [t].countP Token.isRightParen =
      r.openGroups + [t].countP Token.isLeftParen := by
  cases step with
  | leaf value =>
    have other : t.isLeftParen = false ∧ t.isRightParen = false := by
      unfold Token.leaf? at value
      split at value <;> simp_all [Token.isLeftParen, Token.isRightParen]
    simp [openGroups, Reading.frames, other]
  | @nest frames t frame opening _ =>
    rcases Token.frame?_eq_some_iff.mp opening with ⟨paren, rfl⟩ | ⟨unary, rfl⟩
    · have right : t.isRightParen = false := by
        simp [Token.isRightParen, Token.isLeftParen_iff.mp paren]
      simp [openGroups, Reading.frames, paren, right]
    · have other : t.isLeftParen = false ∧ t.isRightParen = false := by
        rcases Token.isUnary_iff.mp unary with h | h <;>
          simp [Token.isLeftParen, Token.isRightParen, h]
      simp [openGroups, Reading.frames, other]
  | @binary e left frames outer t level hl settled =>
    have other : t.isLeftParen = false ∧ t.isRightParen = false := by
      obtain ⟨s, hs, hk⟩ := Token.binaryLevel?_eq_some_iff.mp hl
      have known := Symbol.binaryLevel?_eq_some_iff.mpr hs
      cases s <;> simp_all [Token.isLeftParen, Token.isRightParen, Symbol.binaryLevel?]
    have kept := Frame.count_group_settle level frames e
    rw [settled] at kept
    simp [openGroups, Reading.frames, other, kept]
  | @close e inner frames outer t paren settled =>
    have left : t.isLeftParen = false := by
      simp [Token.isLeftParen, Token.isRightParen_iff.mp paren]
    have kept := Frame.count_group_settle 0 frames e
    rw [settled, List.count_cons_self] at kept
    simp [openGroups, Reading.frames, paren, left, kept]

theorem openGroups_of_takeAll? (ht : r.takeAll? limit w = some r') :
    r'.openGroups + w.countP Token.isRightParen = r.openGroups + w.countP Token.isLeftParen := by
  induction w generalizing r with
  | nil =>
    obtain rfl := Option.some.inj ht
    rfl
  | cons t w ih =>
    obtain ⟨r₁, first, rest⟩ := Option.bind_eq_some_iff.mp ht
    have step := (take?_eq_some_iff.mp first).openGroups_add
    have later := ih rest
    rw [← List.singleton_append, List.countP_append, List.countP_append]
    omega

theorem awaitsOperand_iff_operandPlace (ht : start.takeAll? limit w = some r) (rest : List Token) :
    (r.AwaitsOperand ↔ OperandPlace (w ++ rest) w.length) ∧
      (¬ r.AwaitsOperand → ∃ t, (w ++ rest)[w.length - 1]? = some t ∧ t.EndsOperand) := by
  rcases List.eq_nil_or_concat' w with rfl | ⟨v, t, rfl⟩
  · obtain rfl := Option.some.inj ht
    exact ⟨iff_of_true trivial (.inl rfl), fun other => absurd trivial other⟩
  · obtain ⟨r₁, -, step⟩ := takeAll?_concat.mp ht
    have found : (v ++ [t] ++ rest)[(v ++ [t]).length - 1]? = some t := by simp
    have place : OperandPlace (v ++ [t] ++ rest) (v ++ [t]).length ↔ t.LeadsToOperand := by
      simp [OperandPlace]
    rw [place, found]
    rcases step.last with ⟨awaits, leads⟩ | ⟨other, ends⟩
    · exact ⟨iff_of_true awaits leads, fun other => absurd awaits other⟩
    · exact ⟨iff_of_false other ends.not_leadsToOperand, fun _ => ⟨t, rfl, ends⟩⟩

theorem faultAt_operand (frames : List Frame) (t : Token) :
    (operand frames).faultAt t =
      if t.frame?.isSome then .tooDeeplyNested else .expectedExpression := by
  unfold faultAt result
  cases t.frame?.isSome <;> rfl

theorem faultAt_operator (e : Tree) (frames : List Frame) (t : Token) :
    (operator e frames).faultAt t =
      if 0 < (operator e frames).openGroups then .missingRightParen
      else .expectedEndOfExpression := by
  have kept : (Frame.settle 0 frames e).2.count .group = (operator e frames).openGroups :=
    Frame.count_group_settle 0 frames e
  have left := Frame.settle_zero frames e
  rw [← kept]
  simp only [faultAt, result]
  generalize Frame.settle 0 frames e = settled at left
  obtain ⟨inner, outer⟩ := settled
  rcases left with rfl | ⟨outer, rfl, -⟩ <;> simp

theorem not_isBinary_of_stuck (stuck : (operator e frames).take? limit t = none) :
    ¬ t.IsBinary ∧ (t.isRightParen = true → (operator e frames).openGroups = 0) := by
  have never : ∀ r', ¬ Step limit (operator e frames) t r' := by
    intro r' step
    rw [take?_eq_some_iff.mpr step] at stuck
    contradiction
  constructor
  · rintro ⟨k, binary⟩
    exact never _ (.binary (Token.binaryLevel?_eq_some_iff.mpr binary) rfl)
  · intro paren
    have kept : (Frame.settle 0 frames e).2.count .group = (operator e frames).openGroups :=
      Frame.count_group_settle 0 frames e
    rcases Frame.settle_zero frames e with done | ⟨outer, left, -⟩
    · rw [← kept, done, List.count_nil]
    · exact absurd (.close paren (Prod.ext rfl left)) (never _)

end Reading

namespace Parser

/-- The fault that shows at a token is settled by what stands in front of the token.

Where an operand has to stand, a token that opens a group or a prefix operator nests too deeply, and
any other is no expression. Elsewhere the token in front ends an operand; a parenthesis is missing
if more of them have been opened than closed, and otherwise the end is expected. The token there is
never a binary operator, and it is a right parenthesis only if none is open. -/
theorem fault_of_preceding (tokens : List Token) (ends : tokens.getLast?.any Token.isEof = true) :
    ∃ p, ofTokens? tokens = some p ∧ ∀ error, p.parse = .error error →
      ∃ fault i t, tokens[i]? = some t ∧ error = .atToken fault t ∧
        Viable (tokens.take i) ∧ ¬ Viable (tokens.take (i + 1)) ∧
        (OperandPlace tokens i → fault =
          if t.kind = .symbol .leftParen ∨ t.kind = .symbol .bang ∨ t.kind = .symbol .minus
          then .tooDeeplyNested else .expectedExpression) ∧
        (¬ OperandPlace tokens i →
          let opened := (tokens.take i).countP Token.isLeftParen
          let closed := (tokens.take i).countP Token.isRightParen
          (∃ u, tokens[i - 1]? = some u ∧ u.EndsOperand) ∧ closed ≤ opened ∧
            (fault = if closed < opened then .missingRightParen else .expectedEndOfExpression) ∧
            ¬ t.IsBinary ∧ (t.kind = .symbol .rightParen → opened = closed)) := by
  obtain ⟨p, hp, failure⟩ := exists_stuck ends
  refine ⟨p, hp, ?_⟩
  intro error failed
  obtain ⟨before, t, after, r, rfl, ht, stuck, unfinished, shown⟩ := failure error failed
  obtain ⟨place, behind⟩ := Reading.awaitsOperand_iff_operandPlace ht (t :: after)
  have groups := Reading.openGroups_of_takeAll? ht
  have unviable := Viable.not_of_stuck ht stuck unfinished
  refine ⟨r.faultAt t, before.length, t, by simp, shown, ?_, ?_, ?_, ?_⟩
  · rw [List.take_left]
    exact .of_takeAll? ht
  · rwa [List.append_cons, List.take_left' (by simp)]
  · intro operandPlace
    cases r with
    | operator e frames => exact (place.mpr operandPlace).elim
    | operand frames => simp only [Reading.faultAt_operand, Token.isSome_frame?_iff]
  · intro operatorPlace
    cases r with
    | operand frames => exact absurd (place.mp trivial) operatorPlace
    | operator e frames =>
      obtain ⟨noOperator, closable⟩ := Reading.not_isBinary_of_stuck stuck
      have none : Reading.start.openGroups = 0 := rfl
      rw [List.take_left]
      have opened : before.countP Token.isRightParen < before.countP Token.isLeftParen ↔
          0 < (Reading.operator e frames).openGroups := by omega
      refine ⟨behind id, by omega, ?_, noOperator, ?_⟩
      · simp only [Reading.faultAt_operator, opened]
      · intro paren
        have := closable (Token.isRightParen_iff.mpr paren)
        omega

theorem fault_of_preceding_second_group :
    let tokens := [.bare (.symbol .leftParen) "(", .bare (.symbol .leftParen) "(",
      .bare (.keyword .nilWord) "nil", .bare (.symbol .rightParen) ")", .eof {}]
    tokens.getLast?.any Token.isEof = true ∧ ∃ p error, ofTokens? tokens = some p ∧
      p.parse = .error error ∧ ¬ OperandPlace tokens 4 ∧
      (tokens.take 4).countP Token.isRightParen < (tokens.take 4).countP Token.isLeftParen ∧
      error = .atToken .missingRightParen (.eof {}) := by
  intro tokens
  obtain ⟨p, hp, failure⟩ := fault_of_preceding tokens rfl
  obtain rfl := Option.some.inj hp
  have place : ¬ OperandPlace tokens 4 := by
    have ends : Token.EndsOperand (.bare (.symbol .rightParen) ")") := .inl rfl
    rintro (_ | ⟨u, hu, leads⟩)
    · contradiction
    · obtain rfl := Option.some.inj hu
      exact ends.not_leadsToOperand leads
  have open' : (tokens.take 4).countP Token.isRightParen <
      (tokens.take 4).countP Token.isLeftParen := by decide
  refine ⟨rfl, _, _, hp, rfl, place, open', ?_⟩
  obtain ⟨fault, i, t, ht, shown, -, unviable, -, operator⟩ := failure _ rfl
  match i with
  | 0 => exact absurd (Viable.of_takeAll? rfl) unviable
  | 1 => exact absurd (Viable.of_takeAll? rfl) unviable
  | 2 => exact absurd (Viable.of_takeAll? rfl) unviable
  | 3 => exact absurd (Viable.of_takeAll? rfl) unviable
  | 4 =>
    obtain ⟨-, -, missing, -⟩ := operator place
    obtain rfl := Option.some.inj ht
    rw [shown, missing, if_pos open']
  | i + 5 => simp [tokens] at ht

end Parser

end LoxExpr
