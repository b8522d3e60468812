import LoxExpr.Grammar

/-!
The layered grammar of expressions, apart from any way of reading it.

`Tree.Spells` relates an expression to the tokens it is written with. `Tree.AtLevel` gives the level
of an expression whose operands all stand at the levels that the grammar asks for, and
`Tree.nesting` counts the groups and prefix operators that enclose one another.
-/

set_option autoImplicit false
set_option relaxedAutoImplicit false

namespace LoxExpr

/-- The binary operators of each level; those of a higher level bind more tightly. -/
def binaryOperators : Nat → List Symbol
  | 1 => [.bangEqual, .equalEqual]
  | 2 => [.greater, .greaterEqual, .less, .lessEqual]
  | 3 => [.minus, .plus]
  | 4 => [.slash, .star]
  | _ => []

namespace Tree

/-- The tokens that an expression is written with, in order. Operators stand for themselves, so
only a value and a pair of parentheses leave a choice. -/
inductive Spells : Tree → List Token → Prop
  | falseWord {t : Token} : t.kind = .keyword .falseWord → Spells (.leaf (.boolean false)) [t]
  | trueWord {t : Token} : t.kind = .keyword .trueWord → Spells (.leaf (.boolean true)) [t]
  | nilWord {t : Token} : t.kind = .keyword .nilWord → Spells (.leaf .nil) [t]
  | literal {t : Token} {value : Literal} :
      t.kind = .number ∨ t.kind = .string → t.literal? = some value → Spells (.leaf value) [t]
  | group {left right : Token} {inner : Tree} {w : List Token} :
      left.kind = .symbol .leftParen → right.kind = .symbol .rightParen → Spells inner w →
      Spells (.group inner) (left :: w ++ [right])
  | unary {operator : Token} {operand : Tree} {w : List Token} :
      Spells operand w → Spells (.unary operator operand) (operator :: w)
  | binary {operator : Token} {left right : Tree} {v w : List Token} :
      Spells left v → Spells right w → Spells (.binary left operator right) (v ++ operator :: w)

/-- The level of an expression whose parts stand where the grammar lets them: operands of a binary
operator to its left at its level or above, to its right above it, and operands of a prefix
operator at level 5 or above. -/
inductive AtLevel : Tree → Nat → Prop
  | leaf {value : Literal} : AtLevel (.leaf value) 6
  | group {inner : Tree} {k : Nat} : AtLevel inner k → AtLevel (.group inner) 6
  | unary {operator : Token} {operand : Tree} {k : Nat} :
      operator.kind = .symbol .bang ∨ operator.kind = .symbol .minus →
      AtLevel operand k → 5 ≤ k → AtLevel (.unary operator operand) 5
  | binary {operator : Token} {s : Symbol} {left right : Tree} {i j k : Nat} :
      operator.kind = .symbol s → s ∈ binaryOperators k →
      AtLevel left i → k ≤ i → AtLevel right j → k < j → AtLevel (.binary left operator right) k

def Stratified (e : Tree) : Prop := ∃ k, e.AtLevel k

/-- The greatest number of groups and prefix operators on a way from the root to a value. -/
def nesting : Tree → Nat
  | leaf _ => 0
  | group inner => inner.nesting + 1
  | unary _ operand => operand.nesting + 1
  | binary left _ right => max left.nesting right.nesting

/-- The tokens spell the expression, all its parts stand where the grammar lets them, and no more
than 255 groups and prefix operators enclose one another. -/
structure IsReadFrom (e : Tree) (w : List Token) : Prop where
  spells : e.Spells w
  stratified : e.Stratified
  nesting_le : e.nesting ≤ 255

theorem Spells.ne_nil {e : Tree} {w : List Token} (spells : e.Spells w) : w ≠ [] := by
  cases spells <;> simp

end Tree

theorem Symbol.binaryLevel?_eq_some_iff {s : Symbol} {k : Nat} :
    s.binaryLevel? = some k ↔ s ∈ binaryOperators k := by
  rcases k with _ | _ | _ | _ | _ | k <;> cases s <;> simp [binaryLevel?, binaryOperators]

namespace Token

def bare (kind : Token.Kind) (lexeme : String) : Token := ⟨kind, lexeme, none, {}⟩

theorem binaryLevel?_eq_some_iff {t : Token} {k : Nat} :
    t.binaryLevel? = some k ↔ ∃ s ∈ binaryOperators k, t.kind = .symbol s := by
  unfold Token.binaryLevel?
  split
  · rename_i s hs
    simp [hs, Symbol.binaryLevel?_eq_some_iff]
  · rename_i h
    simp only [reduceCtorEq, false_iff, not_exists, not_and]
    intro s _ hs
    exact h s hs

theorem binaryLevel?_le {t : Token} {k : Nat} (h : t.binaryLevel? = some k) : k ≤ 4 := by
  obtain ⟨s, hs, -⟩ := binaryLevel?_eq_some_iff.mp h
  rcases Nat.lt_or_ge k 5 with hk | hk
  · omega
  · obtain ⟨n, rfl⟩ := Nat.exists_eq_add_of_le' hk
    simp [binaryOperators] at hs

theorem leaf?_eq_some_iff {t : Token} {value : Literal} :
    t.leaf? = some value ↔ (Tree.leaf value).Spells [t] := by
  constructor
  · intro h
    unfold Token.leaf? at h
    split at h
    · rename_i hk
      exact Option.some.inj h ▸ .falseWord hk
    · rename_i hk
      exact Option.some.inj h ▸ .trueWord hk
    · rename_i hk
      exact Option.some.inj h ▸ .nilWord hk
    · rename_i hk
      exact .literal (.inr hk) h
    · rename_i hk
      exact .literal (.inl hk) h
    · contradiction
  · intro h
    cases h with
    | falseWord hk => simp [Token.leaf?, hk]
    | trueWord hk => simp [Token.leaf?, hk]
    | nilWord hk => simp [Token.leaf?, hk]
    | literal hk hv => rcases hk with hk | hk <;> simp [Token.leaf?, hk, hv]

theorem isUnary_iff {t : Token} :
    t.isUnary = true ↔ t.kind = .symbol .bang ∨ t.kind = .symbol .minus := by
  simp [isUnary]

theorem isEof_iff {t : Token} : t.isEof = true ↔ t.kind = .eof := by
  simp [isEof]

theorem isLeftParen_iff {t : Token} : t.isLeftParen = true ↔ t.kind = .symbol .leftParen := by
  simp [isLeftParen]

theorem isRightParen_iff {t : Token} : t.isRightParen = true ↔ t.kind = .symbol .rightParen := by
  simp [isRightParen]

end Token

end LoxExpr
