import LoxExpr.Proofs.Calls
import Mathlib.Order.Bounds.Basic

/-!
Going on behind an error.

Finding the next statement stops at the first place behind the present one where a statement may
start (`Parser.Stands.isLeast_taken_recover`). Together with the tokens that an expression takes
this makes every round of reading move on (`Parser.Stands.taken_lt_round`), so the end is reached in
no more rounds than there are tokens before it (`Parser.Stands.exists_rounds_taken_eq`).
-/

set_option autoImplicit false
set_option relaxedAutoImplicit false

namespace LoxExpr

def statementWords : List Keyword :=
  [.classWord, .funWord, .varWord, .forWord, .ifWord, .whileWord, .printWord, .returnWord]

/-- A place in a list of tokens where a statement may start, or the list ends: in front of the place
stands a semicolon, or behind it a word that starts statements or the end. -/
def StatementPlace (tokens : List Token) (k : Nat) : Prop :=
  (∃ t, tokens[k - 1]? = some t ∧ t.kind = .symbol .semicolon) ∨
    ∃ t, tokens[k]? = some t ∧ (t.kind = .eof ∨ ∃ word ∈ statementWords, t.kind = .keyword word)

namespace Token

variable {t : Token}

theorem endsStatement_iff : t.endsStatement = true ↔ t.kind = .symbol .semicolon := by
  simp [endsStatement]

theorem startsStatement_iff :
    t.startsStatement = true ↔ ∃ word ∈ statementWords, t.kind = .keyword word := by
  unfold startsStatement
  split
  · rename_i k kind
    have starts : k.startsStatement = true ↔ k ∈ statementWords := by
      cases k <;> decide
    simp [kind, starts]
  · rename_i other
    simp only [Bool.false_eq_true, false_iff, not_exists, not_and]
    exact fun word _ => other word

end Token

theorem statementPlace_cons_add_one {tokens : List Token} {t : Token} {k : Nat} (behind : 0 < k) :
    StatementPlace (t :: tokens) (k + 1) ↔ StatementPlace tokens k := by
  obtain ⟨k, rfl⟩ := Nat.exists_eq_add_of_lt behind
  simp [StatementPlace]

theorem statementPlace_append {passed tokens : List Token} {k : Nat} (behind : 0 < k) :
    StatementPlace (passed ++ tokens) (passed.length + k) ↔ StatementPlace tokens k := by
  induction passed with
  | nil => rw [List.nil_append, List.length_nil, Nat.zero_add]
  | cons t passed ih =>
    rw [List.cons_append, List.length_cons, Nat.add_right_comm,
      statementPlace_cons_add_one (Nat.add_pos_right _ behind), ih]

namespace Parser

variable {p : Parser} {words tokens after : List Token} {finish t : Token}

theorem statementPlace_one (others : ∀ t ∈ tokens, t.isEof = false) (isEnd : finish.isEof = true) :
    StatementPlace (t :: (tokens ++ finish :: after)) 1 ↔
      (t.endsStatement || tokens.head?.any Token.startsStatement) = true ∨ tokens = [] := by
  rw [Bool.or_eq_true, or_assoc, Token.endsStatement_iff]
  cases tokens with
  | nil => simp [StatementPlace, Token.isEof_iff.mp isEnd]
  | cons u tokens =>
    have notEnd : u.kind ≠ .eof := by
      intro kind
      have := others u List.mem_cons_self
      rw [Token.isEof_iff.mpr kind] at this
      contradiction
    simp [StatementPlace, Token.startsStatement_iff, notEnd]

theorem exists_isLeast_nextStatement (after : List Token)
    (others : ∀ t ∈ tokens, t.isEof = false) (isEnd : finish.isEof = true) (more : tokens ≠ []) :
    ∃ passed, tokens = passed ++ nextStatement tokens ∧
      IsLeast {k | 0 < k ∧ StatementPlace (tokens ++ finish :: after) k} passed.length := by
  induction tokens with
  | nil => contradiction
  | cons t ts ih =>
    obtain ⟨-, others⟩ := List.forall_mem_cons.mp others
    by_cases place : StatementPlace (t :: (ts ++ finish :: after)) 1
    · have next : nextStatement (t :: ts) = ts := by
        rcases (statementPlace_one others isEnd).mp place with stop | rfl
        · rw [nextStatement, if_pos stop]
        · rw [nextStatement, nextStatement, ite_self]
      exact ⟨[t], by rw [next]; rfl, ⟨Nat.one_pos, place⟩, fun k hk => hk.1⟩
    · obtain ⟨go, some⟩ := not_or.mp (mt (statementPlace_one others isEnd).mpr place)
      obtain ⟨passed, cut, ⟨one, stop⟩, least⟩ := ih others some
      refine ⟨t :: passed, ?_, ⟨Nat.succ_pos _, (statementPlace_cons_add_one one).mpr stop⟩, ?_⟩
      · rw [nextStatement, if_neg go, List.cons_append, ← cut]
      · -- a place further on than the first is one in the tail
        rintro (_ | _ | k) ⟨behind, here⟩
        · contradiction
        · exact absurd here place
        · exact Nat.succ_le_succ
            (least ⟨Nat.succ_pos k, (statementPlace_cons_add_one (Nat.succ_pos k)).mp here⟩)

theorem recover_of_ahead_eq_nil (h : p.ahead = []) : p.recover = p := by
  obtain ⟨taken, ahead, finish, reading⟩ := p
  obtain rfl : ahead = [] := h
  rfl

theorem Stands.isLeast_taken_recover (stands : Stands words finish p) (after : List Token)
    (others : ∀ t ∈ words, t.isEof = false) (isEnd : finish.isEof = true) (more : p.ahead ≠ []) :
    IsLeast {k | p.taken < k ∧ StatementPlace (words ++ finish :: after) k} p.recover.taken := by
  obtain ⟨before, split, taken⟩ := stands.split
  have othersAhead : ∀ t ∈ p.ahead, t.isEof = false := by
    intro t ht
    exact others t (split ▸ List.mem_append_right before ht)
  obtain ⟨passed, cut, ⟨some, stop⟩, least⟩ :=
    exists_isLeast_nextStatement after othersAhead isEnd more
  have moved : p.recover.taken = before.length + passed.length := by
    have passes : Passes passed p p.recover := moveTo_append cut
    rw [passes.taken, taken]
  rw [moved, taken, split, List.append_assoc]
  refine ⟨⟨Nat.lt_add_of_pos_right some, (statementPlace_append some).mpr stop⟩, ?_⟩
  rintro k ⟨behind, here⟩
  obtain ⟨n, rfl⟩ := Nat.exists_eq_add_of_lt behind
  rw [Nat.add_assoc] at here ⊢
  have place := (statementPlace_append (Nat.succ_pos n)).mp here
  exact Nat.add_le_add_left (least ⟨Nat.succ_pos n, place⟩) _

/-- One round of reading on: an expression, and behind an error the next statement. -/
def round (p : Parser) (j : Journal) : Parser × Journal :=
  match p.answer j .readExpression with
  | (.expression (.error _), q, j) => (q.answer j .recover).2
  | (_, q, j) => (q, j)

def rounds (p : Parser) (j : Journal) : Nat → Parser × Journal
  | 0 => (p, j)
  | n + 1 => (p.round j).1.rounds (p.round j).2 n

theorem round_of_ok {e : Tree} (j : Journal) (read : p.readExpression.1 = .ok e) :
    (p.round j).1 = p.readExpression.2 := by
  simp only [round, answer, read]

theorem round_of_error {error : SyntaxError} (j : Journal)
    (failed : p.readExpression.1 = .error error) :
    (p.round j).1 = p.readExpression.2.recover := by
  simp only [round, answer, failed]

theorem Stands.round (stands : Stands words finish p) (isEnd : finish.isEof = true) (j : Journal) :
    Stands words finish (p.round j).1 := by
  obtain ⟨-, -, there, -⟩ := stands.exists_passes_readExpression isEnd
  cases result : p.readExpression.1 with
  | ok e => rwa [round_of_ok j result]
  | error error =>
    obtain ⟨-, -, recovered⟩ := there.exists_passes_recover
    rwa [round_of_error j result]

theorem Stands.rounds (stands : Stands words finish p) (isEnd : finish.isEof = true) (j : Journal)
    (n : Nat) : Stands words finish (p.rounds j n).1 := by
  induction n generalizing p j with
  | zero => exact stands
  | succ n ih => exact ih (stands.round isEnd j) (p.round j).2

theorem Stands.taken_lt_round (stands : Stands words finish p)
    (others : ∀ t ∈ words, t.isEof = false) (isEnd : finish.isEof = true) (more : p.ahead ≠ [])
    (j : Journal) : p.taken < (p.round j).1.taken := by
  obtain ⟨taken, passes, there, spelled⟩ := stands.exists_passes_readExpression isEnd
  cases result : p.readExpression.1 with
  | ok e =>
    obtain ⟨read, -⟩ := spelled e result
    have some : 0 < taken.length := List.length_pos_iff.mpr read.spells.ne_nil
    rw [round_of_ok j result, passes.taken]
    exact Nat.lt_add_of_pos_right some
  | error error =>
    rw [round_of_error j result]
    by_cases last : p.readExpression.2.ahead = []
    · -- the expression broke off at the end, so it took all that was ahead
      have some : 0 < taken.length := by
        rw [List.length_pos_iff]
        rintro rfl
        exact more (passes.ahead.trans last)
      rw [recover_of_ahead_eq_nil last, passes.taken]
      exact Nat.lt_add_of_pos_right some
    · have least := there.isLeast_taken_recover [] others isEnd last
      exact Nat.lt_of_le_of_lt passes.taken_le least.1.1

theorem Stands.ahead_eq_nil_iff (stands : Stands words finish p) :
    p.ahead = [] ↔ p.taken = words.length := by
  obtain ⟨passed, split, taken⟩ := stands.split
  rw [split, taken, List.length_append, Nat.left_eq_add, List.length_eq_zero_iff]

theorem Stands.ahead_eq_nil_iff_next (stands : Stands words finish p)
    (others : ∀ t ∈ words, t.isEof = false) (isEnd : finish.isEof = true) :
    p.ahead = [] ↔ p.next.kind = .eof := by
  obtain ⟨passed, split, -⟩ := stands.split
  rw [← Token.isEof_iff, next]
  cases ahead : p.ahead with
  | nil => simp [stands.finish_eq, isEnd]
  | cons t ts =>
    have notEnd : t.isEof = false := others t (by simp [split, ahead])
    simp [notEnd]

/-- The end is reached in no more rounds than there are tokens ahead of it. -/
theorem Stands.exists_rounds_taken_eq (stands : Stands words finish p)
    (others : ∀ t ∈ words, t.isEof = false) (isEnd : finish.isEof = true) (j : Journal) :
    ∃ n, p.taken + n ≤ words.length ∧ (p.rounds j n).1.taken = words.length := by
  induction ahead : words.length - p.taken using Nat.strong_induction_on generalizing p j with
  | _ m ih =>
    by_cases last : p.ahead = []
    · have there := stands.ahead_eq_nil_iff.mp last
      exact ⟨0, Nat.le_of_eq there, there⟩
    · have moved := stands.taken_lt_round others isEnd last j
      have next := stands.round isEnd j
      have fewer : words.length - (p.round j).1.taken < m := by
        have := next.taken_le
        omega
      obtain ⟨n, bound, reached⟩ := ih _ fewer next (p.round j).2 rfl
      exact ⟨n + 1, by omega, reached⟩

/-- Finding the next statement stops at the first place where there may be one, and reading on
behind errors comes to the end.

A parser that has been asked for anything before stays where it is if the end is next. Otherwise it
moves to the least place behind its own where a statement may start or the tokens end, and records
nothing. When expressions are read one after the other, and the next statement is found behind every
error, then each round moves on until the first end token. So that is reached in no more rounds than
there are tokens before it. -/
theorem recover_isLeast_and_rounds_end (tokens : List Token)
    (ends : tokens.getLast?.any Token.isEof = true) :
    ∃ p, ofTokens? tokens = some p ∧ ∀ (j : Journal) (requests : List Request),
      let q := (p.answerAll j requests).1
      let j₁ := (p.answerAll j requests).2
      let last := tokens.findIdx Token.isEof
      (∃ t, tokens[q.taken]? = some t ∧
        (t.kind = .eof → q.answer j₁ .recover = (.recovered, q, j₁)) ∧
        (t.kind ≠ .eof → ∃ q', q.answer j₁ .recover = (.recovered, q', j₁) ∧
          IsLeast {k | q.taken < k ∧ StatementPlace tokens k} q'.taken)) ∧
      (∀ n, let r := q.rounds j₁ n
        r.1.taken < last → r.1.taken < (r.1.round r.2).1.taken) ∧
      ∃ n, q.taken + n ≤ last ∧ (q.rounds j₁ n).1.taken = last := by
  obtain ⟨words, finish, after, rfl, isEnd, others⟩ := exists_append_isEof ends
  have first := findIdx_isEof after others isEnd
  refine ⟨_, ofTokens?_append after others isEnd ends, ?_⟩
  intro j requests q j₁ last
  have begins : Stands words finish ⟨0, words, finish, .start⟩ := ⟨rfl, rfl, [], rfl, rfl⟩
  have here : Stands words finish q := begins.answerAll isEnd j requests
  refine ⟨⟨q.next, here.getElem?_taken after, ?_, ?_⟩, ?_, ?_⟩
  · intro kind
    have none : q.ahead = [] := (here.ahead_eq_nil_iff_next others isEnd).mpr kind
    rw [answer, recover_of_ahead_eq_nil none]
  · intro kind
    have some : q.ahead ≠ [] := mt (here.ahead_eq_nil_iff_next others isEnd).mp kind
    exact ⟨q.recover, rfl, here.isLeast_taken_recover after others isEnd some⟩
  · intro n r before
    have there : Stands words finish r.1 := here.rounds isEnd j₁ n
    have some : r.1.ahead ≠ [] := by
      intro none
      have := there.ahead_eq_nil_iff.mp none
      omega
    exact there.taken_lt_round others isEnd some r.2
  · rw [show last = words.length from first]
    exact here.exists_rounds_taken_eq others isEnd j₁

theorem recover_isLeast_behind_open_group :
    let tokens : List Token := [.bare (.symbol .leftParen) "(", .bare (.symbol .semicolon) ";",
      .bare (.keyword .nilWord) "nil", .bare (.keyword .classWord) "class", .eof {}]
    tokens.getLast?.any Token.isEof = true ∧ ∃ p, ofTokens? tokens = some p ∧ ∀ j : Journal,
      (p.answerAll j [.readExpression]).1.taken = 1 ∧
      IsLeast {k | 1 < k ∧ StatementPlace tokens k} 2 ∧
      ∃ n, n ≤ 4 ∧ (p.rounds j n).1.taken = 4 := by
  intro tokens
  have ends : tokens.getLast?.any Token.isEof = true := rfl
  obtain ⟨p, start, answers⟩ := recover_isLeast_and_rounds_end tokens ends
  refine ⟨ends, p, start, ?_⟩
  intro j
  obtain ⟨⟨t, next, -, stops⟩, -, -⟩ := answers j [.readExpression]
  obtain ⟨-, -, n, few, reached⟩ := answers j []
  obtain rfl := Option.some.inj start
  obtain rfl := Option.some.inj next
  obtain ⟨q, answer, least⟩ := stops (by decide)
  obtain rfl := (Prod.mk.inj (Prod.mk.inj answer).2).1
  refine ⟨rfl, least, n, ?_, reached⟩
  rwa [Nat.add_comm] at few

end Parser

end LoxExpr
