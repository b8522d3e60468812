import LoxExpr.Proofs.Descent

/-!
Calls of recursive descent, one after the other, on the same tokens.

Each call starts at the index and the counter that the call before has left, whether it has read an
expression, has stopped at an error at any depth, or has looked for the next statement. A call that
starts where a parser stands meets no breach and comes to what the parser answers, at the place
where the parser stands then (`Guarded.answer_eq`), so this holds of any list of calls
(`Guarded.answerAll_eq`).
-/

set_option autoImplicit false
set_option relaxedAutoImplicit false

namespace LoxExpr

theorem Token.startsStatement_of_isEof {t : Token} (isEnd : t.isEof = true) :
    t.startsStatement = false := by
  simp [startsStatement, isEof_iff.mp isEnd]

namespace Guarded

open LoxExpr.Parser LoxExpr.Reading

variable {tokens words w : List Token} {finish : Token} {p p' : Parser} {q : Place}

theorem Ahead.recover {n : Nat} (ahead : Ahead (some nestingLimit) tokens finish [] w q)
    (enough : w.length < n) :
    ∃ passed, w = passed ++ nextStatement w ∧ recover tokens n q = .ok (q.beyond passed) := by
  -- Each round passes over one of the tokens ahead, and one more round finds the end.
  induction w generalizing n q with
  | nil =>
    obtain ⟨n, rfl⟩ := Nat.exists_eq_succ_of_ne_zero (Nat.ne_zero_of_lt enough)
    refine ⟨[], rfl, ?_⟩
    rw [Guarded.recover, ahead.peek]
    exact if_pos ahead.isEnd
  | cons t rest ih =>
    obtain ⟨n, rfl⟩ := Nat.exists_eq_succ_of_ne_zero (Nat.ne_zero_of_lt enough)
    have word : ¬ t.isEof = true := by
      rw [ahead.words t List.mem_cons_self]
      exact Bool.false_ne_true
    have behind := ahead.tail
    have step : Guarded.recover tokens (n + 1) q =
        if t.endsStatement then .ok (q.beyond [t])
        else if (nextOf finish rest).startsStatement then .ok (q.beyond [t])
        else Guarded.recover tokens n (q.beyond [t]) := by
      have next : nextOf finish (t :: rest) = t := rfl
      rw [Guarded.recover, ahead.peek, next]
      refine (if_neg word).trans ?_
      rw [ahead.pass_eq, behind.peek]
      rfl
    have starts : (nextOf finish rest).startsStatement = rest.head?.any Token.startsStatement := by
      cases rest with
      | nil => exact Token.startsStatement_of_isEof ahead.isEnd
      | cons u rest => rfl
    rw [step, starts, nextStatement]
    by_cases ends : t.endsStatement = true
    · exact ⟨[t], by simp [ends], if_pos ends⟩
    by_cases found : rest.head?.any Token.startsStatement = true
    · exact ⟨[t], by simp [found], by rw [if_neg ends, if_pos found]⟩
    obtain ⟨passed, cut, run⟩ := ih behind (Nat.lt_of_succ_lt_succ enough)
    refine ⟨t :: passed, ?_, ?_⟩
    · rw [if_neg (by simp [ends, found]), List.cons_append, ← cut]
    · rw [if_neg ends, if_neg found, run, ← Place.beyond_append]
      rfl

def Place.ofParser (p : Parser) (j : Journal) : Place := ⟨p.taken, p.depth, j⟩

theorem Place.ofParser_beyond (passes : Passes w p p') (same : p'.depth = p.depth) (j : Journal) :
    (ofParser p j).beyond w = ofParser p' j := by
  rw [ofParser, ofParser, passes.taken, same]
  rfl

/-- What the reply to a request says of the places before and behind the call. -/
def Tells (tokens : List Token) (q q' : Place) : Request → Reply → Prop
  | .readExpression, .expression (.ok e) =>
    e.IsReadFrom ((tokens.drop q.index).take (q'.index - q.index)) ∧
      (∃ t, tokens[q'.index]? = some t ∧ ∀ k, ∀ s ∈ binaryOperators k, t.kind ≠ .symbol s) ∧
      q'.journal = q.journal
  | .readExpression, .expression (.error error) =>
    q'.journal = q.journal.record error.diagnostic ∧
      q'.journal.toList = q.journal.toList ++ [error.diagnostic]
  | .recover, .recovered => q'.journal = q.journal
  | _, _ => False

section Calls

variable (after : List Token) (isEnd : finish.isEof = true) (j : Journal)

include isEnd

theorem tells_answer (stands : Stands words finish p) (request : Request) :
    Tells (words ++ finish :: after) (.ofParser p j)
      (.ofParser (p.answer j request).2.1 (p.answer j request).2.2) request
      (p.answer j request).1 := by
  cases request with
  | recover => exact rfl
  | readExpression =>
    obtain ⟨taken, passes, there, spelled⟩ := stands.exists_passes_readExpression isEnd
    have between := passes.take_drop after stands
    have next := there.getElem?_taken after
    cases result : p.readExpression.1 with
    | ok e =>
      obtain ⟨read, stop⟩ := spelled e result
      have recorded : j.recordResult p.readExpression.1 = j := by
        rw [result]
        rfl
      simp only [Parser.answer, result]
      exact ⟨between ▸ read, ⟨_, next, kind_ne_of_binaryLevel? stop⟩, rfl⟩
    | error error =>
      simp only [Parser.answer, result]
      exact ⟨rfl, Journal.toList_record j error.diagnostic⟩

variable (others : ∀ t ∈ words, t.isEof = false)

include others

theorem ahead_of_stands (stands : Stands words finish p) :
    Ahead (some nestingLimit) (words ++ finish :: after) finish [] p.ahead (.ofParser p j) where
  words t ht := by
    obtain ⟨passed, split, -⟩ := stands.split
    rw [split] at others
    exact others t (List.mem_append_right passed ht)
  isEnd := isEnd
  behind := by
    obtain ⟨passed, split, taken⟩ := stands.split
    refine ⟨after, ?_⟩
    show (words ++ finish :: after).drop p.taken = _
    rw [split, taken, List.append_assoc, List.drop_left]
  depth := stands.depth_eq
  room := fun m _ => Nat.zero_le m

theorem readExpression_eq (stands : Stands words finish p) :
    answer (words ++ finish :: after) (.ofParser p j) .readExpression =
      .ok (.expression p.readExpression.1,
        .ofParser p.readExpression.2 (j.recordResult p.readExpression.1)) := by
  have ahead := ahead_of_stands after isEnd j others stands
  have shorter := stands.length_ahead_lt after
  have enough : 6 * p.ahead.length + 6 < 6 * (words ++ finish :: after).length + 1 := by omega
  obtain ⟨out, run, answers⟩ :=
    (descends (some nestingLimit) _ finish _).operand ahead (Nat.zero_le 1) (by decide) enough
  obtain ⟨idle, rfl, -⟩ := stands
  rw [answer, run, readExpression]
  cases answers with
  | @ok e taken rest same takes next =>
    have passes : Passes taken p (p.moveTo rest) := moveTo_append same
    rw [readWithin_of_takes idle same takes next, Place.ofParser_beyond passes rfl]
    rfl
  | @error error passed stops =>
    obtain ⟨p', read, passes, idle', -⟩ := readWithin_of_stops idle stops
    have passes : Passes passed p p' := passes
    have depth : p'.depth = p.depth := congrArg Reading.depth (idle'.trans idle.symm)
    rw [read, Place.ofParser_beyond passes depth]
    rfl

theorem recover_eq (stands : Stands words finish p) :
    answer (words ++ finish :: after) (.ofParser p j) .recover =
      .ok (.recovered, .ofParser p.recover j) := by
  have ahead := ahead_of_stands after isEnd j others stands
  obtain ⟨passed, cut, run⟩ := ahead.recover (stands.length_ahead_lt after)
  have passes : Passes passed p p.recover := moveTo_append cut
  rw [answer, run, Place.ofParser_beyond passes rfl]
  rfl

/-- A call from where a parser stands does what the parser does. -/
theorem answer_eq (stands : Stands words finish p) (request : Request) :
    answer (words ++ finish :: after) (.ofParser p j) request =
      .ok ((p.answer j request).1,
        .ofParser (p.answer j request).2.1 (p.answer j request).2.2) := by
  cases request with
  | readExpression => exact readExpression_eq after isEnd j others stands
  | recover => exact recover_eq after isEnd j others stands

theorem answerAll_eq (stands : Stands words finish p) (requests : List Request) :
    answerAll (words ++ finish :: after) (.ofParser p j) requests =
      .ok (.ofParser (p.answerAll j requests).1 (p.answerAll j requests).2) := by
  induction requests generalizing p j with
  | nil => rfl
  | cons request requests ih =>
    obtain ⟨-, -, there⟩ := stands.exists_passes_answer isEnd j request
    rw [answerAll, answer_eq after isEnd j others stands]
    exact ih _ there

end Calls

/-- The index and the counter of a descent are right behind any calls of it.

Whatever was asked for before and whatever has failed, a call meets no breach. Behind it the counter
is at zero, and the index is no further back than before and no further on than the first end
token. An expression is spelled by the tokens between the two indices, with no binary operator next,
and nothing is recorded. An error is recorded once, and finding the next statement records nothing.
The place and the reply are those of a parser that takes token by token, and the tokens behind the
first end token make no difference to them. -/
theorem answer_keeps_place (tokens : List Token) (ends : tokens.getLast?.any Token.isEof = true)
    (j : Journal) (requests : List Request) (request : Request) :
    ∃ (q q' : Place) (reply : Reply),
      answerAll tokens ⟨0, 0, j⟩ requests = .ok q ∧ answer tokens q request = .ok (reply, q') ∧
      q.depth = 0 ∧ q'.depth = 0 ∧
      q.index ≤ q'.index ∧ q'.index ≤ tokens.findIdx Token.isEof ∧
      Tells tokens q q' request reply ∧
      (∃ p, ofTokens? tokens = some p ∧
        let r := p.answerAll j requests
        let r' := r.1.answer r.2 request
        q = .ofParser r.1 r.2 ∧ reply = r'.1 ∧ q' = .ofParser r'.2.1 r'.2.2) ∧
      ∀ tokens' : List Token,
        tokens'.take (tokens.findIdx Token.isEof + 1) =
          tokens.take (tokens.findIdx Token.isEof + 1) →
        answerAll tokens' ⟨0, 0, j⟩ requests = .ok q ∧
          answer tokens' q request = .ok (reply, q') := by
  obtain ⟨words, finish, after, rfl, isEnd, others⟩ := exists_append_isEof ends
  have first := findIdx_isEof after others isEnd
  have begins : Stands words finish ⟨0, words, finish, .start⟩ := ⟨rfl, rfl, [], rfl, rfl⟩
  -- The parser knows only the tokens up to the first end token, so what the calls come to in terms
  -- of it is the same whatever stands behind.
  let p : Parser := ⟨0, words, finish, .start⟩
  let r := p.answerAll j requests
  have here : Stands words finish r.1 := begins.answerAll isEnd j requests
  obtain ⟨passed, passes, there⟩ := here.exists_passes_answer isEnd r.2 request
  have run := fun after => answerAll_eq after isEnd j others begins requests
  have call := fun after => answer_eq after isEnd r.2 others here request
  refine ⟨_, _, _, run after, call after, here.depth_eq, there.depth_eq, passes.taken_le,
    first ▸ there.taken_le, tells_answer after isEnd r.2 here request,
    ⟨p, ofTokens?_append after others isEnd ends, rfl, rfl, rfl⟩, ?_⟩
  intro tokens' agree
  have upTo : (words ++ finish :: after).take (words.length + 1) = words ++ [finish] := by
    rw [List.take_length_add_append]
    rfl
  rw [first, upTo] at agree
  have same : tokens' = words ++ finish :: tokens'.drop (words.length + 1) := by
    have cut := List.take_append_drop (words.length + 1) tokens'
    rw [agree, List.append_assoc] at cut
    exact cut.symm
  rw [same]
  exact ⟨run _, call _⟩

theorem answer_keeps_place_behind_error :
    let tokens := [.bare (.symbol .leftParen) "(", .bare (.symbol .minus) "-",
      .bare (.symbol .semicolon) ";", .bare (.keyword .nilWord) "nil", .eof {}]
    tokens.getLast?.any Token.isEof = true ∧
      ∀ j : Journal, ∃ (q q' : Place) (e : Tree),
        answerAll tokens ⟨0, 0, j⟩ [.readExpression, .recover] = .ok q ∧
        answer tokens q .readExpression = .ok (.expression (.ok e), q') ∧
        q.index = 3 ∧ q'.depth = 0 ∧ q'.index = 4 ∧
        e.IsReadFrom [.bare (.keyword .nilWord) "nil"] ∧ q'.journal = q.journal := by
  intro tokens
  refine ⟨rfl, ?_⟩
  intro j
  obtain ⟨q, q', reply, before, call, -, depth, -, -, tells, -⟩ :=
    answer_keeps_place tokens rfl j [.readExpression, .recover] .readExpression
  obtain rfl : q = ⟨3, 0, j.record (SyntaxError.atToken .expectedExpression
      (.bare (.symbol .semicolon) ";")).diagnostic⟩ := Except.ok.inj (before.symm.trans rfl)
  obtain ⟨rfl, rfl⟩ := Prod.mk.inj (Except.ok.inj (call.symm.trans rfl))
  obtain ⟨read, -, quiet⟩ := tells
  exact ⟨_, _, _, before, call, rfl, depth, rfl, read, quiet⟩

end Guarded

end LoxExpr
