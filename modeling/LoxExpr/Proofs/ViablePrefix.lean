import LoxExpr.Parser.Report
import LoxExpr.Proofs.Settle

/-!
A syntax error shows at the first token that leaves nothing to hope for.

From every reading the start can lead to there is a way to the end: a value where an operand is
awaited, and then a parenthesis for each open group (`Reading.exists_completion`). So tokens that
can be taken one after the other always start some accepted list, and a token that cannot be taken
ends all hope.
-/

set_option autoImplicit false
set_option relaxedAutoImplicit false

namespace LoxExpr

/-- Some accepted list of tokens starts with the given ones. -/
def Viable (w : List Token) : Prop :=
  ∃ rest e, parseTokens? (w ++ rest) = some (.ok e)

namespace Reading

variable {limit : Option Nat} {r r' : Reading} {t : Token} {w : List Token}

private theorem exists_completion_operator (limit : Option Nat) (e : Tree) (frames : List Frame) :
    ∃ v r' e', (operator e frames).takeAll? limit v = some r' ∧ r'.Completes e' := by
  induction hn : frames.length using Nat.strongRecOn generalizing e frames with
  | ind n ih =>
    rcases Frame.settle_zero frames e with done | ⟨outer, open?, shorter⟩
    · exact ⟨[], _, (Frame.settle 0 frames e).1, rfl, e, frames, rfl, Prod.ext rfl done⟩
    · -- a parenthesis closes the nearest group, and fewer frames are left
      obtain ⟨v, r', e', hv, he⟩ :=
        ih outer.length (by omega) (.group (Frame.settle 0 frames e).1) outer rfl
      have close : Step limit (operator e frames) (.bare (.symbol .rightParen) ")")
          (operator (.group (Frame.settle 0 frames e).1) outer) :=
        .close rfl (Prod.ext rfl open?)
      exact ⟨_ :: v, r', e', by rw [takeAll?_cons, take?_eq_some_iff.mpr close]; exact hv, he⟩

/-- Whatever has been read can be completed, and no nesting is needed for it. -/
theorem exists_completion (limit : Option Nat) (r : Reading) :
    ∃ v r' e, r.takeAll? limit v = some r' ∧ r'.Completes e := by
  cases r with
  | operator e frames => exact exists_completion_operator limit e frames
  | operand frames =>
    obtain ⟨v, r', e, hv, he⟩ := exists_completion_operator limit (.leaf .nil) frames
    have value : Step limit (operand frames) (.bare (.keyword .nilWord) "nil")
        (operator (.leaf .nil) frames) := .leaf rfl
    exact ⟨_ :: v, r', e, by rw [takeAll?_cons, take?_eq_some_iff.mpr value]; exact hv, he⟩

theorem take?_of_isEof (h : t.isEof = true) (r : Reading) : r.take? limit t = none := by
  have hk := Token.isEof_iff.mp h
  cases r with
  | operand frames =>
    simp [take?, takeOperand?, Token.leaf?, Token.frame?, Token.isLeftParen, Token.isUnary, hk]
  | operator e frames => simp [take?, takeOperator?, Token.binaryLevel?, Token.isRightParen, hk]

theorem not_isEof_of_takeAll? (h : r.takeAll? limit w = some r') : ∀ t ∈ w, (!t.isEof) = true := by
  induction w generalizing r with
  | nil => simp
  | cons t ts ih =>
    obtain ⟨r₁, h₁, hr⟩ := Option.bind_eq_some_iff.mp h
    intro s hs
    rcases List.mem_cons.mp hs with rfl | hs
    · cases isEnd : s.isEof with
      | false => rfl
      | true => simp [take?_of_isEof isEnd] at h₁
    · exact ih hr s hs

end Reading

theorem parseTokens?_eq_ok_iff {tokens : List Token} {e : Tree} :
    parseTokens? tokens = some (.ok e) ↔ tokens.getLast?.any Token.isEof = true ∧
      ∃ r, Reading.start.takeAll? (some nestingLimit) (tokens.takeWhile (!·.isEof)) = some r ∧
        r.Completes e := by
  by_cases ends : tokens.getLast?.any Token.isEof = true
  · obtain ⟨finish, after, -, -, hp⟩ := Parser.exists_ofTokens? ends
    rw [parseTokens?, hp, Option.map_some, Option.some.injEq, Parser.parse,
      Parser.parseWithin_eq_ok_iff rfl]
    simp [ends]
  · simp [parseTokens?, Parser.ofTokens?, ends]

namespace Viable

variable {r : Reading} {t : Token} {w : List Token}

theorem of_takeAll? (h : Reading.start.takeAll? (some nestingLimit) w = some r) : Viable w := by
  obtain ⟨v, r', e, hv, he⟩ := Reading.exists_completion (some nestingLimit) r
  have all : Reading.start.takeAll? (some nestingLimit) (w ++ v) = some r' := by
    rw [Reading.takeAll?_append, h, Option.bind_some, hv]
  refine ⟨v ++ [.eof {}], e, parseTokens?_eq_ok_iff.mpr ⟨?_, r', ?_, he⟩⟩
  · rw [← List.append_assoc, List.getLast?_concat]
    rfl
  · rw [← List.append_assoc, List.takeWhile_append_of_pos (Reading.not_isEof_of_takeAll? all),
      List.takeWhile_cons_of_neg (by simp [Token.eof, Token.isEof]), List.append_nil, all]

theorem not_of_stuck (h : Reading.start.takeAll? (some nestingLimit) w = some r)
    (stuck : r.take? (some nestingLimit) t = none)
    (unfinished : t.isEof = true → ∀ e, ¬ r.Completes e) : ¬ Viable (w ++ [t]) := by
  rintro ⟨rest, e, accepted⟩
  obtain ⟨-, r', ht, he⟩ := parseTokens?_eq_ok_iff.mp accepted
  rw [List.append_assoc, List.takeWhile_append_of_pos (Reading.not_isEof_of_takeAll? h),
    Reading.takeAll?_append, h, Option.bind_some] at ht
  cases isEnd : t.isEof with
  | false =>
    rw [List.singleton_append, List.takeWhile_cons_of_pos (by simp [isEnd]), Reading.takeAll?_cons,
      stuck] at ht
    contradiction
  | true =>
    rw [List.singleton_append, List.takeWhile_cons_of_neg (by simp [isEnd])] at ht
    obtain rfl := Option.some.inj ht
    exact unfinished isEnd e he

theorem of_append {v : List Token} (h : Viable (v ++ w)) : Viable v := by
  obtain ⟨rest, e, accepted⟩ := h
  exact ⟨w ++ rest, e, by rwa [← List.append_assoc]⟩

end Viable

namespace Parser

theorem exists_stuck {tokens : List Token} (ends : tokens.getLast?.any Token.isEof = true) :
    ∃ p, ofTokens? tokens = some p ∧ ∀ error, p.parse = .error error →
      ∃ before t after r, tokens = before ++ t :: after ∧
        Reading.start.takeAll? (some nestingLimit) before = some r ∧
        r.take? (some nestingLimit) t = none ∧ (t.isEof = true → ∀ e, ¬ r.Completes e) ∧
        error = .atToken (r.faultAt t) t := by
  obtain ⟨finish, after, whole, isEnd, hp⟩ := exists_ofTokens? ends
  refine ⟨_, hp, ?_⟩
  intro error failed
  obtain ⟨taken, rest, r, cut, ht, stuck⟩ :=
    Reading.exists_takeAll?_stuck (some nestingLimit) .start (tokens.takeWhile (!·.isEof))
  obtain ⟨shown, unfinished⟩ := parseWithin_eq_error rfl cut ht stuck failed
  rw [cut] at whole
  cases rest with
  | nil =>
    -- all tokens were taken, so it is the end that comes too early
    exact ⟨taken, finish, after, r, by simpa using whole, ht, Reading.take?_of_isEof isEnd r,
      fun _ => unfinished rfl, shown⟩
  | cons t ts =>
    have notEnd : t.isEof = false := by
      have ahead : t ∈ tokens.takeWhile (!·.isEof) := by simp [cut]
      simpa using (List.all_eq_true.mp List.all_takeWhile) t ahead
    exact ⟨taken, t, ts ++ finish :: after, r, by simpa using whole, ht, stuck t rfl,
      fun isEnd => by simp [notEnd] at isEnd, shown⟩

theorem exists_first_unviable {tokens : List Token}
    (ends : tokens.getLast?.any Token.isEof = true) :
    ∃ p, ofTokens? tokens = some p ∧ ∀ error, p.parse = .error error →
      ∃ fault before t after, error = .atToken fault t ∧ tokens = before ++ t :: after ∧
        Viable before ∧ ¬ Viable (before ++ [t]) := by
  obtain ⟨p, hp, failure⟩ := exists_stuck ends
  refine ⟨p, hp, ?_⟩
  intro error failed
  obtain ⟨before, t, after, r, whole, ht, stuck, unfinished, shown⟩ := failure error failed
  exact ⟨_, before, t, after, shown, whole, .of_takeAll? ht,
    Viable.not_of_stuck ht stuck unfinished⟩

/-- Where reading a list of tokens fails, exactly one diagnostic is recorded, for the first token
that no accepted list goes on with; where it succeeds, none is. -/
theorem parseInto_records_first_unviable (tokens : List Token)
    (ends : tokens.getLast?.any Token.isEof = true) :
    ∃ p, ofTokens? tokens = some p ∧ ∀ j : Journal,
      ((p.parseInto j).1 = none → ∃ i t d, tokens[i]? = some t ∧
        ¬ Viable (tokens.take (i + 1)) ∧ (∀ n ≤ i, Viable (tokens.take n)) ∧
        (p.parseInto j).2.toList = j.toList ++ [d] ∧ d.line = t.position.line ∧
        d.location = if t.isEof then .atEnd else .atLexeme t.lexeme) ∧
      ∀ e, (p.parseInto j).1 = some e → (p.parseInto j).2.toList = j.toList := by
  obtain ⟨p, hp, failure⟩ := exists_first_unviable ends
  refine ⟨p, hp, fun j => ?_⟩
  unfold parseInto
  cases answer : p.parse with
  | ok e => simp [Except.toOption, Journal.recordResult]
  | error error =>
    obtain ⟨fault, before, t, after, rfl, rfl, viable, unviable⟩ := failure error answer
    constructor
    · intro _
      refine ⟨before.length, t, (SyntaxError.atToken fault t).diagnostic, by simp, ?_, ?_,
        Journal.toList_record j _, rfl, rfl⟩
      · rwa [List.append_cons, List.take_left' (by simp)]
      · intro n hn
        rw [List.take_append_of_le_length hn]
        rw [← List.take_append_drop n before] at viable
        exact viable.of_append
    · simp [Except.toOption]

theorem parseInto_records_open_group :
    ∃ p, ofTokens? [.bare (.symbol .leftParen) "(", .bare (.keyword .nilWord) "nil", .eof {}] =
        some p ∧
      ∀ j : Journal, (p.parseInto j).1 = none ∧
        ∃ d, (p.parseInto j).2.toList = j.toList ++ [d] ∧ d.location = .atEnd := by
  obtain ⟨p, hp, records⟩ := parseInto_records_first_unviable
    [.bare (.symbol .leftParen) "(", .bare (.keyword .nilWord) "nil", .eof {}] rfl
  refine ⟨p, hp, ?_⟩
  intro j
  have fails : (p.parseInto j).1 = none := by
    obtain rfl := Option.some.inj hp
    rfl
  obtain ⟨i, t, d, ht, unviable, -, recorded, -, location⟩ := (records j).1 fails
  refine ⟨fails, d, recorded, ?_⟩
  match i with
  | 0 => exact absurd (Viable.of_takeAll? rfl) unviable
  | 1 => exact absurd (Viable.of_takeAll? rfl) unviable
  | 2 =>
    obtain rfl := Option.some.inj ht
    exact location
  | i + 3 => simp at ht

end Parser

end LoxExpr
