import LoxExpr.Proofs.Descent
import LoxExpr.Proofs.GuardedScan

/-!
No source breaks the pipeline.

Scanning, parsing and running with checks on everything that is taken for granted meet no breach,
whatever the source, the journal and the output are, as long as the lexemes of numbers can be read.
If they read as the values that they denote, then the checks make no difference: what comes out is
what comes out without them (`Guarded.run_unbroken`).
-/

set_option autoImplicit false
set_option relaxedAutoImplicit false

namespace LoxExpr

namespace Scan

theorem isEof_of_mem_words {source : String} : ∀ t ∈ (ofSource source).words, t.isEof = false := by
  intro t word
  obtain ⟨l, before, after, rfl, -, fits⟩ := exists_lexeme_of_mem word
  have spelling := Piece.spelling_of_fits fits
  have kind : l.kind ≠ .eof := by
    intro isEnd
    rw [isEnd] at spelling
    cases spelling
  exact beq_false_of_ne kind

theorem ofTokens?_tokens (source : String) :
    Parser.ofTokens? (ofSource source).tokens = some (Parser.ofScan (ofSource source)) := by
  have ends : (ofSource source).tokens.getLast?.any Token.isEof = true := by
    rw [tokens, List.getLast?_concat]
    rfl
  exact Parser.ofTokens?_append [] isEof_of_mem_words rfl ends

end Scan

theorem ReadsNearest.accepts {read? : String → Option Binary64} (nearest : ReadsNearest read?) :
    AcceptsDecimals read? := by
  intro w spelling
  cases spelling with
  | integer digits =>
    have value := nearest w [] digits (.inl rfl)
    rw [show (Lexeme.number w []).text = w from rfl] at value
    rw [value]
    rfl
  | @decimal v u whole fraction =>
    have value := nearest v u whole (.inr fraction)
    obtain ⟨d, u, rfl⟩ := List.exists_cons_of_ne_nil fraction.1
    rw [show (Lexeme.number v (d :: u)).text = v ++ '.' :: d :: u from rfl] at value
    rw [value]
    rfl

/-- Reads digits, also with a point and further digits behind them, as the nearest value. -/
def Decimal.read? (text : String) : Option Binary64 :=
  let whole := text.toList.takeWhile Char.isDigit
  let fraction := text.toList.dropWhile Char.isDigit
  if whole = [] then
    none
  else if fraction = [] then
    some (ofDigits whole []).toBinary64
  else if fraction.head? = some '.' ∧ fraction.tail ≠ [] ∧ fraction.tail.all Char.isDigit then
    some (ofDigits whole fraction.tail).toBinary64
  else
    none

theorem Decimal.readsNearest : ReadsNearest read? := by
  intro whole fraction digits more
  cases fraction with
  | nil =>
    have text : (String.ofList (Lexeme.number whole []).text).toList = whole ++ [] := by
      rw [String.toList_ofList, List.append_nil]
      rfl
    have run := Piece.span_append (v := []) digits.2 (by simp)
    rw [read?, text, run.1, run.2, if_neg digits.1, if_pos rfl]
  | cons d fraction =>
    have digits' : Digits (d :: fraction) := more.resolve_left (by simp)
    have text : (String.ofList (Lexeme.number whole (d :: fraction)).text).toList =
        whole ++ '.' :: d :: fraction := String.toList_ofList
    have run := Piece.span_append (v := '.' :: d :: fraction) digits.2 (by simp)
    rw [read?, text, run.1, run.2, if_neg digits.1,
      if_neg (List.cons_ne_nil _ _), if_pos]
    · rfl
    · exact ⟨rfl, List.cons_ne_nil _ _, List.all_eq_true.mpr digits'.2⟩

namespace Guarded

variable {read? : String → Option Binary64} {source : String} {listTokens : Bool}
  {tokens : List Token} {journal j : Journal} {output : Sink} {answer : Option Tree × Journal}

theorem evaluate_eq_conclude (s : Scan) (journal : Journal) (output : Sink) :
    Run.evaluate s journal output =
      if s.tokens.length = 1 then ⟨journal, output, true⟩
      else conclude output ((Parser.ofScan s).parseInto journal) := by
  have length : s.tokens.length = s.words.length + 1 := by
    rw [Scan.tokens, List.length_append, List.length_singleton]
  have blank : s.tokens.length = 1 ↔ s.words.isEmpty = true := by
    rw [length, List.isEmpty_iff, ← List.length_eq_zero_iff, Nat.add_eq_right]
  rw [Run.evaluate]
  by_cases empty : s.words.isEmpty = true
  · rw [if_pos empty, if_pos (blank.mpr empty)]
  · rw [if_neg empty, if_neg fun one => empty (blank.mp one)]
    rfl

theorem ofSource_eq_conclude (source : String) (listTokens : Bool) (journal : Journal)
    (output : Sink) :
    let s := Scan.ofSource source
    let listed := output.writeAll (if listTokens then s.tokens.map Token.listing else [])
    Run.ofSource source listTokens journal output =
      if listed.2 = false then ⟨journal.recordScan s, listed.1, false⟩
      else if s.tokens.length = 1 then ⟨journal.recordScan s, listed.1, true⟩
      else conclude listed.1 (parseSource source journal) := by
  cases written : output.writeAll
    (if listTokens then (Scan.ofSource source).tokens.map Token.listing else []) with
  | mk output taken =>
    simp only [Run.ofSource, written]
    cases taken with
    | false => rfl
    | true => exact evaluate_eq_conclude _ _ _

theorem run_of_parse (scanned : scan read? source journal = .ok (tokens, j))
    (parsed : parse (some nestingLimit) tokens j = .ok answer) :
    let listed := output.writeAll (if listTokens then tokens.map Token.listing else [])
    run read? source listTokens journal output = .ok
      (if listed.2 = false then ⟨j, listed.1, false⟩
      else if tokens.length = 1 then ⟨j, listed.1, true⟩
      else conclude listed.1 answer) := by
  rw [run, scanned]
  cases written : output.writeAll (if listTokens then tokens.map Token.listing else []) with
  | mk output taken =>
    simp only [bind, Except.bind, written]
    cases taken with
    | false => rfl
    | true =>
      by_cases blank : tokens.length = 1
      · exact (if_pos blank).trans (congrArg Except.ok (if_pos blank).symm)
      · refine (if_neg blank).trans ?_
        rw [parsed]
        exact congrArg Except.ok (if_neg blank).symm

/-- No source breaks the pipeline, whatever the journal and the output are, as long as the reader of
numbers takes all that is spelled as one.

Scanning finds the tokens of the source, with the values that the reader gives, and these tokens can
be parsed and run. With a reader that gives the values denoted, the checks make no difference. -/
theorem run_unbroken (read? : String → Option Binary64) (accepts : AcceptsDecimals read?)
    (source : String) (listTokens : Bool) (journal : Journal) (output : Sink) :
    ∃ tokens answer r,
      scan read? source journal = .ok (tokens, journal.recordScan (Scan.ofSource source)) ∧
      parse (some nestingLimit) tokens (journal.recordScan (Scan.ofSource source)) = .ok answer ∧
      run read? source listTokens journal output = .ok r ∧
      tokens = (Scan.ofSource source).tokens.map (·.revalue read?) ∧
      (ReadsNearest read? → tokens = (Scan.ofSource source).tokens ∧
        answer = parseSource source journal ∧
        r = Run.ofSource source listTokens journal output) := by
  have scanned := scan_eq accepts source journal
  have ends : ((Scan.ofSource source).tokens.map (·.revalue read?)).getLast?.any Token.isEof =
      true := by
    rw [Scan.tokens, List.map_append, List.map_singleton, List.getLast?_concat]
    rfl
  obtain ⟨p, start, parsed⟩ :=
    parse_eq (some nestingLimit) ends (journal.recordScan (Scan.ofSource source))
  refine ⟨_, _, _, scanned, parsed, run_of_parse scanned parsed, rfl, ?_⟩
  intro nearest
  have same := Scan.revalue_tokens nearest source
  rw [same, Scan.ofTokens?_tokens] at start
  obtain rfl := Option.some.inj start
  refine ⟨same, rfl, ?_⟩
  rw [same]
  exact (ofSource_eq_conclude source listTokens journal output).symm

theorem run_unbroken_open_group :
    AcceptsDecimals Decimal.read? ∧
      scan Decimal.read? "-(1.5 $" {} = .ok ((Scan.ofSource "-(1.5 $").tokens,
        ({} : Journal).recordScan (Scan.ofSource "-(1.5 $")) ∧
      run Decimal.read? "-(1.5 $" true {} {} = .ok (Run.ofSource "-(1.5 $" true {} {}) := by
  have accepts := Decimal.readsNearest.accepts
  obtain ⟨tokens, answer, r, scanned, -, ran, -, same⟩ :=
    run_unbroken Decimal.read? accepts "-(1.5 $" true {} {}
  obtain ⟨rfl, -, rfl⟩ := same Decimal.readsNearest
  exact ⟨accepts, scanned, ran⟩

end Guarded

end LoxExpr
