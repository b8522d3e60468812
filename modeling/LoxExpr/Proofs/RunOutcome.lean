import LoxExpr.Proofs.Layout
import LoxExpr.Proofs.Recognition
import LoxExpr.Proofs.Transcript

/-!
What comes of running a source.

A source holds only layout, or it is an expression without errors, or it has errors and nothing is
written. Which of these it is depends on its pieces and on the grammar alone
(`Scan.tree?_eq_some_iff`, `Scan.isSome_syntaxError?_iff`).
-/

set_option autoImplicit false
set_option relaxedAutoImplicit false

namespace LoxExpr

namespace Scan

variable {s : Scan} {e : Tree}

theorem parse_ofScan_eq_ok_iff : (Parser.ofScan s).parse = .ok e ↔ e.IsReadFrom s.words := by
  have spelled : (Parser.ofScan s).parse = .ok e ↔
      e.Spells s.words ∧ e.Stratified ∧ Within (some nestingLimit) e.nesting :=
    Parser.parseWithin_eq_ok_iff_spells rfl
  rw [spelled, Within.some_iff]
  constructor
  · rintro ⟨spells, stratified, room⟩
    exact ⟨spells, stratified, room⟩
  · rintro ⟨spells, stratified, room⟩
    exact ⟨spells, stratified, room⟩

theorem outcome?_of_words_eq_nil (h : s.words = []) : s.outcome? = none := by
  simp [outcome?, h]

theorem outcome?_of_words_ne_nil (h : s.words ≠ []) :
    s.outcome? = some (Parser.ofScan s).parse := by
  simp [outcome?, h]

theorem syntaxError?_of_words_eq_nil (h : s.words = []) : s.syntaxError? = none := by
  rw [syntaxError?, outcome?_of_words_eq_nil h]

theorem tree?_eq_some_iff : s.tree? = some e ↔ e.IsReadFrom s.words := by
  rw [← parse_ofScan_eq_ok_iff]
  by_cases empty : s.words = []
  · have none : (Parser.ofScan s).parse ≠ .ok e := by
      intro read
      exact (parse_ofScan_eq_ok_iff.mp read).spells.ne_nil empty
    simp [tree?, outcome?_of_words_eq_nil empty, none]
  · rw [tree?, outcome?_of_words_ne_nil empty]
    cases (Parser.ofScan s).parse <;> simp

theorem isSome_syntaxError?_iff :
    s.syntaxError?.isSome = true ↔ s.words ≠ [] ∧ ¬ ∃ e : Tree, e.IsReadFrom s.words := by
  by_cases empty : s.words = []
  · simp [syntaxError?, outcome?_of_words_eq_nil empty, empty]
  · rw [syntaxError?, outcome?_of_words_ne_nil empty]
    simp only [← parse_ofScan_eq_ok_iff]
    cases (Parser.ofScan s).parse <;> simp [empty]

theorem reports_eq_nil_iff : s.reports = [] ↔ s.diagnostics = [] ∧ s.syntaxError? = none := by
  simp [reports]

theorem answer_of_reports_ne_nil (h : s.reports ≠ []) : s.answer = [] := by
  simp [answer, h]

theorem answer_of_tree? (noReports : s.reports = []) (h : s.tree? = some e) :
    s.answer = [e.text ++ "\n"] := by
  simp [answer, noReports, h]

theorem reports_and_answer_of_isReadFrom (noErrors : s.diagnostics = [])
    (read : e.IsReadFrom s.words) : s.reports = [] ∧ s.answer = [e.text ++ "\n"] := by
  have noSyntaxError : s.syntaxError? = none := by
    rw [← Option.not_isSome_iff_eq_none, isSome_syntaxError?_iff]
    exact fun h => h.2 ⟨e, read⟩
  have noReports := reports_eq_nil_iff.mpr ⟨noErrors, noSyntaxError⟩
  exact ⟨noReports, answer_of_tree? noReports (tree?_eq_some_iff.mpr read)⟩

theorem answer_of_words_eq_nil (h : s.words = []) : s.answer = [] := by
  simp [answer, tree?, outcome?_of_words_eq_nil h]

theorem reports_ne_nil {source : String} (notLayout : ¬ OnlyLayout source.toList)
    (noExpression : ¬ ∃ e : Tree, (ofSource source).diagnostics = [] ∧
      e.IsReadFrom (ofSource source).words) : (ofSource source).reports ≠ [] := by
  intro noReports
  obtain ⟨noErrors, noSyntaxError⟩ := reports_eq_nil_iff.mp noReports
  have someWords : (ofSource source).words ≠ [] := by
    intro noWords
    exact notLayout ((words_eq_nil_and_diagnostics_eq_nil_iff source).mp ⟨noWords, noErrors⟩)
  have unread : ¬ ∃ e : Tree, e.IsReadFrom (ofSource source).words := by
    rintro ⟨e, read⟩
    exact noExpression ⟨e, noErrors, read⟩
  have error := isSome_syntaxError?_iff.mpr ⟨someWords, unread⟩
  rw [noSyntaxError] at error
  contradiction

end Scan

namespace Run

variable {source : String} {j : Journal} {o : Sink}

private theorem ofSource_of_answer {texts : List String} (clean : j.hasErrors = false)
    (unlimited : o.capacity? = none) (answer : (Scan.ofSource source).answer = texts) :
    ofSource source false j o = ⟨j.recordAll (Scan.ofSource source).reports,
      { o with received := o.received ++ (String.join texts).toUTF8 }, true⟩ := by
  rw [ofSource_of_capacity_none source false j unlimited, clean]
  simp only [Scan.texts, Scan.listing, answer, Bool.false_eq_true, if_false, List.nil_append]

/-- Running a source with nothing recorded before and room for all output.

Only layout comes to nothing. An expression without errors is written. In all other cases something
is reported and nothing is written: first the errors of the wrong pieces of the source, in its
order, and then the syntax error, which there is when tokens spell no expression. -/
theorem ofSource_outcome (source : String) (j : Journal) (o : Sink) (clean : j.hasErrors = false)
    (unlimited : o.capacity? = none) :
    let s := Scan.ofSource source
    let r := ofSource source false j o
    ∃ error? : Option SyntaxError,
      r.completed = true ∧
      Fragment.Tiles {} source.toList s.fragments ∧
      r.journal = j.recordAll (s.fragments.filterMap Fragment.diagnostic? ++
        (error?.map SyntaxError.diagnostic).toList) ∧
      (error?.isSome = true ↔ s.words ≠ [] ∧ ¬ ∃ e : Tree, e.IsReadFrom s.words) ∧
      (OnlyLayout source.toList → r.journal = j ∧ r.output = o) ∧
      (∀ e : Tree, ¬ OnlyLayout source.toList → s.diagnostics = [] → e.IsReadFrom s.words →
        r.journal = j ∧
          r.output = { o with received := o.received ++ (e.text ++ "\n").toUTF8 }) ∧
      (¬ OnlyLayout source.toList → (¬ ∃ e : Tree, s.diagnostics = [] ∧ e.IsReadFrom s.words) →
        r.journal.toList ≠ j.toList ∧ r.output = o) := by
  intro s r
  have tiles := Fragment.tiles_listFrom {} source.toList
  have quiet : s.answer = [] → r = ⟨j.recordAll s.reports, o, true⟩ := by
    intro answer
    have run := ofSource_of_answer clean unlimited answer
    simpa using run
  have journal : r.journal = j.recordAll s.reports := by
    show (ofSource source false j o).journal = _
    rw [ofSource_of_capacity_none source false j unlimited]
  have completed : r.completed = true := by
    show (ofSource source false j o).completed = _
    rw [ofSource_of_capacity_none source false j unlimited]
  refine ⟨s.syntaxError?, completed, tiles, journal, Scan.isSome_syntaxError?_iff, ?_, ?_, ?_⟩
  · intro layout
    obtain ⟨noWords, noErrors⟩ :=
      (Scan.words_eq_nil_and_diagnostics_eq_nil_iff source).mpr layout
    have noReports :=
      Scan.reports_eq_nil_iff.mpr ⟨noErrors, Scan.syntaxError?_of_words_eq_nil noWords⟩
    rw [quiet (Scan.answer_of_words_eq_nil noWords), noReports]
    exact ⟨rfl, rfl⟩
  · intro e _ noErrors read
    have noSyntaxError : s.syntaxError? = none := by
      rw [← Option.not_isSome_iff_eq_none, Scan.isSome_syntaxError?_iff]
      exact fun h => h.2 ⟨e, read⟩
    have noReports := Scan.reports_eq_nil_iff.mpr ⟨noErrors, noSyntaxError⟩
    have answer := Scan.answer_of_tree? noReports (Scan.tree?_eq_some_iff.mpr read)
    have run := ofSource_of_answer clean unlimited answer
    rw [show r = _ from run, noReports]
    simp [String.join_cons, Journal.recordAll]
  · intro notLayout noExpression
    have reported : s.reports ≠ [] := Scan.reports_ne_nil notLayout noExpression
    rw [quiet (Scan.answer_of_reports_ne_nil reported)]
    refine ⟨?_, rfl⟩
    simpa using reported

theorem ofSource_outcome_unfinished :
    ({} : Journal).hasErrors = false ∧ ({} : Sink).capacity? = none ∧
      (ofSource "nil == $" false {} {}).output = {} ∧
      (ofSource "nil == $" false {} {}).journal.toList.length = 2 := by
  refine ⟨rfl, rfl, ?_⟩
  obtain ⟨error?, -, -, journal, error, -, -, other⟩ :=
    ofSource_outcome "nil == $" {} {} rfl rfl
  have words : (Scan.ofSource "nil == $").words.length = 2 := by decide +kernel
  have wrong :
      ((Scan.ofSource "nil == $").fragments.filterMap Fragment.diagnostic?).length = 1 := by
    decide +kernel
  have unread : ¬ ∃ e : Tree, e.IsReadFrom (Scan.ofSource "nil == $").words := by
    rintro ⟨e, read⟩
    have none : (Scan.ofSource "nil == $").tree? = none := by decide +kernel
    rw [Scan.tree?_eq_some_iff.mpr read] at none
    contradiction
  have notLayout : ¬ OnlyLayout "nil == $".toList := by
    intro layout
    obtain ⟨noWords, -⟩ := (Scan.words_eq_nil_and_diagnostics_eq_nil_iff _).mpr layout
    rw [noWords] at words
    contradiction
  have isError : error?.isSome = true := error.mpr ⟨by rintro none; simp [none] at words, unread⟩
  have noExpression : ¬ ∃ e : Tree, (Scan.ofSource "nil == $").diagnostics = [] ∧
      e.IsReadFrom (Scan.ofSource "nil == $").words := by
    rintro ⟨e, -, read⟩
    exact unread ⟨e, read⟩
  obtain ⟨-, output⟩ := other notLayout noExpression
  refine ⟨output, ?_⟩
  obtain ⟨e, rfl⟩ := Option.isSome_iff_exists.mp isError
  rw [journal, Journal.toList_recordAll]
  simp [wrong, Journal.toList]

end Run

end LoxExpr
