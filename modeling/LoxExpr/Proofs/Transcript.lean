import LoxExpr.Run

/-!
What a run records and writes.

The source settles all of it: the errors of its pieces, what reading its tokens comes to, and the
texts made of the two. The journal and the output decide only how much of it happens: the line of
the expression is left out if anything was recorded before, and nothing more is done once the output
is full (`Run.ofSource_eq`).
-/

set_option autoImplicit false
set_option relaxedAutoImplicit false

namespace LoxExpr

namespace Sink

variable {s : Sink} {texts : List String}

theorem writeAll_cons (s : Sink) (text : String) (texts : List String) :
    s.writeAll (text :: texts) =
      if (s.write text).2 then (s.write text).1.writeAll texts else s.write text := by
  rw [writeAll]
  split
  · rename_i taken
    simp [taken]
  · rename_i cut
    simp [cut]

theorem writeAll_singleton (s : Sink) (text : String) : s.writeAll [text] = s.write text := by
  rw [writeAll_cons, writeAll]
  split
  · rename_i whole
    exact Prod.ext rfl whole.symm
  · rfl

theorem writeAll_append (s : Sink) (texts more : List String) :
    s.writeAll (texts ++ more) =
      if (s.writeAll texts).2 then (s.writeAll texts).1.writeAll more else s.writeAll texts := by
  induction texts generalizing s with
  | nil => rfl
  | cons text texts ih =>
    rw [List.cons_append, writeAll_cons, writeAll_cons]
    by_cases whole : (s.write text).2 = true
    · rw [if_pos whole, if_pos whole, ih]
    · rw [if_neg whole, if_neg whole, if_neg whole]

theorem writeAll_of_capacity_none (unlimited : s.capacity? = none) :
    s.writeAll texts = ({ s with received := s.received ++ (String.join texts).toUTF8 }, true) := by
  induction texts generalizing s with
  | nil => simp [writeAll]
  | cons text texts ih =>
    have rest := ih (s := { s with received := s.received ++ text.toUTF8 }) unlimited
    rw [writeAll_cons, write_of_capacity_none s text unlimited, if_pos rfl, rest]
    simp [ByteArray.append_assoc]

end Sink

theorem Journal.hasErrors_recordAll (j : Journal) (ds : List Diagnostic) :
    (j.recordAll ds).hasErrors = (j.hasErrors || !ds.isEmpty) := by
  induction ds generalizing j with
  | nil => simp [recordAll]
  | cons d ds ih =>
    have flag : (j.record d).hasErrors = true := rfl
    have step : j.recordAll (d :: ds) = (j.record d).recordAll ds := rfl
    rw [step, ih, flag]
    simp

theorem Journal.recordAll_append (j : Journal) (ds more : List Diagnostic) :
    j.recordAll (ds ++ more) = (j.recordAll ds).recordAll more := by
  simp [recordAll, List.foldl_append]

namespace Scan

def outcome? (s : Scan) : Option (Except SyntaxError Tree) :=
  if s.words.isEmpty then none else some (Parser.ofScan s).parse

def tree? (s : Scan) : Option Tree :=
  match s.outcome? with
  | some (.ok e) => some e
  | _ => none

def syntaxError? (s : Scan) : Option SyntaxError :=
  match s.outcome? with
  | some (.error error) => some error
  | _ => none

/-- Everything there is to report of a source: the errors of its pieces, then the syntax error. -/
def reports (s : Scan) : List Diagnostic :=
  s.diagnostics ++ (s.syntaxError?.map SyntaxError.diagnostic).toList

def listing (s : Scan) (listTokens : Bool) : List String :=
  if listTokens then s.tokens.map Token.listing else []

def answer (s : Scan) : List String :=
  if s.reports.isEmpty then (s.tree?.map fun e => e.text ++ "\n").toList else []

/-- The texts that a run writes where there is room for them. -/
def texts (s : Scan) (listTokens hadErrors : Bool) : List String :=
  s.listing listTokens ++ if hadErrors then [] else s.answer

end Scan

namespace Run

theorem evaluate_recordScan (s : Scan) (j : Journal) (o : Sink) :
    evaluate s (j.recordScan s) o =
      ⟨j.recordAll s.reports, (o.writeAll (if j.hasErrors then [] else s.answer)).1,
        (o.writeAll (if j.hasErrors then [] else s.answer)).2⟩ := by
  unfold evaluate Journal.recordScan
  by_cases empty : s.words.isEmpty = true
  · have outcome : s.outcome? = none := by simp [Scan.outcome?, empty]
    have reports : s.reports = s.diagnostics := by
      simp [Scan.reports, Scan.syntaxError?, outcome]
    have answer : s.answer = [] := by simp [Scan.answer, Scan.tree?, outcome]
    rw [if_pos empty, reports, answer, ite_self, Sink.writeAll]
  rw [if_neg empty]
  cases result : (Parser.ofScan s).parse with
  | error error =>
    have outcome : s.outcome? = some (.error error) := by simp [Scan.outcome?, empty, result]
    have reports : s.reports = s.diagnostics ++ [error.diagnostic] := by
      simp [Scan.reports, Scan.syntaxError?, outcome]
    have answer : s.answer = [] := by simp [Scan.answer, reports]
    rw [reports, answer, ite_self, Journal.recordAll_append, Sink.writeAll, Parser.parseInto,
      result]
    rfl
  | ok e =>
    have outcome : s.outcome? = some (.ok e) := by simp [Scan.outcome?, empty, result]
    have reports : s.reports = s.diagnostics := by
      simp [Scan.reports, Scan.syntaxError?, outcome]
    have line : (s.tree?.map fun e => e.text ++ "\n").toList = [e.text ++ "\n"] := by
      simp [Scan.tree?, outcome]
    rw [Parser.parseInto, result, Scan.answer, reports, line]
    simp only [Except.toOption, Journal.recordResult, Journal.hasErrors_recordAll]
    cases j.hasErrors <;> cases s.diagnostics <;>
      simp [Sink.writeAll, Sink.writeAll_singleton]

/-- A run writes its texts as far as there is room for them, and records everything there is to
report unless already the list of tokens is cut off. -/
theorem ofSource_eq (source : String) (listTokens : Bool) (j : Journal) (o : Sink) :
    ofSource source listTokens j o =
      ⟨j.recordAll (if (o.writeAll ((Scan.ofSource source).listing listTokens)).2 then
          (Scan.ofSource source).reports else (Scan.ofSource source).diagnostics),
        (o.writeAll ((Scan.ofSource source).texts listTokens j.hasErrors)).1,
        (o.writeAll ((Scan.ofSource source).texts listTokens j.hasErrors)).2⟩ := by
  rw [ofSource, Scan.texts, Sink.writeAll_append, Scan.listing]
  generalize o.writeAll
    (if listTokens then (Scan.ofSource source).tokens.map Token.listing else []) = written
  obtain ⟨listed, whole⟩ := written
  cases whole with
  | true => exact evaluate_recordScan (Scan.ofSource source) j listed
  | false => rfl

theorem ofSource_of_capacity_none (source : String) (listTokens : Bool) (j : Journal) {o : Sink}
    (unlimited : o.capacity? = none) :
    ofSource source listTokens j o =
      ⟨j.recordAll (Scan.ofSource source).reports,
        { o with received := o.received ++
          (String.join ((Scan.ofSource source).texts listTokens j.hasErrors)).toUTF8 }, true⟩ := by
  rw [ofSource_eq, Sink.writeAll_of_capacity_none unlimited,
    Sink.writeAll_of_capacity_none unlimited, if_pos rfl]

end Run

end LoxExpr
