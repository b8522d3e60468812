import LoxExpr.Parser.Report
import LoxExpr.Proofs.LimitedOutput
import Mathlib.Data.List.DropRight

/-!
What a journal holds, and what has been echoed of it, behind any use that was made of it.

A step either clears the journal or adds its own reports, which the journal has no part in
(`JournalStep.perform_eq`). So the journal holds the reports of the steps behind the last clearing
(`Journal.toList_used`), the flag agrees with it (`Journal.agrees_used`), and the echo has received
the first bytes of all reports ever made, as many as there is room for (`Journal.echoes_used`).
-/

set_option autoImplicit false
set_option relaxedAutoImplicit false

namespace LoxExpr

theorem flatMap_rtakeWhile_concat {α β : Type} (clears : α → Bool) (reports : α → List β)
    (steps : List α) (step : α) :
    ((steps ++ [step]).rtakeWhile (!clears ·)).flatMap reports =
      if clears step then []
      else (steps.rtakeWhile (!clears ·)).flatMap reports ++ reports step := by
  rw [List.rtakeWhile_concat]
  cases clears step <;> simp

inductive JournalStep where
  | error (line : Nat) (message : String)
  | report (d : Diagnostic)
  | reportLexical (e : LexicalError) (line : Nat)
  | reportSyntax (e : SyntaxError)
  | clear
  | scan (source : String)
  | parse (p : Parser)

namespace JournalStep

inductive Answer where
  | nothing
  | tokens (found : List Token)
  | tree (read? : Option Tree)

def perform (j : Journal) : JournalStep → Answer × Journal
  | error line message => (.nothing, j.record (.onLine line message))
  | report d => (.nothing, j.record d)
  | reportLexical e line => (.nothing, j.record (e.onLine line))
  | reportSyntax e => (.nothing, j.record e.diagnostic)
  | clear => (.nothing, j.clear)
  | scan source => (.tokens (Scan.ofSource source).tokens, j.recordScan (Scan.ofSource source))
  | parse p => (.tree (p.parseInto j).1, (p.parseInto j).2)

def clears : JournalStep → Bool
  | clear => true
  | _ => false

def answer : JournalStep → Answer
  | scan source => .tokens (Scan.ofSource source).tokens
  | parse p => .tree p.parse.toOption
  | _ => .nothing

/-- What a step reports: a single diagnostic, the lexical errors of a source, or the syntax error
of a parser that fails. -/
def reports : JournalStep → List Diagnostic
  | error line message => [⟨line, .nowhere, message⟩]
  | report d => [d]
  | reportLexical e line => [⟨line, .nowhere, e.message⟩]
  | reportSyntax e => [⟨e.line, e.location, e.fault.message⟩]
  | clear => []
  | scan source => (Scan.ofSource source).diagnostics
  | parse p =>
    match p.parse with
    | .ok _ => []
    | .error e => [e.diagnostic]

/-- A step adds its reports to the journal or clears it, and what else comes out of it does not
depend on the journal. -/
theorem perform_eq (j : Journal) (step : JournalStep) :
    step.perform j =
      (step.answer, if step.clears then j.clear else j.recordAll step.reports) := by
  cases step with
  | parse p =>
    simp only [perform, answer, clears, reports, Parser.parseInto]
    cases p.parse <;> rfl
  | _ => rfl

/-- The reports of the steps behind the last clearing. -/
def pending (steps : List JournalStep) : List Diagnostic :=
  (steps.rtakeWhile (!·.clears)).flatMap reports

theorem pending_concat (steps : List JournalStep) (step : JournalStep) :
    pending (steps ++ [step]) = if step.clears then [] else pending steps ++ step.reports :=
  flatMap_rtakeWhile_concat clears reports steps step

theorem reports_of_clears {step : JournalStep} (h : step.clears = true) : step.reports = [] := by
  cases step with
  | clear => rfl
  | _ => contradiction

end JournalStep

def Sink.cut (capacity? : Option Nat) (bytes : ByteArray) : ByteArray :=
  match capacity? with
  | none => bytes
  | some n => bytes.extract 0 n

theorem Sink.write_cut (capacity? : Option Nat) (bytes : ByteArray) (text : String) :
    (Sink.write ⟨capacity?, cut capacity? bytes⟩ text).1 =
      ⟨capacity?, cut capacity? (bytes ++ text.toUTF8)⟩ := by
  cases capacity? with
  | none => rw [write_of_capacity_none _ text rfl]; rfl
  | some n =>
    have holds : Holds n bytes ⟨some n, cut (some n) bytes⟩ := ⟨rfl, rfl⟩
    exact congrArg (Sink.mk (some n)) (holds.write text).received

namespace Journal

open JournalStep

/-- A new journal, which is echoed to a receiver of the given capacity, or not at all. -/
def fresh (echo? : Option (Option Nat)) : Journal :=
  { echo? := echo?.map fun capacity? => { capacity? := capacity? } }

def used (j : Journal) (steps : List JournalStep) : Journal :=
  steps.foldl (fun j step => (step.perform j).2) j

theorem used_concat (j : Journal) (steps : List JournalStep) (step : JournalStep) :
    j.used (steps ++ [step]) = (step.perform (j.used steps)).2 := by
  simp [used]

/-- The receiver of the echo has the first bytes of the reports, as many as there is room for. -/
def Echoes (j : Journal) (echo? : Option (Option Nat)) (ds : List Diagnostic) : Prop :=
  j.echo? = echo?.map fun capacity? => ⟨capacity?, Sink.cut capacity? (Diagnostic.echo ds).toUTF8⟩

variable {j : Journal} {echo? : Option (Option Nat)} {ds : List Diagnostic}

theorem Echoes.record (echoes : j.Echoes echo? ds) (d : Diagnostic) :
    (j.record d).Echoes echo? (ds ++ [d]) := by
  have bytes : (Diagnostic.echo (ds ++ [d])).toUTF8 =
      (Diagnostic.echo ds).toUTF8 ++ (d.text ++ "\n").toUTF8 := by
    simp [Diagnostic.echo, String.join_append, String.join_cons]
  show j.echo?.map _ = _
  rw [echoes, bytes, Option.map_map]
  exact congrArg echo?.map (funext fun capacity? => Sink.write_cut capacity? _ _)

theorem Echoes.recordAll (echoes : j.Echoes echo? ds) (more : List Diagnostic) :
    (j.recordAll more).Echoes echo? (ds ++ more) := by
  induction more generalizing j ds with
  | nil => rwa [List.append_nil]
  | cons d more ih =>
    have rest := ih (echoes.record d)
    rwa [List.append_assoc] at rest

theorem Echoes.perform (echoes : j.Echoes echo? ds) (step : JournalStep) :
    (step.perform j).2.Echoes echo? (ds ++ step.reports) := by
  rw [perform_eq]
  by_cases h : step.clears = true
  · rw [if_pos h, reports_of_clears h, List.append_nil]
    exact echoes
  · rw [if_neg h]
    exact echoes.recordAll step.reports

theorem echoes_used (echo? : Option (Option Nat)) (steps : List JournalStep) :
    ((fresh echo?).used steps).Echoes echo? (steps.flatMap reports) := by
  induction steps using List.reverseRecOn with
  | nil =>
    have nothing : ∀ capacity?, Sink.cut capacity? (Diagnostic.echo []).toUTF8 = .empty := by
      intro capacity?
      cases capacity? with
      | none => rfl
      | some n => exact ByteArray.extract_eq_empty_iff.mpr (Nat.min_le_right n 0)
    simp only [Echoes, List.flatMap_nil, nothing]
    rfl
  | append_singleton steps step ih =>
    rw [used_concat, List.flatMap_append, List.flatMap_singleton]
    exact ih.perform step

theorem toList_used (echo? : Option (Option Nat)) (steps : List JournalStep) :
    ((fresh echo?).used steps).toList = pending steps := by
  induction steps using List.reverseRecOn with
  | nil => rfl
  | append_singleton steps step ih =>
    rw [used_concat, perform_eq, pending_concat]
    by_cases h : step.clears = true
    · rw [if_pos h, if_pos h, toList_clear]
    · rw [if_neg h, if_neg h, toList_recordAll, ih]

theorem Agrees.use (agrees : j.Agrees) (step : JournalStep) : (step.perform j).2.Agrees := by
  rw [perform_eq]
  by_cases h : step.clears = true
  · rw [if_pos h]
    exact agrees_clear j
  · rw [if_neg h]
    exact agrees.recordAll step.reports

theorem agrees_used (echo? : Option (Option Nat)) (steps : List JournalStep) :
    ((fresh echo?).used steps).Agrees := by
  induction steps using List.reverseRecOn with
  | nil => exact agrees_fresh _
  | append_singleton steps step ih =>
    rw [used_concat]
    exact ih.use step

/-- The books of a journal are right behind every step of any history.

It holds the reports made since it was last cleared, in order; the flag, the length and the text
agree with them. The echo has the first bytes of all reports ever made, each on a line of its own,
as many bytes as there is room for, whether the journal was cleared or not. Neither the journal nor
what comes out of a step depends on whether there is an echo and on how much room it has. -/
theorem perform_used_keeps_books (echo? : Option (Option Nat)) (before : List JournalStep)
    (step : JournalStep) :
    let r := step.perform ((fresh echo?).used before)
    let held := pending (before ++ [step])
    let told := (before ++ [step]).flatMap reports
    r.2.toList = held ∧ (r.2.hasErrors = true ↔ held ≠ []) ∧
      r.2.size = held.length ∧ (r.2.isEmpty = true ↔ held = []) ∧
      r.2.text = "\n".intercalate (held.map Diagnostic.text) ∧
      r.2.echo?.map Sink.received =
        echo?.map (fun capacity? => Sink.cut capacity? (Diagnostic.echo told).toUTF8) ∧
      ∀ other? : Option (Option Nat),
        let r' := step.perform ((fresh other?).used before)
        r'.1 = r.1 ∧ r'.2.toList = r.2.toList ∧ r'.2.hasErrors = r.2.hasErrors := by
  intro r held told
  have list : ∀ echo? : Option (Option Nat),
      (step.perform ((fresh echo?).used before)).2.toList = held := by
    intro echo?
    rw [← used_concat]
    exact toList_used echo? _
  have echo : r.2.Echoes echo? told := by
    show (step.perform ((fresh echo?).used before)).2.Echoes echo? told
    rw [← used_concat]
    exact echoes_used echo? _
  have flag : ∀ echo? : Option (Option Nat),
      (step.perform ((fresh echo?).used before)).2.hasErrors = true ↔ held ≠ [] := by
    intro echo?
    rw [← list echo?]
    exact (agrees_used echo? before).use step
  refine ⟨list echo?, flag echo?, ?_, ?_, ?_, ?_, ?_⟩
  · rw [← list echo?]
    rfl
  · rw [← list echo?]
    simp [isEmpty, toList, r]
  · rw [text, list]
  · rw [echo, Option.map_map]
    rfl
  · intro other? r'
    have same : r'.2.toList = r.2.toList := (list other?).trans (list echo?).symm
    refine ⟨?_, same, ?_⟩
    · simp only [r', r, perform_eq]
    · exact Bool.eq_iff_iff.mpr ((flag other?).trans (flag echo?).symm)

end Journal

end LoxExpr
