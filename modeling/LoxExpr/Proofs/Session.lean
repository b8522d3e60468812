import LoxExpr.Proofs.Bookkeeping

/-!
What a journal carries from one run to the next.

A step of a session adds to the journal what it would add on its own, or clears it
(`SessionStep.toList_journal_perform`), so behind any steps the journal holds what the runs since
the last clearing add, each on its own (`Journal.toList_behind`), and its flag tells whether that is
anything (`Journal.Agrees.behind`). The only other trace of the steps
before is that a run leaves out the line of its expression if the journal holds anything.
-/

set_option autoImplicit false
set_option relaxedAutoImplicit false

namespace LoxExpr

namespace SessionStep

def clears : SessionStep → Bool
  | clear => true
  | run .. => false

def Unlimited : SessionStep → Prop
  | clear => True
  | run _ _ capacity? => capacity? = none

def reports : SessionStep → List Diagnostic
  | clear => []
  | run source listTokens _ => (Run.alone source listTokens).journal.toList

/-- A run with room for its output records what it does on its own, and writes the list of its
tokens and then, unless the journal held anything before, the line of its expression. -/
theorem perform_run (j : Journal) (source : String) (listTokens : Bool) :
    perform j (run source listTokens none) =
      ⟨j.recordAll (Run.alone source listTokens).journal.toList,
        { received := (String.join ((Scan.ofSource source).texts listTokens j.hasErrors)).toUTF8 },
        true⟩ := by
  rw [perform, Run.ofSource_of_capacity_none source listTokens j rfl, Run.toList_journal_alone,
    ByteArray.empty_append]

theorem toList_journal_perform {step : SessionStep} (unlimited : step.Unlimited) (j : Journal) :
    (step.perform j).journal.toList = if step.clears then [] else j.toList ++ step.reports := by
  cases step with
  | clear => rfl
  | run source listTokens capacity? =>
    obtain rfl : capacity? = none := unlimited
    rw [perform_run, Journal.toList_recordAll]
    rfl

/-- What the runs behind the last clearing record, each on its own. -/
def pending (steps : List SessionStep) : List Diagnostic :=
  (steps.rtakeWhile (!·.clears)).flatMap reports

theorem pending_concat (steps : List SessionStep) (step : SessionStep) :
    pending (steps ++ [step]) = if step.clears then [] else pending steps ++ step.reports :=
  flatMap_rtakeWhile_concat clears reports steps step

end SessionStep

def Journal.behind (j : Journal) (steps : List SessionStep) : Journal :=
  steps.foldl (fun j step => (step.perform j).journal) j

open SessionStep

theorem Journal.toList_behind {steps : List SessionStep}
    (unlimited : ∀ step ∈ steps, step.Unlimited) {j : Journal} (empty : j.toList = []) :
    (j.behind steps).toList = pending steps := by
  induction steps using List.reverseRecOn with
  | nil => exact empty
  | append_singleton steps step ih =>
    have last : step.Unlimited := unlimited step (by simp)
    have behind : j.behind (steps ++ [step]) = (step.perform (j.behind steps)).journal := by
      simp [Journal.behind]
    rw [behind, toList_journal_perform last, pending_concat, ih]
    intro earlier hearlier
    exact unlimited earlier (List.mem_append_left _ hearlier)

theorem Journal.Agrees.perform {j : Journal} (agrees : j.Agrees) {step : SessionStep}
    (unlimited : step.Unlimited) : (step.perform j).journal.Agrees := by
  cases step with
  | clear => exact agrees_clear j
  | run source listTokens capacity? =>
    obtain rfl : capacity? = none := unlimited
    rw [perform_run]
    exact agrees.recordAll _

theorem Journal.Agrees.behind {steps : List SessionStep}
    (unlimited : ∀ step ∈ steps, step.Unlimited) {j : Journal} (agrees : j.Agrees) :
    (j.behind steps).Agrees := by
  induction steps generalizing j with
  | nil => exact agrees
  | cons step steps ih =>
    rw [List.forall_mem_cons] at unlimited
    exact ih unlimited.2 (agrees.perform unlimited.1)

namespace Scan

variable (s : Scan) (listTokens : Bool)

theorem exists_line : ∃ line : String,
    (line = "" ∨ ∃ e : Tree, (Parser.ofScan s).parse = .ok e ∧ line = e.text ++ "\n") ∧
      ∀ hadErrors, String.join (s.texts listTokens hadErrors) =
        String.join (s.listing listTokens) ++ if hadErrors then "" else line := by
  refine ⟨String.join s.answer, ?_, ?_⟩
  · unfold answer tree?
    split
    · cases outcome : s.outcome? with
      | none => exact .inl rfl
      | some result =>
        unfold outcome? at outcome
        split at outcome
        · contradiction
        · obtain rfl := Option.some.inj outcome
          cases parsed : (Parser.ofScan s).parse with
          | error _ => exact .inl rfl
          | ok e => exact .inr ⟨e, rfl, by simp [String.join_cons]⟩
    · exact .inl rfl
  · intro hadErrors
    cases hadErrors <;> simp [texts, String.join_append]

end Scan

namespace SessionStep

/-- A run in a session is the run on its own, but for the line of its expression.

Whatever was recorded before, it records and echoes the same diagnostics and lists the same tokens.
It writes the line of its expression when it does so on its own and nothing was recorded since the
journal was last cleared, and then it writes just what it writes on its own. Behind any steps the
journal holds what the runs since the last clearing record, and it has errors when that is not
empty. -/
theorem perform_behind_as_alone (echo? : Option Sink) (before : List SessionStep) (step : SessionStep)
    (unlimited : ∀ s ∈ before ++ [step], s.Unlimited) :
    let j := ({ echo? := echo? } : Journal).behind before
    let r := step.perform j
    r.completed = true ∧
      r.journal.toList = pending (before ++ [step]) ∧
      (r.journal.hasErrors = true ↔ pending (before ++ [step]) ≠ []) ∧
      match step with
      | .clear => r.output = {} ∧ r.journal.echo? = j.echo?
      | .run source listTokens _ =>
        let own := Run.alone source listTokens
        let listing := String.join ((Scan.ofSource source).listing listTokens)
        own.completed = true ∧
        r.journal.toList = j.toList ++ own.journal.toList ∧
        r.journal = j.recordAll own.journal.toList ∧
        (∀ echo, j.echo? = some echo → echo.capacity? = none →
          r.journal.echo? = some { echo with received := echo.received ++ own.echoed }) ∧
        (∃ line : String,
          (line = "" ∨ ∃ e : Tree, (Parser.ofScan (Scan.ofSource source)).parse = .ok e ∧
            line = e.text ++ "\n") ∧
          own.output.received = (listing ++ line).toUTF8 ∧
          r.output.received = (listing ++ if pending before = [] then line else "").toUTF8) ∧
        (pending before = [] → r.output = own.output ∧
          r.journal.toList = own.journal.toList ∧
          r.journal.hasErrors = own.journal.hasErrors) := by
  intro j r
  have earlier : ∀ s ∈ before, s.Unlimited := fun s hs => unlimited s (List.mem_append_left _ hs)
  have held : j.toList = pending before := Journal.toList_behind earlier rfl
  have last : step.Unlimited := unlimited step (by simp)
  have now : r.journal.toList = pending (before ++ [step]) := by
    rw [toList_journal_perform last, pending_concat, held]
  have behind : j.Agrees := .behind earlier (Journal.agrees_fresh echo?)
  have agrees : r.journal.Agrees := behind.perform last
  -- The flag that the run reads and the flag that it leaves are those of the lists.
  have errors : r.journal.hasErrors = true ↔ pending (before ++ [step]) ≠ [] := now ▸ agrees
  have silenced : j.hasErrors = !decide (pending before = []) := by
    have flag : j.hasErrors = true ↔ pending before ≠ [] := held ▸ behind
    rw [Bool.eq_iff_iff, flag]
    simp
  cases step with
  | clear => exact ⟨rfl, now, errors, rfl, rfl⟩
  | run source listTokens capacity? =>
    obtain rfl : capacity? = none := last
    obtain ⟨line, read, written⟩ := Scan.exists_line (Scan.ofSource source) listTokens
    have own := Run.alone_eq source listTokens
    have run : r = _ := perform_run j source listTokens
    refine ⟨by rw [run], now, errors, Run.completed_alone _ _, ?_, by rw [run], ?_, ⟨line, read, ?_, ?_⟩, ?_⟩
    · rw [run, Journal.toList_recordAll]
    · intro echo there room
      rw [run, Journal.recordAll_of_echo? there room, Run.echoed_alone]
    · rw [own]
      exact congrArg String.toUTF8 (written false)
    · rw [run, written, silenced]
      by_cases clean : pending before = [] <;> simp [clean]
    · intro clean
      have same : r.journal.toList = (Run.alone source listTokens).journal.toList := by
        rw [run, Journal.toList_recordAll, held, clean, List.nil_append]
      refine ⟨?_, same, ?_⟩
      · rw [run, own, silenced, clean]
        rfl
      · have alone : _ ↔ _ := Run.agrees_journal_alone source listTokens
        rw [Bool.eq_iff_iff, alone, ← same]
        exact agrees

theorem perform_behind_as_alone_silenced :
    (∀ s ∈ [run "$" false none] ++ [run "nil" false none], s.Unlimited) ∧
      (perform (({} : Journal).behind [run "$" false none]) (run "nil" false none)).output.received =
        "".toUTF8 ∧
      (perform (({} : Journal).behind [run "$" false none]) (run "nil" false none)).journal.toList =
        [⟨1, .nowhere, "Unexpected character."⟩] ∧
      (Run.alone "nil" false).output.received = "nil\n".toUTF8 := by
  have unlimited : ∀ s ∈ [run "$" false none] ++ [run "nil" false none], s.Unlimited := by
    intro s hs
    rcases List.mem_pair.mp hs with rfl | rfl <;> rfl
  have error : pending [run "$" false none] = [⟨1, .nowhere, "Unexpected character."⟩] := by
    decide +kernel
  have errors : pending ([run "$" false none] ++ [run "nil" false none]) =
      [⟨1, .nowhere, "Unexpected character."⟩] := by
    decide +kernel
  obtain ⟨-, held, -, -, -, -, -, ⟨line, -, -, written⟩, -⟩ :=
    perform_behind_as_alone none [run "$" false none] (run "nil" false none) unlimited
  refine ⟨unlimited, ?_, held.trans errors, by decide +kernel⟩
  rw [error] at written
  exact written

end SessionStep

end LoxExpr
