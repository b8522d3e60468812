import LoxExpr.Options
import LoxExpr.Proofs.Alone
import LoxExpr.Proofs.Lines

/-!
The lines at the prompt, each on its own.

A line leaves the shell as it found it, but for what the outputs received (`Shell.runLine_between`).
So what the outputs have received behind some lines is what each line writes and echoes on its own
(`Shell.runLines_between`), up to the first line that is not UTF-8.
-/

set_option autoImplicit false
set_option relaxedAutoImplicit false

namespace LoxExpr

def joined (pieces : List ByteArray) : ByteArray := pieces.foldr (· ++ ·) .empty

@[simp] theorem joined_nil : joined [] = .empty := rfl

@[simp] theorem joined_cons (piece : ByteArray) (pieces : List ByteArray) :
    joined (piece :: pieces) = piece ++ joined pieces := rfl

namespace Input

theorem exists_readable (lines : List (List UInt8)) :
    ∃ (texts : List String) (rest : List (List UInt8)), lines = texts.map utf8 ++ rest ∧
      ∀ line ∈ rest.head?, ∀ text, utf8 text ≠ line := by
  induction lines with
  | nil => exact ⟨[], [], rfl, nofun⟩
  | cons line lines ih =>
    by_cases readable : ∃ text, utf8 text = line
    · obtain ⟨text, rfl⟩ := readable
      obtain ⟨texts, rest, cut, unreadable⟩ := ih
      exact ⟨text :: texts, rest, congrArg (utf8 text :: ·) cut, unreadable⟩
    · refine ⟨[], line :: lines, rfl, ?_⟩
      intro line' same text read
      obtain rfl := Option.some.inj same
      exact readable ⟨text, read⟩

theorem decode_eq_error {line : List UInt8} (unreadable : ∀ text, utf8 text ≠ line) :
    decode line.toByteArray = .error .notUtf8 := by
  cases decoded : decode line.toByteArray with
  | ok text => exact absurd (decode_eq_ok_iff.mp decoded) (unreadable text)
  | error e =>
    unfold decode at decoded
    split at decoded
    · contradiction
    · exact decoded.symm

end Input

namespace Shell

open Input

variable (listTokens : Bool) (out err : ByteArray)

/-- The shell before a line: nothing is recorded, and the outputs have received the given bytes. -/
def between : Shell := ⟨{ received := out }, { echo? := some { received := err } }⟩

theorem print_between (text : String) :
    (between out err).print text = between (out ++ text.toUTF8) err := by
  rw [print, between, Sink.write_of_capacity_none _ _ rfl]
  rfl

theorem runLine_between (text : String) :
    (between out err).runLine (utf8 text) listTokens =
      .ok (between (out ++ (Run.alone (trimLineEnd text) listTokens).output.received)
        (err ++ (Run.alone (trimLineEnd text) listTokens).echoed)) := by
  have decoded : decode (utf8 text).toByteArray = .ok text := decode_eq_ok_iff.mpr rfl
  have ran : (between out err).run (trimLineEnd text) listTokens =
      ⟨{ received := out ++ (Run.alone (trimLineEnd text) listTokens).output.received },
        (between out err).journal.recordAll (Scan.ofSource (trimLineEnd text)).reports⟩ := by
    rw [run, Run.ofSource_of_capacity_none _ _ _ rfl, Run.alone_eq]
    rfl
  have cleared : ((between out err).journal.recordAll
        (Scan.ofSource (trimLineEnd text)).reports).clear =
      { echo? := some { received := err ++ (Run.alone (trimLineEnd text) listTokens).echoed } } := by
    rw [Journal.clear, Journal.recordAll_of_echo? rfl rfl, Run.echoed_alone,
      Run.toList_journal_alone]
  rw [runLine, decoded]
  show Except.ok ({ (between out err).run (trimLineEnd text) listTokens with
    journal := ((between out err).run (trimLineEnd text) listTokens).journal.clear } : Shell) = _
  rw [ran, cleared]
  rfl

def prompted (runs : List Run) : ByteArray :=
  joined (runs.map fun r => promptText.toUTF8 ++ r.output.received)

theorem runLines_between (texts : List String) (rest : List (List UInt8)) :
    let runs := texts.map fun text => Run.alone (trimLineEnd text) listTokens
    (between out err).runLines listTokens (texts.map utf8 ++ rest) =
      (between (out ++ prompted runs) (err ++ joined (runs.map Run.echoed))).runLines listTokens
        rest := by
  intro runs
  induction texts generalizing out err with
  | nil => simp [runs, prompted]
  | cons text texts ih =>
    rw [List.map_cons, List.cons_append, runLines, print_between, runLine_between]
    simp only [ih, runs, prompted, List.map_cons, joined_cons, ByteArray.append_assoc]

/-- Behind the lines that can be read there is one more prompt. The program ends there if no line is
left, and fails if one is that cannot be read. -/
theorem runLines_of_unreadable {rest : List (List UInt8)}
    (unreadable : ∀ line ∈ rest.head?, ∀ text, utf8 text ≠ line) :
    (between out err).runLines listTokens rest =
      if rest = [] then ⟨0, out ++ promptText.toUTF8, err⟩
      else ⟨1, out ++ promptText.toUTF8,
        err ++ "Error: stream did not contain valid UTF-8\n".toUTF8⟩ := by
  cases rest with
  | nil =>
    rw [runLines, print_between, if_pos rfl]
    rfl
  | cons line lines =>
    have failed : (between (out ++ promptText.toUTF8) err).runLine line listTokens =
        .error .notUtf8 := by
      rw [runLine, decode_eq_error (unreadable line rfl)]
      rfl
    rw [runLines, print_between, failed, if_neg (List.cons_ne_nil _ _)]
    rfl

/-- Every line at the prompt is a session of its own.

The input is cut behind each line feed, and the lines up to the first that is not UTF-8 are run
without their line ends. The outputs are those of these runs, each with a journal of its own, one
behind the other, with a prompt before each and one more at the end. The program fails with a
message if there is a line that is not UTF-8. What a run echoes is what it records, all of it on
line 1. -/
theorem prompt_runs_lines_alone (listTokens : Bool) (folder : Folder) (input : ByteArray) :
    ∃ (texts : List String) (rest : List (List UInt8)),
      Cut input.toList (texts.map utf8 ++ rest) ∧
      (∀ line ∈ rest.head?, ∀ text, utf8 text ≠ line) ∧
      (∀ text ∈ texts, Strips text (trimLineEnd text)) ∧
      let runs := texts.map fun text => Run.alone (trimLineEnd text) listTokens
      let outcome := Options.outcome { listTokens := listTokens } folder input
      outcome.stdout =
        joined (runs.map fun r => "> ".toUTF8 ++ r.output.received) ++ "> ".toUTF8 ∧
      outcome.stderr = joined (runs.map Run.echoed) ++
        (if rest = [] then .empty else "Error: stream did not contain valid UTF-8\n".toUTF8) ∧
      outcome.exitCode = (if rest = [] then 0 else 1) ∧
      ∀ r ∈ runs, r.completed = true ∧
        r.echoed = (Diagnostic.echo r.journal.toList).toUTF8 ∧
        ∀ d ∈ r.journal.toList, d.line = 1 := by
  obtain ⟨texts, rest, readable, unreadable⟩ := exists_readable (lines input.toList)
  have cut : Cut input.toList (texts.map utf8 ++ rest) := readable ▸ cut_lines input.toList
  refine ⟨texts, rest, cut, unreadable, fun text _ => strips_trimLineEnd text, ?_⟩
  intro runs outcome
  have ended : outcome = if rest = [] then
      ⟨0, prompted runs ++ promptText.toUTF8, joined (runs.map Run.echoed)⟩
      else ⟨1, prompted runs ++ promptText.toUTF8, joined (runs.map Run.echoed) ++
        "Error: stream did not contain valid UTF-8\n".toUTF8⟩ := by
    show (between .empty .empty).runLines listTokens (lines input.toList) = _
    rw [readable, runLines_between, runLines_of_unreadable _ _ _ unreadable, ByteArray.empty_append,
      ByteArray.empty_append]
  rw [ended]
  refine ⟨?_, ?_, ?_, ?_⟩
  · split <;> rfl
  · split
    · exact ByteArray.append_empty.symm
    · rfl
  · split <;> rfl
  · intro r hr
    obtain ⟨text, ht, rfl⟩ := List.mem_map.mp hr
    refine ⟨Run.completed_alone _ _, Run.echoed_alone _ _, ?_⟩
    intro d hd
    rw [Run.toList_journal_alone] at hd
    have line : utf8 text ∈ texts.map utf8 ++ rest :=
      List.mem_append_left _ (List.mem_map_of_mem ht)
    have oneLine : '\n' ∉ (trimLineEnd text).toList :=
      (strips_trimLineEnd text).newline_not_mem (cut.feed_not_mem_dropLast line)
    exact Scan.line_of_mem_reports oneLine hd

end Shell

end LoxExpr
