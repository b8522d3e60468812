import LoxExpr.Diagnostic
import LoxExpr.Quoted
import LoxExpr.Sink

/-!
A journal of diagnostics, which may be echoed to a receiver of output as they are recorded.

The list of a journal grows at its end and is empty after `clear` (`toList_record`, `toList_clear`).
The flag is kept apart from it: recording anything makes the two agree, and so does clearing
(`agrees_record`, `agrees_clear`).
-/

set_option autoImplicit false
set_option relaxedAutoImplicit false

namespace LoxExpr

/-- The diagnostics recorded since the journal was last cleared, a flag that is set by each of them,
and the receiver of the echo. -/
structure Journal where
  entries : Array Diagnostic := #[]
  hasErrors : Bool := false
  echo? : Option Sink := none

namespace Journal

/-- Adds a diagnostic, sets the flag, and echoes the text as a line; what the echo has no room for is
let go. -/
def record (j : Journal) (d : Diagnostic) : Journal where
  entries := j.entries.push d
  hasErrors := true
  echo? := j.echo?.map fun sink => (sink.write (d.text ++ "\n")).1

def recordAll (j : Journal) (ds : List Diagnostic) : Journal := ds.foldl record j

/-- Forgets the diagnostics and takes the flag back; what was echoed stays. -/
def clear (j : Journal) : Journal := { j with entries := #[], hasErrors := false }

def toList (j : Journal) : List Diagnostic := j.entries.toList

def size (j : Journal) : Nat := j.entries.size

def isEmpty (j : Journal) : Bool := j.entries.isEmpty

def text (j : Journal) : String := "\n".intercalate (j.toList.map Diagnostic.text)

@[simp] theorem toList_record (j : Journal) (d : Diagnostic) :
    (j.record d).toList = j.toList ++ [d] := by
  simp [record, toList]

@[simp] theorem toList_recordAll (j : Journal) (ds : List Diagnostic) :
    (j.recordAll ds).toList = j.toList ++ ds := by
  induction ds generalizing j with
  | nil => simp [recordAll]
  | cons d ds ih =>
    have step : j.recordAll (d :: ds) = (j.record d).recordAll ds := rfl
    rw [step, ih, toList_record, List.append_assoc, List.singleton_append]

@[simp] theorem toList_clear (j : Journal) : j.clear.toList = [] := rfl

/-- The flag is set when the list is not empty. -/
def Agrees (j : Journal) : Prop := j.hasErrors = true ↔ j.toList ≠ []

theorem agrees_fresh (echo? : Option Sink) : ({ echo? := echo? } : Journal).Agrees := by
  simp [Agrees, toList]

theorem agrees_record (j : Journal) (d : Diagnostic) : (j.record d).Agrees := by
  have flag : (j.record d).hasErrors = true := rfl
  simp [Agrees, flag]

theorem Agrees.recordAll {j : Journal} (agrees : j.Agrees) (ds : List Diagnostic) :
    (j.recordAll ds).Agrees := by
  induction ds generalizing j with
  | nil => exact agrees
  | cons d ds ih => exact ih (agrees_record j d)

theorem agrees_clear (j : Journal) : j.clear.Agrees := by
  simp [Agrees, clear, toList]

end Journal

/-- A description of a location, with the text of a token quoted. -/
def Location.describe : Location → String
  | .nowhere => "Nowhere"
  | .atEnd => "AtEnd"
  | .atLexeme lexeme => "At(" ++ Quoted.encode lexeme ++ ")"

def Diagnostic.describe (d : Diagnostic) : String :=
  "Diagnostic \x7b line: Line(" ++ d.line.repr ++ "), location: " ++ d.location.describe ++
    ", message: " ++ Quoted.encode d.message ++ " \x7d"

/-- A description of a journal by its diagnostics and its flag. -/
def Journal.describe (j : Journal) : String :=
  "Diagnostics \x7b reported: [" ++ ", ".intercalate (j.toList.map Diagnostic.describe) ++
    "], had_error: " ++ (if j.hasErrors then "true" else "false") ++ " \x7d"

end LoxExpr
