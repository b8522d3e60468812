import LoxExpr.Proofs.Transcript

/-!
A run with a journal of its own.

Nothing was recorded before it, and there is room for all that it writes and echoes. Such a run is
settled by its source alone (`Run.alone_eq`), and what it echoes is what it records
(`Run.echoed_alone`).
-/

set_option autoImplicit false
set_option relaxedAutoImplicit false

namespace LoxExpr

def Diagnostic.echo (ds : List Diagnostic) : String :=
  String.join (ds.map fun d => d.text ++ "\n")

theorem Journal.recordAll_of_echo? {j : Journal} {echo : Sink} (h : j.echo? = some echo)
    (unlimited : echo.capacity? = none) (ds : List Diagnostic) :
    (j.recordAll ds).echo? =
      some { echo with received := echo.received ++ (Diagnostic.echo ds).toUTF8 } := by
  induction ds generalizing j echo with
  | nil => simpa [recordAll, Diagnostic.echo] using h
  | cons d ds ih =>
    have recorded : (j.record d).echo? =
        some { echo with received := echo.received ++ (d.text ++ "\n").toUTF8 } := by
      rw [record, h, Option.map_some, Sink.write_of_capacity_none echo _ unlimited]
    have rest := ih recorded unlimited
    show ((j.record d).recordAll ds).echo? = _
    rw [rest]
    simp [Diagnostic.echo, ByteArray.append_assoc]

namespace Run

variable (source : String) (listTokens : Bool)

/-- The run of a source with nothing recorded before, where all that is recorded is echoed. -/
def alone : Run := ofSource source listTokens { echo? := some {} } {}

def echoed (r : Run) : ByteArray := (r.journal.echo?.getD {}).received

theorem alone_eq :
    alone source listTokens =
      ⟨({ echo? := some {} } : Journal).recordAll (Scan.ofSource source).reports,
        { received := (String.join ((Scan.ofSource source).texts listTokens false)).toUTF8 },
        true⟩ := by
  rw [alone, ofSource_of_capacity_none source listTokens _ rfl, ByteArray.empty_append]

theorem completed_alone : (alone source listTokens).completed = true := by
  rw [alone_eq]

theorem toList_journal_alone :
    (alone source listTokens).journal.toList = (Scan.ofSource source).reports := by
  rw [alone_eq, Journal.toList_recordAll]
  rfl

theorem agrees_journal_alone : (alone source listTokens).journal.Agrees := by
  rw [alone_eq]
  exact (Journal.agrees_fresh _).recordAll _

theorem echoed_alone :
    (alone source listTokens).echoed =
      (Diagnostic.echo (alone source listTokens).journal.toList).toUTF8 := by
  rw [toList_journal_alone, echoed, alone_eq, Journal.recordAll_of_echo? rfl rfl, Option.getD_some,
    ByteArray.empty_append]

end Run

end LoxExpr
