import LoxExpr.Proofs.Alone

/-!
Runs whose output is cut off.

A receiver with limited room has the first bytes of all that was written to it (`Sink.Holds.write`),
however that was divided into texts (`Sink.Holds.writeAll`). So a run into such a receiver writes
the first bytes of what it writes where there is room for everything, and it leaves the same journal
behind unless it stops before its tokens are read.
-/

set_option autoImplicit false
set_option relaxedAutoImplicit false

namespace LoxExpr

namespace Sink

/-- The receiver takes `n` bytes in all and has the first `n` of the bytes written to it. -/
structure Holds (n : Nat) (written : ByteArray) (s : Sink) : Prop where
  capacity : s.capacity? = some n
  received : s.received = written.extract 0 n

variable {n : Nat} {written : ByteArray} {s : Sink}

theorem Holds.room (holds : Holds n written s) (text : String) :
    s.room text = n - written.size := by
  rw [Sink.room, holds.capacity]
  show n - s.received.size = _
  rw [holds.received, ByteArray.size_extract]
  omega

theorem Holds.write (holds : Holds n written s) (text : String) :
    Holds n (written ++ text.toUTF8) (s.write text).1 := by
  refine ⟨holds.capacity, ?_⟩
  show s.received ++ text.toUTF8.extract 0 (s.room text) = _
  rw [holds.room, holds.received, ByteArray.extract_append, Nat.zero_sub]

theorem Holds.write_snd (holds : Holds n written s) (fits : written.size ≤ n) (text : String) :
    (s.write text).2 = true ↔ (written ++ text.toUTF8).size ≤ n := by
  show decide (text.utf8ByteSize ≤ s.room text) = true ↔ _
  rw [decide_eq_true_eq, holds.room, ByteArray.size_append]
  show text.utf8ByteSize ≤ n - written.size ↔ written.size + text.utf8ByteSize ≤ n
  omega

theorem Holds.append (holds : Holds n written s) (full : n ≤ written.size) (more : ByteArray) :
    Holds n (written ++ more) s := by
  refine ⟨holds.capacity, ?_⟩
  have nothing : more.extract 0 (n - written.size) = .empty := by
    rw [ByteArray.extract_eq_empty_iff]
    omega
  rw [holds.received, ByteArray.extract_append, Nat.zero_sub, nothing, ByteArray.append_empty]

theorem Holds.writeAll (holds : Holds n written s) (fits : written.size ≤ n) (texts : List String) :
    Holds n (written ++ (String.join texts).toUTF8) (s.writeAll texts).1 ∧
      ((s.writeAll texts).2 = true ↔ (written ++ (String.join texts).toUTF8).size ≤ n) := by
  induction texts generalizing s written with
  | nil =>
    have none : written ++ (String.join []).toUTF8 = written := ByteArray.append_empty
    rw [none]
    exact ⟨holds, iff_of_true rfl fits⟩
  | cons text texts ih =>
    have bytes : written ++ (String.join (text :: texts)).toUTF8 =
        written ++ text.toUTF8 ++ (String.join texts).toUTF8 := by
      simp [String.join_cons, ByteArray.append_assoc]
    have first := holds.write text
    rw [writeAll_cons, bytes]
    by_cases whole : (s.write text).2 = true
    · rw [if_pos whole]
      exact ih first ((holds.write_snd fits text).mp whole)
    · -- the first text is cut off, so those behind it are lost in full
      rw [if_neg whole]
      have lost : n < (written ++ text.toUTF8).size := by
        rw [holds.write_snd fits] at whole
        omega
      refine ⟨first.append (Nat.le_of_lt lost) _, iff_of_false whole ?_⟩
      rw [ByteArray.size_append]
      omega

end Sink

namespace Run

/-- A run into a receiver with room for `n` bytes.

It writes the first `n` bytes of what it writes where there is room for everything, and it completes
unless that is more. It leaves the same journal behind, unless already the list of the tokens is cut
off: then the tokens are not read, and only the errors of the pieces of the source are recorded.
These are recorded and echoed in any case. -/
theorem ofSource_limited (source : String) (listTokens : Bool) (j : Journal) (n : Nat) :
    let s := Scan.ofSource source
    let full := ofSource source listTokens j {}
    let r := ofSource source listTokens j { capacity? := some n }
    let listing := String.join (if listTokens then s.tokens.map Token.listing else [])
    full.completed = true ∧
      r.output.received = full.output.received.extract 0 n ∧
      (r.completed = false ↔ n < full.output.received.size) ∧
      r.journal = (if n < listing.utf8ByteSize then j.recordAll s.diagnostics else full.journal) ∧
      ∃ more, r.journal.toList = j.toList ++ (s.diagnostics ++ more) ∧
        ∀ echo, j.echo? = some echo → echo.capacity? = none →
          r.journal.echo? = some { echo with
            received := echo.received ++ (Diagnostic.echo (s.diagnostics ++ more)).toUTF8 } := by
  intro s full r listing
  have whole : full = ⟨j.recordAll s.reports,
      { received := (String.join (s.texts listTokens j.hasErrors)).toUTF8 }, true⟩ := by
    show ofSource source listTokens j {} = _
    rw [ofSource_of_capacity_none source listTokens j rfl, ByteArray.empty_append]
  have nothing : ByteArray.empty.extract 0 n = .empty :=
    ByteArray.extract_eq_empty_iff.mpr (Nat.min_le_right n 0)
  have start : Sink.Holds n .empty { capacity? := some n } := ⟨rfl, nothing.symm⟩
  have room : ByteArray.empty.size ≤ n := Nat.zero_le n
  obtain ⟨-, listed⟩ := start.writeAll room (s.listing listTokens)
  obtain ⟨written, completed⟩ := start.writeAll room (s.texts listTokens j.hasErrors)
  rw [ByteArray.empty_append] at listed written completed
  have run : r = _ := ofSource_eq source listTokens j { capacity? := some n }
  have within : (Sink.writeAll { capacity? := some n } (s.listing listTokens)).2 = true ↔
      ¬ n < listing.utf8ByteSize := by
    rw [listed, Nat.not_lt]
    rfl
  obtain ⟨more, recorded⟩ : ∃ more, r.journal = j.recordAll (s.diagnostics ++ more) := by
    rw [run]
    split
    · exact ⟨_, rfl⟩
    · exact ⟨[], by rw [List.append_nil]⟩
  refine ⟨by rw [whole], ?_, ?_, ?_, more, ?_, ?_⟩
  · rw [whole, run]
    exact written.received
  · rw [whole, run, ← Bool.not_eq_true, completed, Nat.not_le]
  · rw [run, whole]
    by_cases cut : n < listing.utf8ByteSize
    · rw [if_pos cut]
      simp only [within, cut, not_true, if_false, s]
    · rw [if_neg cut]
      simp only [within, cut, not_false_iff, if_true, s]
  · rw [recorded, Journal.toList_recordAll]
  · intro echo there unlimited
    rw [recorded, Journal.recordAll_of_echo? there unlimited]

end Run

end LoxExpr
