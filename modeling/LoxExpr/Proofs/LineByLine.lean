import LoxExpr.Proofs.Splice

/-!
A source scanned line by line.

A line feed ends every piece but a string, so behind a text that leaves no string open a line feed
is read by itself (`Fragment.Tiles.append_line`). What follows is then scanned as a source of its
own, only further down.
-/

set_option autoImplicit false
set_option relaxedAutoImplicit false

namespace LoxExpr

theorem Piece.stopsAt_newline {piece : Piece}
    (closed : piece.error? ≠ some .unterminatedString) : piece.StopsAt '\n' := by
  cases piece with
  | comment body => rfl
  | unterminated body => exact closed rfl
  | _ => trivial

namespace Fragment

variable {p : Position} {u v : List Char} {fs gs : List Fragment} {f : Fragment}

theorem Tiles.append_line (front : Tiles p u fs)
    (closed : ∀ f ∈ fs, f.piece.error? ≠ some .unterminatedString) (back : Tiles p v gs) :
    Tiles p (u ++ '\n' :: v) (fs ++ ⟨p.after u, .blank '\n'⟩ ::
      gs.map (·.shift ((u ++ ['\n']).count '\n') (utf8Length (u ++ ['\n'])))) := by
  have feed : IsBlank '\n' := by simp [IsBlank]
  have stops : ∀ f ∈ fs.getLast?, f.piece.StopsAt '\n' := fun f hf =>
    Piece.stopsAt_newline (closed f (List.mem_of_getLast? hf))
  have moved := back.shift ((u ++ ['\n']).count '\n') (utf8Length (u ++ ['\n']))
  rw [← Position.after_eq_shift, Position.after_append] at moved
  exact (front.leads.before_blank feed stops v).append (@Tiles.cons _ (.blank '\n') _ _ feed moved)

end Fragment

namespace Scan

variable {source : String} {f : Fragment}

theorem error?_ne_of_message_ne (hf : f ∈ (ofSource source).fragments) {e : LexicalError}
    (free : ∀ d ∈ (ofSource source).diagnostics, d.message ≠ e.message) :
    f.piece.error? ≠ some e := by
  intro error
  have reported : e.onLine f.stop.line ∈ (ofSource source).diagnostics :=
    List.mem_filterMap.mpr ⟨f, hf, by rw [Fragment.diagnostic?, error, Option.map_some]⟩
  exact free _ reported rfl

/-- Two texts with a line feed between them are scanned one by one.

Unless the first leaves a string open, the tokens are those of the first, without its end, and then
those of the second, as many lines and bytes further on as the first takes up with the line feed.
The same holds of what is reported. -/
theorem ofSource_append_line (first second : String)
    (closed : ∀ d ∈ (ofSource first).diagnostics, d.message ≠ "Unterminated string") :
    let whole := ofSource (first ++ "\n" ++ second)
    let lines := 1 + first.toList.count '\n'
    whole.tokens = (ofSource first).tokens.dropLast ++
        (ofSource second).tokens.map (·.shift lines (first.utf8ByteSize + 1)) ∧
      whole.diagnostics = (ofSource first).diagnostics ++
        (ofSource second).diagnostics.map (·.shift lines) := by
  intro whole lines
  have text : (first ++ "\n" ++ second).toList = first.toList ++ '\n' :: second.toList := by simp
  have count : (first.toList ++ ['\n']).count '\n' = lines := by
    simp [lines, List.count_append, Nat.add_comm]
  have size : utf8Length (first.toList ++ ['\n']) = first.utf8ByteSize + 1 := by simp; rfl
  have fragments : whole.fragments = (ofSource first).fragments ++
      ⟨Position.after {} first.toList, .blank '\n'⟩ ::
        (ofSource second).fragments.map (·.shift lines (first.utf8ByteSize + 1)) := by
    have tiles := (Fragment.tiles_listFrom {} first.toList).append_line
      (fun f hf => error?_ne_of_message_ne hf closed) (Fragment.tiles_listFrom {} second.toList)
    rw [count, size, ← text] at tiles
    exact tiles.eq_listFrom.symm
  have eof : whole.eof = (ofSource second).eof.shift lines (first.utf8ByteSize + 1) := by
    apply eof_eq_shift
    rw [text, List.append_cons, Position.after_append, Position.after_eq_shift _ (_ ++ _), count,
      size, Position.after_shift]
  constructor
  · rw [tokens, eof, words, fragments, List.filterMap_append, List.filterMap_cons_none rfl,
      Fragment.filterMap_token?_shift, tokens, tokens, List.dropLast_concat, List.map_append,
      List.append_assoc]
    rfl
  · rw [diagnostics, fragments, List.filterMap_append, List.filterMap_cons_none rfl,
      Fragment.filterMap_diagnostic?_shift]
    rfl

theorem ofSource_append_line_slashes :
    (∀ d ∈ (ofSource "1./").diagnostics, d.message ≠ "Unterminated string") ∧
      (ofSource ("1./" ++ "\n" ++ "/\"")).tokens.map (·.lexeme) = ["1", ".", "/", "/", ""] ∧
      (ofSource ("1./" ++ "\n" ++ "/\"")).tokens.map (·.position.line) = [1, 1, 1, 2, 2] ∧
      (ofSource ("1./" ++ "\n" ++ "/\"")).diagnostics = [⟨2, .nowhere, "Unterminated string"⟩] := by
  have closed : ∀ d ∈ (ofSource "1./").diagnostics, d.message ≠ "Unterminated string" := by
    decide +kernel
  obtain ⟨tokens, diagnostics⟩ := ofSource_append_line "1./" "/\"" closed
  refine ⟨closed, ?_, ?_, ?_⟩
  · rw [tokens]
    decide +kernel
  · rw [tokens]
    decide +kernel
  · rw [diagnostics]
    decide +kernel

end Scan

end LoxExpr
