import LoxExpr.Parser.Report
import LoxExpr.Proofs.WrittenOut

/-!
Spaces in the place of the characters that start no lexeme.

Such a character ends what is in front of it just as a space does, so a text is cut into the same
pieces when spaces of the same size take its place, but that these pieces are no errors
(`Fragment.Tiles.exists_tiles_blankOut`).
-/

set_option autoImplicit false
set_option relaxedAutoImplicit false

namespace LoxExpr

namespace Piece

/-- The text of a piece, or as many spaces as it has bytes if it is an unexpected character. -/
def blanked (piece : Piece) : List Char :=
  if piece.error? = some .unexpectedCharacter then
    List.replicate (utf8Length piece.text) ' '
  else
    piece.text

theorem blanked_rejected (c : Char) : (rejected c).blanked = List.replicate c.utf8Size ' ' := by
  simp [blanked, error?, text]

theorem blanked_of_error?_ne {piece : Piece}
    (other : piece.error? ≠ some .unexpectedCharacter) : piece.blanked = piece.text :=
  if_neg other

theorem exists_rejected {piece : Piece} (error : piece.error? = some .unexpectedCharacter) :
    ∃ c, piece = rejected c := by
  cases piece with
  | rejected c => exact ⟨c, rfl⟩
  | _ => cases error

theorem ne_newline_of_rejected {c : Char} {after : List Char} (fits : (rejected c).Fits after) :
    c ≠ '\n' := by
  rintro rfl
  exact fits.1 (by decide)

end Piece

theorem Position.after_spaces (p : Position) {text : List Char} (oneLine : '\n' ∉ text) :
    p.after (List.replicate (utf8Length text) ' ') = p.after text := by
  have size : ∀ n, utf8Length (List.replicate n ' ') = n := by
    intro n
    induction n with
    | zero => rfl
    | succ n ih =>
      rw [List.replicate_succ, utf8Length_cons, ih, Nat.add_comm]
      rfl
  have feeds : '\n' ∉ List.replicate (utf8Length text) ' ' := by simp [List.mem_replicate]
  rw [after_eq_shift, after_eq_shift, size, List.count_eq_zero.mpr feeds,
    List.count_eq_zero.mpr oneLine]

namespace Fragment

variable {p : Position} {text : List Char} {fs : List Fragment} {piece : Piece}

def blankOut (fs : List Fragment) : List Char := fs.flatMap (·.piece.blanked)

theorem blankOut_cons (f : Fragment) (fs : List Fragment) :
    blankOut (f :: fs) = f.piece.blanked ++ blankOut fs :=
  List.flatMap_cons ..

theorem Tiles.blankOut_eq_or (tiles : Tiles p text fs) :
    blankOut fs = text ∨ ∃ u c v more, text = u ++ c :: v ∧ c ≠ '\n' ∧
      blankOut fs = u ++ ' ' :: more := by
  induction tiles with
  | nil => exact .inl rfl
  | @cons p piece rest fs fits _ ih =>
    rw [blankOut_cons]
    by_cases unexpected : piece.error? = some .unexpectedCharacter
    · obtain ⟨c, rfl⟩ := Piece.exists_rejected unexpected
      obtain ⟨n, size⟩ := Nat.exists_eq_add_one_of_ne_zero (Nat.ne_of_gt c.utf8Size_pos)
      refine .inr ⟨[], c, rest, List.replicate n ' ' ++ blankOut fs, rfl,
        Piece.ne_newline_of_rejected fits, ?_⟩
      rw [Piece.blanked_rejected, size, List.replicate_succ]
      rfl
    · rw [Piece.blanked_of_error?_ne unexpected]
      rcases ih with same | ⟨u, c, v, more, rfl, other, changed⟩
      · exact .inl (by rw [same])
      · exact .inr ⟨piece.text ++ u, c, v, more, (List.append_assoc ..).symm, other,
          by rw [changed, List.append_assoc]⟩

theorem Tiles.fits_blankOut (tiles : Tiles p text fs) (fits : piece.Fits text) :
    piece.Fits (blankOut fs) := by
  rcases tiles.blankOut_eq_or with same | ⟨u, c, v, more, rfl, other, changed⟩
  · rwa [same]
  · rw [changed]
    refine fits.before_blank (.head _) ?_
    rintro rfl
    exact fits.stopsAt other ' '

theorem after_blanked (p : Position) {after : List Char} (fits : piece.Fits after) :
    p.after piece.blanked = p.after piece.text := by
  by_cases unexpected : piece.error? = some .unexpectedCharacter
  · obtain ⟨c, rfl⟩ := Piece.exists_rejected unexpected
    have oneLine : '\n' ∉ (Piece.rejected c).text := by
      simpa [Piece.text] using (Piece.ne_newline_of_rejected fits).symm
    rw [Piece.blanked, if_pos unexpected, p.after_spaces oneLine]
  · rw [Piece.blanked_of_error?_ne unexpected]

theorem Tiles.after_blankOut (tiles : Tiles p text fs) : p.after (blankOut fs) = p.after text := by
  induction tiles with
  | nil => rfl
  | cons fits _ ih =>
    rw [blankOut_cons, Position.after_append, after_blanked _ fits, ih, Position.after_append]

theorem Tiles.exists_tiles_blankOut (tiles : Tiles p text fs) :
    ∃ gs, Tiles p (blankOut fs) gs ∧ gs.filterMap token? = fs.filterMap token? ∧
      gs.filterMap diagnostic? = (fs.filterMap diagnostic?).filter
        (·.message ≠ LexicalError.unexpectedCharacter.message) := by
  induction tiles with
  | nil => exact ⟨[], .nil, rfl, rfl⟩
  | @cons p piece rest fs fits tail ih =>
    obtain ⟨gs, behind, words, errors⟩ := ih
    rw [blankOut_cons]
    by_cases unexpected : piece.error? = some .unexpectedCharacter
    · -- the spaces end where the character did, and they are neither a token nor an error
      rw [← after_blanked p fits] at behind
      obtain ⟨c, rfl⟩ := Piece.exists_rejected unexpected
      have spaces : ∀ d ∈ (Piece.rejected c).blanked, IsBlank d := by
        intro d hd
        rw [Piece.blanked_rejected] at hd
        obtain rfl := List.eq_of_mem_replicate hd
        exact .head _
      obtain ⟨ws, whole, layout⟩ := behind.prepend_layout (.of_blanks spaces)
      obtain ⟨words', errors'⟩ := filterMap_append_of_isLayout layout gs
      refine ⟨ws ++ gs, whole, ?_, ?_⟩
      · rw [words', words, List.filterMap_cons_none rfl]
      · rw [errors', errors]
        simp [diagnostic?, Piece.error?, LexicalError.onLine, Diagnostic.onLine]
    · rw [Piece.blanked_of_error?_ne unexpected]
      refine ⟨⟨p, piece⟩ :: gs, .cons (tail.fits_blankOut fits) behind, ?_, ?_⟩
      · rw [List.filterMap_cons, words, List.filterMap_cons]
      · cases error : piece.error? with
        | none => simp [diagnostic?, error, errors]
        | some e =>
          have stays : e.message ≠ LexicalError.unexpectedCharacter.message := by
            rw [error] at unexpected
            cases e
            · exact absurd rfl unexpected
            · decide
          simp [diagnostic?, error, errors, LexicalError.onLine, Diagnostic.onLine, stays]

end Fragment

namespace Scan

def blankOut (source : String) : String :=
  String.ofList (Fragment.blankOut (ofSource source).fragments)

/-- An unexpected character is as good as blank space.

A source in which spaces of the same size take the place of all unexpected characters has the same
tokens, each with the same text, value and place. What is reported of it is the same but for these
characters, and reading its tokens comes to the same tree or the same error. -/
theorem ofSource_blankOut (source : String) :
    (ofSource (blankOut source)).tokens = (ofSource source).tokens ∧
      (ofSource (blankOut source)).diagnostics = (ofSource source).diagnostics.filter
        (·.message ≠ LexicalError.unexpectedCharacter.message) ∧
      (Parser.ofScan (ofSource (blankOut source))).parse =
        (Parser.ofScan (ofSource source)).parse := by
  have tiles := Fragment.tiles_listFrom {} source.toList
  obtain ⟨gs, blanked, sameWords, fewerErrors⟩ := tiles.exists_tiles_blankOut
  have text : (blankOut source).toList = Fragment.blankOut (ofSource source).fragments :=
    String.toList_ofList
  have fragments : (ofSource (blankOut source)).fragments = gs := by
    rw [ofSource, text]
    exact blanked.eq_listFrom.symm
  have words : (ofSource (blankOut source)).words = (ofSource source).words := by
    rw [Scan.words, fragments, sameWords]
    rfl
  have eof : (ofSource (blankOut source)).eof = (ofSource source).eof := by
    show Token.eof (Position.after {} (blankOut source).toList) = _
    rw [text]
    exact congrArg Token.eof tiles.after_blankOut
  refine ⟨?_, ?_, ?_⟩
  · rw [tokens, words, eof, tokens]
  · rw [diagnostics, fragments, fewerErrors]
    rfl
  · rw [Parser.ofScan, words, eof, Parser.ofScan]

/-- The characters end a number behind its point and come between two slashes, and one of them has
two bytes. -/
example : blankOut "1.§/#/" = "1.  / /" := by decide +kernel

end Scan

end LoxExpr
