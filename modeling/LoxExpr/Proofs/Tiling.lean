import LoxExpr.Scan
import LoxExpr.Proofs.FirstPiece

/-!
The fragments of a source lie side by side.

`Fragment.Tiles` is what holds of a text and its fragments all along the scan: each starts where the
one before it stops, and each fits before the text that follows it. Everything that is said about
single fragments comes from there (`Fragment.Tiles.exists_split_of_mem`).
-/

set_option autoImplicit false
set_option relaxedAutoImplicit false

namespace LoxExpr.Fragment

/-- The fragments of a text that starts at a place cover it from there to its end, and each piece
fits before the next one. -/
inductive Tiles : Position → List Char → List Fragment → Prop
  | nil {p : Position} : Tiles p [] []
  | cons {p : Position} {piece : Piece} {rest : List Char} {fragments : List Fragment} :
      piece.Fits rest → Tiles (p.after piece.text) rest fragments →
      Tiles p (piece.text ++ rest) (⟨p, piece⟩ :: fragments)

theorem tiles_listFrom (p : Position) (text : List Char) : Tiles p text (listFrom p text) := by
  match text with
  | [] =>
    rw [listFrom_nil]
    exact .nil
  | c :: rest =>
    have whole := Piece.text_first c rest
    have tail := tiles_listFrom (p.after (Piece.first c rest).1.text) (Piece.first c rest).2
    rw [listFrom_cons]
    rw [← whole]
    exact .cons (Piece.fits_first c rest) tail
termination_by text.length
decreasing_by
  have := Piece.length_first c rest
  simp only [List.length_cons]
  omega

theorem Tiles.exists_split_of_mem {p : Position} {text : List Char} {fragments : List Fragment}
    (tiles : Tiles p text fragments) {f : Fragment} (hf : f ∈ fragments) :
    ∃ before after, text = before ++ f.piece.text ++ after ∧ f.start = p.after before ∧
      f.piece.Fits after := by
  induction tiles with
  | nil => contradiction
  | @cons p piece rest fragments fits _ ih =>
    rcases List.mem_cons.mp hf with rfl | hf
    · exact ⟨[], rest, rfl, rfl, fits⟩
    · obtain ⟨before, after, cut, start, fits⟩ := ih hf
      refine ⟨piece.text ++ before, after, ?_, ?_, fits⟩
      · rw [cut]
        simp only [List.append_assoc]
      · rw [start, Position.after_append]

theorem position_of_token? {f : Fragment} {t : Token} (h : f.token? = some t) :
    t.position = f.start := by
  obtain ⟨start, piece⟩ := f
  cases piece with
  | lexeme l =>
    obtain rfl := Option.some.inj h
    rfl
  | _ => cases h

end LoxExpr.Fragment
