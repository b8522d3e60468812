import LoxExpr.Diagnostic
import LoxExpr.Piece

/-!
Sources divided into pieces, each with the place where it starts; from them the tokens and the
lexical errors.

The pieces of a source, one after the other, are the source (`Fragment.text_listFrom`).
-/

set_option autoImplicit false
set_option relaxedAutoImplicit false

namespace LoxExpr

/-- The ways in which a piece of a source can be wrong. -/
inductive LexicalError where
  | unexpectedCharacter
  | unterminatedString
  deriving DecidableEq

def LexicalError.message : LexicalError → String
  | .unexpectedCharacter => "Unexpected character."
  | .unterminatedString => "Unterminated string"

/-- A lexical error is reported by its line alone. -/
def LexicalError.onLine (e : LexicalError) (line : Nat) : Diagnostic := .onLine line e.message

/-- The error that a piece amounts to. -/
def Piece.error? : Piece → Option LexicalError
  | .rejected _ => some .unexpectedCharacter
  | .unterminated _ => some .unterminatedString
  | _ => none

/-- A piece of a source and the place where it starts. -/
structure Fragment where
  start : Position
  piece : Piece
  deriving DecidableEq

namespace Fragment

def stop (f : Fragment) : Position := f.start.after f.piece.text

/-- The token of a fragment, if it is a lexeme; its place is where the lexeme starts. -/
def token? (f : Fragment) : Option Token :=
  match f.piece with
  | .lexeme l => some (l.tokenAt f.start)
  | _ => none

/-- The diagnostic of a fragment that is an error; its line is the one on which the fragment ends. -/
def diagnostic? (f : Fragment) : Option Diagnostic :=
  f.piece.error?.map fun e => e.onLine f.stop.line

/-- The fragments of a text that starts at `p`, behind those already found, latest first. -/
def collect (found : List Fragment) (p : Position) : List Char → List Fragment
  | [] => found.reverse
  | c :: rest =>
    let piece := (Piece.first c rest).1
    collect (⟨p, piece⟩ :: found) (p.after piece.text) (Piece.first c rest).2
termination_by text => text.length
decreasing_by
  have := Piece.length_first c rest
  simp only [List.length_cons]
  omega

def listFrom (p : Position) (text : List Char) : List Fragment := collect [] p text

private theorem collect_append (found earlier : List Fragment) (p : Position) (text : List Char) :
    collect (found ++ earlier) p text = earlier.reverse ++ collect found p text := by
  fun_induction collect found p text with
  | case1 => simp [collect]
  | case2 found p c rest piece ih => rw [collect]; exact ih

@[simp] theorem listFrom_nil (p : Position) : listFrom p [] = [] := by
  simp [listFrom, collect]

/-- The fragments of a text are its first piece and the fragments of what follows. -/
theorem listFrom_cons (p : Position) (c : Char) (rest : List Char) :
    listFrom p (c :: rest) = ⟨p, (Piece.first c rest).1⟩ ::
      listFrom (p.after (Piece.first c rest).1.text) (Piece.first c rest).2 := by
  rw [listFrom, collect]
  exact collect_append [] [⟨p, _⟩] _ _

theorem text_listFrom (p : Position) (text : List Char) :
    (listFrom p text).flatMap (fun f => f.piece.text) = text := by
  match text with
  | [] => simp
  | c :: rest =>
    rw [listFrom_cons, List.flatMap_cons, text_listFrom, Piece.text_first]
termination_by text.length
decreasing_by
  have := Piece.length_first c rest
  simp only [List.length_cons]
  omega

end Fragment

structure Scan where
  fragments : List Fragment
  stop : Position

namespace Scan

def ofSource (source : String) : Scan where
  fragments := Fragment.listFrom {} source.toList
  stop := Position.after {} source.toList

/-- The tokens of a source without the token of its end. -/
def words (s : Scan) : List Token := s.fragments.filterMap Fragment.token?

def eof (s : Scan) : Token := .eof s.stop

def tokens (s : Scan) : List Token := s.words ++ [s.eof]

def diagnostics (s : Scan) : List Diagnostic := s.fragments.filterMap Fragment.diagnostic?

end Scan

end LoxExpr
