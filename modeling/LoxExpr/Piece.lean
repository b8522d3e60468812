import LoxExpr.Lexeme

/-!
The pieces of a source: lexemes, blanks, comments, characters that start no lexeme, and a string
without an end.

Every text starts with exactly one piece, which `Piece.first` reads; the piece and what follows it
make up the text again (`Piece.text_first`).
-/

set_option autoImplicit false
set_option relaxedAutoImplicit false

namespace LoxExpr

inductive Piece where
  | lexeme (l : Lexeme)
  /-- A space, a tabulator or a line break. -/
  | blank (c : Char)
  /-- A comment, without the two slashes in front. -/
  | comment (body : List Char)
  /-- A character that no piece of another kind starts with. -/
  | rejected (c : Char)
  /-- A string that does not end, without the quote in front. -/
  | unterminated (body : List Char)
  deriving DecidableEq

namespace Piece

/-- A word starts with an ASCII letter or an underscore. -/
def isWordStart (c : Char) : Bool := c.isAlpha || c == '_'

/-- A word goes on with ASCII letters, digits and underscores. -/
def isWordPart (c : Char) : Bool := c.isAlphanum || c == '_'

def text : Piece → List Char
  | lexeme l => l.text
  | blank c => [c]
  | comment body => '/' :: '/' :: body
  | rejected c => [c]
  | unterminated body => '"' :: body

/-- The piece that an opening quote starts: a string up to the next quote. -/
def firstString (rest : List Char) : Piece × List Char :=
  match rest.dropWhile (· != '"') with
  | [] => (unterminated rest, [])
  | _ :: after => (lexeme (.string (rest.takeWhile (· != '"'))), after)

/-- The piece that digits start: a point belongs to the number only before a further digit. -/
def firstNumber (digits rest : List Char) : Piece × List Char :=
  match rest with
  | '.' :: d :: after =>
    if d.isDigit then
      (lexeme (.number digits (d :: after.takeWhile Char.isDigit)), after.dropWhile Char.isDigit)
    else
      (lexeme (.number digits []), rest)
  | _ => (lexeme (.number digits []), rest)

/-- The piece that a symbol of one character starts: a comment from a second slash to the end of
the line, a symbol of two characters with an equals sign, or the symbol itself. -/
def firstSymbol (s : Symbol) (rest : List Char) : Piece × List Char :=
  match s, rest with
  | .slash, '/' :: after => (comment (after.takeWhile (· != '\n')), after.dropWhile (· != '\n'))
  | s, '=' :: after =>
    match s.withEqual? with
    | some t => (lexeme (.symbol t), after)
    | none => (lexeme (.symbol s), rest)
  | s, _ => (lexeme (.symbol s), rest)

/-- The first piece of a text that starts with `c`, and the text behind it. -/
def first (c : Char) (rest : List Char) : Piece × List Char :=
  if c.isWhitespace then
    (blank c, rest)
  else if c = '"' then
    firstString rest
  else if c.isDigit then
    firstNumber (c :: rest.takeWhile Char.isDigit) (rest.dropWhile Char.isDigit)
  else if isWordStart c then
    (lexeme (.word (c :: rest.takeWhile isWordPart)), rest.dropWhile isWordPart)
  else
    match Symbol.ofChar? c with
    | some s => firstSymbol s rest
    | none => (rejected c, rest)

private theorem text_firstString (rest : List Char) :
    (firstString rest).1.text ++ (firstString rest).2 = '"' :: rest := by
  unfold firstString
  split
  · simp [text]
  · rename_i c after h
    have hc : c = '"' := by
      have := List.head_dropWhile_not (p := (· != '"')) (l := rest) (by simp [h])
      simpa [h] using this
    have split := List.takeWhile_append_dropWhile (p := (· != '"')) (l := rest)
    rw [h, hc] at split
    simp [text, Lexeme.text, split]

private theorem text_firstNumber (digits rest : List Char) :
    (firstNumber digits rest).1.text ++ (firstNumber digits rest).2 = digits ++ rest := by
  unfold firstNumber
  split
  · split <;> simp [text, Lexeme.text]
  · simp [text, Lexeme.text]

theorem text_withEqual {s t : Symbol} (h : s.withEqual? = some t) :
    t.text = s.text ++ ['='] := by
  cases s <;> simp_all [Symbol.withEqual?] <;> subst h <;> rfl

private theorem text_firstSymbol (s : Symbol) (rest : List Char) :
    (firstSymbol s rest).1.text ++ (firstSymbol s rest).2 = s.text ++ rest := by
  unfold firstSymbol
  split
  · simp [text, Symbol.text]
  · split
    · rename_i h
      simp [text, Lexeme.text, text_withEqual h]
    · simp [text, Lexeme.text]
  · simp [text, Lexeme.text]

theorem text_ofChar {c : Char} {s : Symbol} (h : Symbol.ofChar? c = some s) : s.text = [c] := by
  simpa using List.find?_some h

/-- A text is its first piece and what follows. -/
theorem text_first (c : Char) (rest : List Char) :
    (first c rest).1.text ++ (first c rest).2 = c :: rest := by
  unfold first
  split
  · simp [text]
  split
  · rename_i h
    rw [text_firstString, h]
  split
  · simp [text_firstNumber]
  split
  · simp [text, Lexeme.text]
  split
  · rename_i h
    rw [text_firstSymbol, text_ofChar h]
    rfl
  · simp [text]

private theorem text_firstNumber_ne_nil (digits rest : List Char) (h : digits ≠ []) :
    (firstNumber digits rest).1.text ≠ [] := by
  unfold firstNumber
  split
  · split <;> simp [text, Lexeme.text, h]
  · simp [text, Lexeme.text, h]

private theorem symbol_text_ne_nil (s : Symbol) : s.text ≠ [] := by
  cases s <;> simp [Symbol.text]

private theorem text_firstSymbol_ne_nil (s : Symbol) (rest : List Char) :
    (firstSymbol s rest).1.text ≠ [] := by
  unfold firstSymbol
  split
  · simp [text]
  · split <;> simp [text, Lexeme.text, symbol_text_ne_nil]
  · simp [text, Lexeme.text, symbol_text_ne_nil]

theorem text_first_ne_nil (c : Char) (rest : List Char) : (first c rest).1.text ≠ [] := by
  unfold first
  split
  · simp [text]
  split
  · unfold firstString
    split <;> simp [text, Lexeme.text]
  split
  · exact text_firstNumber_ne_nil _ _ (by simp)
  split
  · simp [text, Lexeme.text]
  split
  · exact text_firstSymbol_ne_nil _ _
  · simp [text]

theorem length_first (c : Char) (rest : List Char) : (first c rest).2.length ≤ rest.length := by
  have total := congrArg List.length (text_first c rest)
  have taken := List.length_pos_iff.mpr (text_first_ne_nil c rest)
  simp only [List.length_append, List.length_cons] at total
  omega

end Piece

end LoxExpr
