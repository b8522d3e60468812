import LoxExpr.Proofs.Spelling

/-!
The first piece of a text is well formed and ends where it has to.

`Piece.Fits` says this of a piece and the text behind it, and `Piece.fits_first` proves it of what
`Piece.first` reads. A lexeme that fits is spelled as its kind asks (`Piece.spelling_of_fits`).
-/

set_option autoImplicit false
set_option relaxedAutoImplicit false

namespace LoxExpr

namespace Piece

def starters : List Char :=
  [' ', '\t', '\r', '\n', '(', ')', '{', '}', ',', '.', '-', '+', ';', '/', '*', '!', '=', '>', '<',
    '"', '_']

/-- A piece is well formed, and the text behind it does not go on with it. -/
def Fits : Piece → List Char → Prop
  | lexeme (.symbol s), after =>
    (s = .slash → after.head? ≠ some '/') ∧
      (s ∈ [.bang, .equal, .greater, .less] → after.head? ≠ some '=')
  | lexeme (.string inner), _ => '"' ∉ inner
  | lexeme (.number whole []), after =>
    Digits whole ∧ (∀ c ∈ after.head?, c.isDigit = false) ∧
      ∀ d more, after = '.' :: d :: more → d.isDigit = false
  | lexeme (.number whole fraction), after =>
    Digits whole ∧ Digits fraction ∧ ∀ c ∈ after.head?, c.isDigit = false
  | lexeme (.word letters), after => Word letters ∧ ∀ c ∈ after.head?, isWordPart c = false
  | blank c, _ => c ∈ [' ', '\t', '\r', '\n']
  | comment body, after => '\n' ∉ body ∧ ∀ c ∈ after.head?, c = '\n'
  | rejected c, _ =>
    c ∉ starters ∧ c.isDigit = false ∧ c.isAlpha = false
  | unterminated body, after => '"' ∉ body ∧ after = []

theorem spelling_of_fits {l : Lexeme} {after : List Char} (fits : (lexeme l).Fits after) :
    l.kind.Spelling l.text := by
  cases l with
  | symbol s => exact .symbol (mem_symbolSpellings_iff.mpr rfl)
  | string inner => exact .string fits
  | number whole fraction =>
    cases fraction with
    | nil => exact .integer fits.1
    | cons f fraction => exact .decimal fits.1 fits.2.1
  | word letters =>
    cases hk : Keyword.ofText? (String.ofList letters) with
    | some k =>
      simp only [Lexeme.kind, hk]
      exact .keyword fits.1 (mem_keywordSpellings_iff.mpr (Keyword.ofText?_eq_some_iff.mp hk))
    | none =>
      simp only [Lexeme.kind, hk]
      refine .identifier fits.1 ?_
      intro k h
      have found : Keyword.ofText? (String.ofList letters) = some k :=
        Keyword.ofText?_eq_some_iff.mpr (mem_keywordSpellings_iff.mp h)
      rw [hk] at found
      contradiction

private theorem head?_dropWhile_false {p : Char → Bool} {text : List Char} :
    ∀ c ∈ (text.dropWhile p).head?, p c = false := by
  intro c hc
  have := List.head?_dropWhile_not p text
  rw [hc] at this
  simpa using this

private theorem not_mem_takeWhile_ne (a : Char) (text : List Char) :
    a ∉ text.takeWhile (· != a) := by
  intro h
  simpa using (List.all_eq_true.mp List.all_takeWhile) a h

private theorem fits_firstString (rest : List Char) :
    (firstString rest).1.Fits (firstString rest).2 := by
  unfold firstString
  split
  · rename_i none
    have all : rest.takeWhile (· != '"') = rest := by
      simpa [none] using List.takeWhile_append_dropWhile (p := (· != '"')) (l := rest)
    exact ⟨all ▸ not_mem_takeWhile_ne '"' rest, rfl⟩
  · exact not_mem_takeWhile_ne '"' rest

private theorem digits_takeWhile_isDigit {text : List Char} :
    ∀ c ∈ text.takeWhile Char.isDigit, c.isDigit = true :=
  List.all_eq_true.mp List.all_takeWhile

private theorem fits_firstNumber {digits rest : List Char} (hd : Digits digits)
    (stop : ∀ c ∈ rest.head?, c.isDigit = false) :
    (firstNumber digits rest).1.Fits (firstNumber digits rest).2 := by
  unfold firstNumber
  split
  · rename_i d after
    split
    · rename_i digit
      refine ⟨hd, ⟨by simp, ?_⟩, head?_dropWhile_false⟩
      intro c hc
      rcases List.mem_cons.mp hc with rfl | hc
      · exact digit
      · exact digits_takeWhile_isDigit c hc
    · rename_i other
      refine ⟨hd, stop, ?_⟩
      intro d' more same
      simp_all
  · rename_i noPoint
    refine ⟨hd, stop, ?_⟩
    intro d more same
    exact absurd same (noPoint d more)

private theorem not_fused_of_withEqual? {s t : Symbol} (h : s.withEqual? = some t) :
    t ≠ .slash ∧ t ∉ [.bang, .equal, .greater, .less] := by
  cases s <;> simp [Symbol.withEqual?] at h <;> subst h <;> simp

theorem not_mem_of_withEqual? {s : Symbol} (h : s.withEqual? = none) :
    s ∉ [.bang, .equal, .greater, .less] := by
  cases s <;> simp [Symbol.withEqual?] at h ⊢

private theorem fits_firstSymbol (s : Symbol) (rest : List Char) :
    (firstSymbol s rest).1.Fits (firstSymbol s rest).2 := by
  unfold firstSymbol
  split
  · rename_i after
    refine ⟨not_mem_takeWhile_ne '\n' after, ?_⟩
    intro c hc
    simpa using head?_dropWhile_false c hc
  · rename_i after _
    split
    · rename_i t ht
      obtain ⟨slash, fused⟩ := not_fused_of_withEqual? ht
      exact ⟨fun h => absurd h slash, fun h => absurd h fused⟩
    · rename_i none
      exact ⟨fun _ => by simp, fun h => absurd h (not_mem_of_withEqual? none)⟩
  · rename_i noEqual noSlash
    constructor
    · intro slash h
      obtain ⟨after, rfl⟩ := List.head?_eq_some_iff.mp h
      exact noSlash after slash rfl
    · intro _ h
      obtain ⟨after, rfl⟩ := List.head?_eq_some_iff.mp h
      exact noEqual after rfl

private theorem mem_blanks_of_isWhitespace {c : Char} (h : c.isWhitespace = true) :
    c ∈ [' ', '\t', '\r', '\n'] := by
  simpa [Char.isWhitespace, or_assoc] using h

private theorem starters_dispatched : (starters.all fun c =>
    c.isWhitespace || c == '"' || isWordStart c || (Symbol.ofChar? c).isSome) = true := by
  decide

private theorem fits_rejected {c : Char} (blank : ¬ c.isWhitespace = true) (quote : c ≠ '"')
    (digit : ¬ c.isDigit = true) (start : ¬ isWordStart c = true) (none : Symbol.ofChar? c = none)
    (rest : List Char) : (rejected c).Fits rest := by
  refine ⟨?_, by simpa using digit, by simp_all [isWordStart]⟩
  intro h
  have dispatched := List.all_eq_true.mp starters_dispatched c h
  simp [blank, quote, start, none] at dispatched

theorem fits_first (c : Char) (rest : List Char) : (first c rest).1.Fits (first c rest).2 := by
  unfold first
  split
  · rename_i blank
    exact mem_blanks_of_isWhitespace blank
  rename_i blank
  split
  · exact fits_firstString rest
  rename_i quote
  split
  · rename_i digit
    refine fits_firstNumber ⟨by simp, ?_⟩ head?_dropWhile_false
    intro d hd
    rcases List.mem_cons.mp hd with rfl | hd
    · exact digit
    · exact digits_takeWhile_isDigit d hd
  rename_i digit
  split
  · rename_i start
    refine ⟨⟨c, _, rfl, by simpa [isWordStart] using start, ?_⟩, head?_dropWhile_false⟩
    intro d hd
    have part := (List.all_eq_true.mp List.all_takeWhile) d hd
    simpa [isWordPart] using part
  rename_i start
  split
  · rename_i s _
    exact fits_firstSymbol s rest
  · rename_i none
    exact fits_rejected blank quote digit start none rest

end Piece

end LoxExpr
