import LoxExpr.Proofs.Tiling

/-!
A text has one tiling only.

A piece that fits before a text is the first piece of the two together (`Piece.first_of_fits`), so
whatever tiles a text is what scanning it finds (`Fragment.Tiles.eq_listFrom`). A statement on the
scan of a text can then be proved by laying the text out.
-/

set_option autoImplicit false
set_option relaxedAutoImplicit false

namespace LoxExpr

namespace Piece

variable {c : Char} {piece : Piece} {rest : List Char}

theorem span_append {p : Char → Bool} {u v : List Char} (hu : ∀ c ∈ u, p c = true)
    (hv : ∀ c ∈ v.head?, p c = false) :
    (u ++ v).takeWhile p = u ∧ (u ++ v).dropWhile p = v := by
  rw [List.takeWhile_append_of_pos hu, List.dropWhile_append_of_pos hu]
  cases v with
  | nil => simp
  | cons c v => simp [hv c rfl]

private theorem first_of_ofChar? {s : Symbol} (h : Symbol.ofChar? c = some s) (rest : List Char) :
    first c rest = firstSymbol s rest := by
  have table : ∀ e ∈ symbolSpellings, e.1.head?.all (fun d =>
      !(d.isWhitespace || d == '"' || d.isDigit || isWordStart d)) = true := by
    decide
  have other : s.text.head?.all _ = true := table (s.text, s) (mem_symbolSpellings_iff.mpr rfl)
  rw [text_ofChar h, List.head?_cons, Option.all_some] at other
  obtain ⟨⟨⟨blank, quote⟩, digit⟩, start⟩ :
      ((c.isWhitespace = false ∧ c ≠ '"') ∧ c.isDigit = false) ∧ isWordStart c = false := by
    simpa using other
  simp [first, blank, quote, digit, start, h]

private theorem symbol_cases (t : Symbol) :
    (∃ c, t.text = [c] ∧ Symbol.ofChar? c = some t) ∨
      ∃ c s, t.text = [c, '='] ∧ Symbol.ofChar? c = some s ∧ s.withEqual? = some t := by
  cases t
  case bangEqual => exact .inr ⟨'!', .bang, rfl, rfl, rfl⟩
  case equalEqual => exact .inr ⟨'=', .equal, rfl, rfl, rfl⟩
  case greaterEqual => exact .inr ⟨'>', .greater, rfl, rfl, rfl⟩
  case lessEqual => exact .inr ⟨'<', .less, rfl, rfl, rfl⟩
  all_goals exact .inl ⟨_, rfl, rfl⟩

theorem firstSymbol_alone {s : Symbol} (slash : s = .slash → rest.head? ≠ some '/')
    (fused : s ∈ [.bang, .equal, .greater, .less] → rest.head? ≠ some '=') :
    firstSymbol s rest = (lexeme (.symbol s), rest) := by
  unfold firstSymbol
  split
  · exact absurd rfl (slash rfl)
  · split
    · rename_i ht
      have mem : s ∈ [.bang, .equal, .greater, .less] := by
        cases s <;> simp [Symbol.withEqual?] at ht ⊢
      exact absurd rfl (fused mem)
    · rfl
  · rfl

theorem firstSymbol_withEqual {s t : Symbol} (h : s.withEqual? = some t) :
    firstSymbol s ('=' :: rest) = (lexeme (.symbol t), rest) := by
  unfold firstSymbol
  split
  · rename_i same
    cases (List.cons.inj same).1
  · rename_i same
    obtain ⟨-, rfl⟩ := List.cons.inj same
    rw [h]
  · rename_i other _
    exact absurd rfl (other rest)

private theorem first_symbol {s : Symbol} (fits : (lexeme (.symbol s)).Fits rest) :
    ∃ c tail, s.text ++ rest = c :: tail ∧ first c tail = (lexeme (.symbol s), rest) := by
  rcases symbol_cases s with ⟨c, text, hc⟩ | ⟨c, s', text, hc, he⟩
  · refine ⟨c, rest, by rw [text]; rfl, ?_⟩
    rw [first_of_ofChar? hc]
    exact firstSymbol_alone fits.1 fits.2
  · refine ⟨c, '=' :: rest, by rw [text]; rfl, ?_⟩
    rw [first_of_ofChar? hc]
    exact firstSymbol_withEqual he

private theorem ne_of_not_mem {a : Char} {u : List Char} (free : a ∉ u) :
    ∀ c ∈ u, (c != a) = true := by
  intro c hc
  have other : c ≠ a := by
    rintro rfl
    exact free hc
  simpa using other

private theorem firstString_closed {inner : List Char} (free : '"' ∉ inner) :
    firstString (inner ++ '"' :: rest) = (lexeme (.string inner), rest) := by
  have run := span_append (v := '"' :: rest) (ne_of_not_mem free) (by simp)
  simp [firstString, run]

private theorem firstString_open {body : List Char} (free : '"' ∉ body) :
    firstString body = (unterminated body, []) := by
  have run := span_append (v := []) (ne_of_not_mem free) (by simp)
  rw [List.append_nil] at run
  simp [firstString, run]

private theorem isWhitespace_eq_false (h : c ∉ [' ', '\t', '\r', '\n']) :
    c.isWhitespace = false := by
  simp only [List.mem_cons, List.not_mem_nil, or_false, not_or] at h
  simp [Char.isWhitespace, h]

private theorem not_blank_of_start (h : c.isDigit = true ∨ isWordStart c = true) :
    c.isWhitespace = false ∧ c ≠ '"' := by
  have table : (['"', ' ', '\t', '\r', '\n'].all fun d =>
      !(d.isDigit || isWordStart d)) = true := by
    decide
  have other : c ∉ ['"', ' ', '\t', '\r', '\n'] := by
    intro listed
    have neither := List.all_eq_true.mp table c listed
    rcases h with digit | start
    · simp [digit] at neither
    · simp [start] at neither
  rw [List.mem_cons, not_or] at other
  obtain ⟨quote, blank⟩ := other
  exact ⟨isWhitespace_eq_false blank, quote⟩

theorem first_of_isDigit (digit : c.isDigit = true) (tail : List Char) :
    first c tail =
      firstNumber (c :: tail.takeWhile Char.isDigit) (tail.dropWhile Char.isDigit) := by
  obtain ⟨blank, quote⟩ := not_blank_of_start (.inl digit)
  simp [first, blank, quote, digit]

private theorem first_digits {whole after : List Char} (hw : Digits whole)
    (stop : ∀ c ∈ after.head?, c.isDigit = false) :
    ∃ c tail, whole ++ after = c :: tail ∧ first c tail = firstNumber whole after := by
  obtain ⟨c, more, rfl⟩ := List.exists_cons_of_ne_nil hw.1
  have run := span_append (u := more) (fun d hd => hw.2 d (List.mem_cons_of_mem c hd)) stop
  refine ⟨c, more ++ after, rfl, ?_⟩
  rw [first_of_isDigit (hw.2 c List.mem_cons_self), run.1, run.2]

private theorem firstNumber_integer {whole : List Char}
    (point : ∀ d more, rest = '.' :: d :: more → d.isDigit = false) :
    firstNumber whole rest = (lexeme (.number whole []), rest) := by
  unfold firstNumber
  split
  · simp [point _ _ rfl]
  · rfl

private theorem firstNumber_decimal {whole fraction : List Char} (hf : Digits fraction)
    (stop : ∀ c ∈ rest.head?, c.isDigit = false) :
    firstNumber whole ('.' :: (fraction ++ rest)) = (lexeme (.number whole fraction), rest) := by
  obtain ⟨d, more, rfl⟩ := List.exists_cons_of_ne_nil hf.1
  have run := span_append (u := more) (fun d' hd => hf.2 d' (List.mem_cons_of_mem d hd)) stop
  simp [firstNumber, hf.2 d List.mem_cons_self, run]

private theorem first_word {letters : List Char} (hw : Word letters)
    (stop : ∀ c ∈ rest.head?, isWordPart c = false) :
    ∃ c tail, letters ++ rest = c :: tail ∧ first c tail = (lexeme (.word letters), rest) := by
  obtain ⟨c, more, rfl, start, parts⟩ := hw
  have run := span_append (p := isWordPart) (u := more)
    (fun d hd => by simpa [isWordPart] using parts d hd) stop
  have letter : isWordStart c = true := by simpa [isWordStart] using start
  obtain ⟨blank, quote⟩ := not_blank_of_start (.inr letter)
  have digit : c.isDigit = false := by
    cases digit : c.isDigit with
    | false => rfl
    | true =>
      rcases start with start | rfl
      · simp [isAlpha_of_isDigit digit] at start
      · contradiction
  refine ⟨c, more ++ rest, rfl, ?_⟩
  simp [first, blank, quote, digit, letter, run]

private theorem first_blank (blank : c ∈ [' ', '\t', '\r', '\n']) (rest : List Char) :
    first c rest = (Piece.blank c, rest) := by
  have whitespace : c.isWhitespace = true := by
    simpa [Char.isWhitespace, or_assoc] using blank
  simp [first, whitespace]

private theorem first_comment {body : List Char} (free : '\n' ∉ body)
    (stop : ∀ c ∈ rest.head?, c = '\n') :
    first '/' ('/' :: (body ++ rest)) = (comment body, rest) := by
  have run := span_append (ne_of_not_mem free) (by simpa using stop)
  have slash : Symbol.ofChar? '/' = some .slash := rfl
  rw [first_of_ofChar? slash]
  simp [firstSymbol, run]

private theorem first_rejected (other : c ∉ starters) (digit : c.isDigit = false)
    (alpha : c.isAlpha = false) (rest : List Char) : first c rest = (rejected c, rest) := by
  have blank : c.isWhitespace = false := by
    apply isWhitespace_eq_false
    intro blank
    have listed : ([' ', '\t', '\r', '\n'].all (· ∈ starters)) = true := by decide
    exact other (of_decide_eq_true (List.all_eq_true.mp listed c blank))
  have quote : c ≠ '"' := by
    rintro rfl
    exact other (by decide)
  have start : isWordStart c = false := by
    have underscore : c ≠ '_' := by
      rintro rfl
      exact other (by decide)
    simp [isWordStart, alpha, underscore]
  have none : Symbol.ofChar? c = none := by
    have table : ∀ e ∈ symbolSpellings, (e.1.all (· ∈ starters)) = true := by decide
    cases h : Symbol.ofChar? c with
    | none => rfl
    | some s =>
      have listed := List.all_eq_true.mp (table (s.text, s) (mem_symbolSpellings_iff.mpr rfl)) c
        (by simp [text_ofChar h])
      exact absurd (of_decide_eq_true listed) other
  simp [first, blank, quote, digit, start, none]

theorem first_of_fits (fits : piece.Fits rest) :
    ∃ c tail, piece.text ++ rest = c :: tail ∧ first c tail = (piece, rest) := by
  cases piece with
  | lexeme l =>
    cases l with
    | symbol s => exact first_symbol fits
    | string inner => exact ⟨'"', _, by simp [text, Lexeme.text], firstString_closed fits⟩
    | number whole fraction =>
      cases fraction with
      | nil =>
        obtain ⟨hw, stop, point⟩ := fits
        obtain ⟨c, tail, same, read⟩ := first_digits hw stop
        exact ⟨c, tail, same, by rw [read, firstNumber_integer point]⟩
      | cons f fraction =>
        obtain ⟨hw, hf, stop⟩ := fits
        have stopsAtPoint : ∀ c ∈ ('.' :: (f :: fraction ++ rest)).head?, c.isDigit = false := by
          simp
        obtain ⟨c, tail, same, read⟩ := first_digits hw stopsAtPoint
        exact ⟨c, tail, by simpa [text, Lexeme.text] using same,
          by rw [read, firstNumber_decimal hf stop]⟩
    | word letters => exact first_word fits.1 fits.2
  | blank c => exact ⟨c, rest, rfl, first_blank fits rest⟩
  | comment body => exact ⟨'/', _, rfl, first_comment fits.1 fits.2⟩
  | rejected c => exact ⟨c, rest, rfl, first_rejected fits.1 fits.2.1 fits.2.2 rest⟩
  | unterminated body =>
    obtain ⟨free, rfl⟩ := fits
    exact ⟨'"', body, by simp [text], firstString_open free⟩

end Piece

namespace Fragment

/-- Scanning a text finds whatever tiles it. -/
theorem Tiles.eq_listFrom {p : Position} {text : List Char} {fragments : List Fragment}
    (tiles : Tiles p text fragments) : fragments = listFrom p text := by
  induction tiles with
  | nil => rw [listFrom_nil]
  | @cons p piece rest fragments fits _ ih =>
    obtain ⟨c, tail, same, read⟩ := Piece.first_of_fits fits
    rw [same, listFrom_cons, read, ih]

end Fragment

end LoxExpr
