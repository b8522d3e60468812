import LoxExpr.Proofs.Tiling
import Mathlib.Data.List.Basic

/-!
Every lexeme of a source is the longest one that starts at its place, and its kind is the only one
that its text has.

A longer lexeme at the same place would start in the same way, so it would be one of the same sort,
and this is what a lexeme that fits before the text behind it excludes
(`Piece.not_isLexeme_of_fits`).
-/

set_option autoImplicit false
set_option relaxedAutoImplicit false

namespace LoxExpr

namespace Piece

variable {l : Lexeme} {d : Char} {q more : List Char}

private theorem fused_of_append {s s' : Symbol} (h : s.text ++ d :: q = s'.text) :
    d = '=' ∧ s ∈ [.bang, .equal, .greater, .less] := by
  have table : ∀ e ∈ symbolSpellings, ∀ e' ∈ symbolSpellings, e.1 <+: e'.1 → e.1 ≠ e'.1 →
      e'.1 = e.1 ++ ['='] ∧ e.2 ∈ [.bang, .equal, .greater, .less] := by
    decide
  have longer : s.text ≠ s'.text := by
    intro same
    simp [same] at h
  obtain ⟨hs', fused⟩ := table (s.text, s) (mem_symbolSpellings_iff.mpr rfl) (s'.text, s')
    (mem_symbolSpellings_iff.mpr rfl) ⟨d :: q, h⟩ longer
  have tail : d :: q = ['='] := List.append_cancel_left (h.trans hs')
  exact ⟨(List.cons.inj tail).1, fused⟩

private theorem not_string_append {inner inner' : List Char} (free : '"' ∉ inner') :
    '"' :: inner ++ ['"'] ++ d :: q ≠ '"' :: inner' ++ ['"'] := by
  intro h
  have tails : inner ++ '"' :: d :: q = inner' ++ ['"'] := by simpa using h
  have same : inner' = (inner ++ '"' :: d :: q).dropLast := by
    rw [tails, List.dropLast_concat]
  apply free
  rw [same]
  simp [List.dropLast_append_of_ne_nil]

private theorem integer_append {whole : List Char} (hw : Digits whole)
    (h : Digits (whole ++ d :: q) ∨ ∃ u v, Digits u ∧ Digits v ∧ whole ++ d :: q = u ++ '.' :: v) :
    d.isDigit = true ∨ d = '.' ∧ ∃ c r, q = c :: r ∧ c.isDigit = true := by
  rcases h with h | ⟨u, v, hu, hv, h⟩
  · exact .inl (h.2 d (by simp))
  · -- the point stands behind `whole`, which has none
    obtain ⟨a, rfl, tail⟩ : ∃ a, u = whole ++ a ∧ d :: q = a ++ '.' :: v := by
      rcases List.append_eq_append_iff.mp h with longer | ⟨a, rfl, tail⟩
      · exact longer
      · cases a with
        | nil => exact ⟨[], by simp, tail.symm⟩
        | cons b a =>
          obtain ⟨rfl, -⟩ := List.cons.inj tail
          exact absurd (by simp) hw.point_not_mem
    cases a with
    | nil =>
      obtain ⟨rfl, rfl⟩ := List.cons.inj tail
      obtain ⟨c, r, rfl⟩ := List.exists_cons_of_ne_nil hv.1
      exact .inr ⟨rfl, c, r, rfl, hv.2 c List.mem_cons_self⟩
    | cons b a =>
      obtain ⟨rfl, -⟩ := List.cons.inj tail
      exact .inl (hu.2 d (by simp))

private theorem decimal_append {whole fraction : List Char}
    (h : Digits (whole ++ '.' :: fraction ++ d :: q) ∨
      ∃ u v, Digits u ∧ Digits v ∧ whole ++ '.' :: fraction ++ d :: q = u ++ '.' :: v) :
    d.isDigit = true := by
  rcases h with h | ⟨u, v, hu, hv, h⟩
  · exact absurd (by simp) h.point_not_mem
  · rw [List.append_assoc, List.cons_append, eq_comm,
      List.append_cons_inj_of_notMem hu.point_not_mem hv.point_not_mem] at h
    obtain ⟨-, -, rfl⟩ := h
    exact hv.2 d (by simp)

private theorem word_append {letters : List Char} (hw : Word letters)
    (h : Word (letters ++ d :: q)) : isWordPart d = true := by
  obtain ⟨c, v, rfl, -⟩ := hw
  obtain ⟨c', v', same, -, parts⟩ := h
  obtain ⟨-, rfl⟩ := List.cons.inj same
  simpa [isWordPart] using parts d (by simp)

/-- What fits before a text is no longer a lexeme with anything of that text added. -/
theorem not_isLexeme_of_fits (fits : (lexeme l).Fits (d :: q ++ more)) :
    ¬ IsLexeme (l.text ++ d :: q) := by
  rintro ⟨kind, h⟩
  -- the longer lexeme starts in the same way, so it is a spelling of the same sort
  have start := h.start?_eq_of_append (spelling_of_fits fits)
  cases l with
  | symbol s =>
    obtain ⟨s', hs'⟩ := h.exists_symbol start
    obtain ⟨rfl, fused⟩ := fused_of_append hs'
    exact fits.2 fused rfl
  | string inner =>
    obtain ⟨inner', free, same⟩ := h.exists_string start
    exact not_string_append free same
  | number whole fraction =>
    cases fraction with
    | nil =>
      obtain ⟨hw, stop, point⟩ := fits
      rcases integer_append hw (h.digits_or_decimal start) with digit | ⟨rfl, c, r, rfl, digit⟩
      · simp [stop d rfl] at digit
      · simp [point c (r ++ more) rfl] at digit
    | cons f fraction =>
      obtain ⟨-, -, stop⟩ := fits
      have digit := decimal_append (h.digits_or_decimal start)
      simp [stop d rfl] at digit
  | word letters =>
    obtain ⟨hw, stop⟩ := fits
    have letter : (Lexeme.word letters).kind.start? = some .letter := by
      cases hk : Keyword.ofText? (String.ofList letters) <;>
        simp [Lexeme.kind, hk, Token.Kind.start?]
    have part := word_append hw (h.word (start.trans letter))
    simp [stop d rfl] at part

theorem length_le_of_fits {w after : List Char} (fits : (lexeme l).Fits after)
    (hw : w <+: l.text ++ after) (h : IsLexeme w) : w.length ≤ l.text.length := by
  rcases List.prefix_or_prefix_of_prefix hw (List.prefix_append l.text after) with short | ⟨q, rfl⟩
  · exact short.length_le
  · cases q with
    | nil => simp
    | cons d q =>
      obtain ⟨more, rfl⟩ := (List.prefix_append_right_inj l.text).mp hw
      exact absurd h (not_isLexeme_of_fits fits)

end Piece

private theorem Lexeme.literal?_of_kind (l : Lexeme) :
    match l.kind with
    | .string => ∃ inner, l.text = '"' :: inner ++ ['"'] ∧
        l.literal? = some (.string (String.ofList inner))
    | .number => ∃ value, l.literal? = some (.number value)
    | _ => l.literal? = none := by
  cases l with
  | symbol s => rfl
  | string inner => exact ⟨inner, rfl, rfl⟩
  | number whole fraction => exact ⟨_, rfl⟩
  | word letters =>
    cases hk : Keyword.ofText? (String.ofList letters) <;> simp [Lexeme.kind, Lexeme.literal?, hk]

namespace Scan

theorem exists_lexeme_of_mem {source : String} {t : Token} (ht : t ∈ (ofSource source).words) :
    ∃ l before after, t = l.tokenAt (Position.after {} before) ∧
      source.toList = before ++ (l.text ++ after) ∧ (Piece.lexeme l).Fits after := by
  obtain ⟨f, hf, token⟩ := List.mem_filterMap.mp ht
  obtain ⟨before, after, cut, start, fits⟩ :=
    (Fragment.tiles_listFrom {} source.toList).exists_split_of_mem hf
  unfold Fragment.token? at token
  split at token
  · rename_i l hl
    rw [hl] at cut fits
    rw [start] at token
    exact ⟨l, before, after, (Option.some.inj token).symm, by simpa [Piece.text] using cut, fits⟩
  · contradiction

/-- Every token of a source but the end is the longest lexeme at its place, its kind is the one kind
that its text has, and its value is the text between the quotes for a string, some number for a
number, and none for all others. -/
theorem tokens_longest (source : String) (t : Token) (ht : t ∈ (ofSource source).tokens)
    (notEnd : t.isEof = false) :
    ∃ before after, source.toList = before ++ (t.lexeme.toList ++ after) ∧
      t.position.offset = utf8Length before ∧ IsLexeme t.lexeme.toList ∧
      (∀ w, w <+: t.lexeme.toList ++ after → IsLexeme w → w.length ≤ t.lexeme.toList.length) ∧
      (∀ kind, Token.Kind.Spelling kind t.lexeme.toList ↔ kind = t.kind) ∧
      match t.kind with
      | .string => ∃ inner, t.lexeme.toList = '"' :: inner ++ ['"'] ∧
          t.literal? = some (.string (String.ofList inner))
      | .number => ∃ value, t.literal? = some (.number value)
      | _ => t.literal? = none := by
  have word : t ∈ (ofSource source).words := by
    rcases List.mem_append.mp ht with h | h
    · exact h
    · obtain rfl := List.mem_singleton.mp h
      contradiction
  obtain ⟨l, before, after, rfl, cut, fits⟩ := exists_lexeme_of_mem word
  have spelling := Piece.spelling_of_fits fits
  have text : (l.tokenAt (Position.after {} before)).lexeme.toList = l.text := String.toList_ofList
  rw [text]
  refine ⟨before, after, cut, ?_, ⟨_, spelling⟩, ?_, ?_, l.literal?_of_kind⟩
  · show (Position.after {} before).offset = utf8Length before
    rw [Position.offset_after, Nat.zero_add]
  · intro w hw lexeme
    exact Piece.length_le_of_fits fits hw lexeme
  · intro kind
    constructor
    · intro h
      exact spelling.unique h
    · rintro rfl
      exact spelling

theorem tokens_longest_decimal :
    ∃ t ∈ (ofSource "1.2.3").tokens, t.isEof = false ∧ t.lexeme = "1.2" ∧
      ∀ w, w <+: "1.2.3".toList → IsLexeme w → w.length ≤ 3 := by
  have first : Piece.first '1' ['.', '2', '.', '3'] =
      (.lexeme (.number ['1'] ['2']), ['.', '3']) := by
    decide
  have found : (Lexeme.number ['1'] ['2']).tokenAt {} ∈ (ofSource "1.2.3").tokens := by
    have source : "1.2.3".toList = ['1', '.', '2', '.', '3'] := rfl
    rw [tokens, words, ofSource, source, Fragment.listFrom_cons, first]
    simp [Fragment.token?]
  obtain ⟨before, after, cut, offset, -, longest, -⟩ := tokens_longest _ _ found rfl
  refine ⟨_, found, rfl, rfl, ?_⟩
  intro w hw lexeme
  have none : before = [] := by
    cases before with
    | nil => rfl
    | cons c before =>
      have := c.utf8Size_pos
      have zero : utf8Length (c :: before) = 0 := offset.symm
      rw [utf8Length_cons] at zero
      omega
  rw [cut, none] at hw
  exact longest w hw lexeme

end Scan

end LoxExpr
