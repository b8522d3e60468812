import LoxExpr.Piece

/-!
The language of lexemes, apart from any way of reading it.

`Token.Kind.Spelling` relates the kinds of tokens to their texts. The first character of a lexeme
tells symbols, strings, numbers and words apart (`Token.Kind.Spelling.head`), and a text has one
kind at most (`Token.Kind.Spelling.unique`).
-/

set_option autoImplicit false
set_option relaxedAutoImplicit false

namespace LoxExpr

def symbolSpellings : List (List Char × Symbol) :=
  [(['('], .leftParen), ([')'], .rightParen), (['{'], .leftBrace), (['}'], .rightBrace),
    ([','], .comma), (['.'], .dot), (['-'], .minus), (['+'], .plus), ([';'], .semicolon),
    (['/'], .slash), (['*'], .star), (['!'], .bang), (['!', '='], .bangEqual), (['='], .equal),
    (['=', '='], .equalEqual), (['>'], .greater), (['>', '='], .greaterEqual), (['<'], .less),
    (['<', '='], .lessEqual)]

def keywordSpellings : List (String × Keyword) :=
  [("and", .andWord), ("class", .classWord), ("else", .elseWord), ("false", .falseWord),
    ("for", .forWord), ("fun", .funWord), ("if", .ifWord), ("nil", .nilWord), ("or", .orWord),
    ("print", .printWord), ("return", .returnWord), ("super", .superWord), ("this", .thisWord),
    ("true", .trueWord), ("var", .varWord), ("while", .whileWord)]

def Digits (w : List Char) : Prop := w ≠ [] ∧ ∀ c ∈ w, c.isDigit = true

def Word (w : List Char) : Prop :=
  ∃ c v, w = c :: v ∧ (c.isAlpha = true ∨ c = '_') ∧ ∀ d ∈ v, d.isAlphanum = true ∨ d = '_'

/-- The texts that make a token of a kind. -/
inductive Token.Kind.Spelling : Token.Kind → List Char → Prop
  | symbol {w : List Char} {s : Symbol} : (w, s) ∈ symbolSpellings → Spelling (.symbol s) w
  | string {inner : List Char} : '"' ∉ inner → Spelling .string ('"' :: inner ++ ['"'])
  | integer {w : List Char} : Digits w → Spelling .number w
  | decimal {v w : List Char} : Digits v → Digits w → Spelling .number (v ++ '.' :: w)
  | keyword {w : List Char} {k : Keyword} :
      Word w → (String.ofList w, k) ∈ keywordSpellings → Spelling (.keyword k) w
  | identifier {w : List Char} :
      Word w → (∀ k, (String.ofList w, k) ∉ keywordSpellings) → Spelling .identifier w

def IsLexeme (w : List Char) : Prop := ∃ kind, Token.Kind.Spelling kind w

/-- The ways in which a lexeme can start. -/
inductive Start where
  | symbol
  | quote
  | digit
  | letter
  deriving DecidableEq

def Start.of (c : Char) : Start :=
  if c = '"' then .quote
  else if c.isDigit then .digit
  else if Piece.isWordStart c then .letter
  else .symbol

theorem mem_symbolSpellings_iff {w : List Char} {s : Symbol} :
    (w, s) ∈ symbolSpellings ↔ w = s.text := by
  cases s <;> simp [symbolSpellings, Symbol.text]

theorem mem_keywordSpellings_iff {word : String} {k : Keyword} :
    (word, k) ∈ keywordSpellings ↔ word = k.text := by
  cases k <;> simp [keywordSpellings, Keyword.text]

theorem Keyword.ofText?_eq_some_iff {word : String} {k : Keyword} :
    Keyword.ofText? word = some k ↔ word = k.text := by
  constructor
  · intro h
    unfold Keyword.ofText? at h
    have same : k.text = word := by simpa using List.find?_some h
    exact same.symm
  · rintro rfl
    cases k <;> rfl

theorem Keyword.text_injective {k k' : Keyword} (h : k.text = k'.text) : k = k' := by
  have found : Keyword.ofText? k.text = some k' := Keyword.ofText?_eq_some_iff.mpr h
  exact Option.some.inj ((Keyword.ofText?_eq_some_iff.mpr rfl).symm.trans found)

theorem Symbol.text_injective {s s' : Symbol} (h : s.text = s'.text) : s = s' := by
  have distinct : ∀ e ∈ symbolSpellings, ∀ e' ∈ symbolSpellings, e.1 = e'.1 → e.2 = e'.2 := by
    decide
  exact distinct (s.text, s) (mem_symbolSpellings_iff.mpr rfl) (s'.text, s')
    (mem_symbolSpellings_iff.mpr rfl) h

theorem Digits.point_not_mem {w : List Char} (h : Digits w) : '.' ∉ w := by
  intro point
  have := h.2 '.' point
  contradiction

theorem isAlpha_of_isDigit {c : Char} (h : c.isDigit = true) : c.isAlpha = false := by
  have nine : c.toNat ≤ 57 := (Char.isDigit_iff_toNat.mp h).2
  have upper : ¬ 'A'.val ≤ c.val := by
    intro (above : 65 ≤ c.toNat)
    omega
  have lower : ¬ 'a'.val ≤ c.val := by
    intro (above : 97 ≤ c.toNat)
    omega
  have notUpper : c.isUpper = false := decide_eq_false fun range => upper range.1
  have notLower : c.isLower = false := Bool.and_eq_false_iff.mpr (.inl (decide_eq_false lower))
  show (c.isUpper || c.isLower) = false
  rw [notUpper, notLower]
  rfl

namespace Token.Kind

def start? : Token.Kind → Option Start
  | .symbol _ => some .symbol
  | .string => some .quote
  | .number => some .digit
  | .keyword _ => some .letter
  | .identifier => some .letter
  | .eof => none

private theorem start_of_mem_symbolSpellings : ∀ e ∈ symbolSpellings,
    e.1.head?.map Start.of = some .symbol := by
  decide

private theorem of_isDigit {c : Char} (h : c.isDigit = true) : Start.of c = .digit := by
  have notQuote : c ≠ '"' := by
    rintro rfl
    contradiction
  simp [Start.of, notQuote, h]

private theorem of_letter {c : Char} (h : c.isAlpha = true ∨ c = '_') : Start.of c = .letter := by
  have notQuote : c ≠ '"' := by
    rintro rfl
    simp at h
  have notDigit : c.isDigit = false := by
    rcases h with h | rfl
    · cases digit : c.isDigit with
      | false => rfl
      | true => simp [isAlpha_of_isDigit digit] at h
    · rfl
  have start : Piece.isWordStart c = true := by simpa [Piece.isWordStart] using h
  simp [Start.of, notQuote, notDigit, start]

theorem Spelling.head {kind : Token.Kind} {w : List Char} (h : kind.Spelling w) :
    ∃ c v, w = c :: v ∧ kind.start? = some (Start.of c) := by
  cases h with
  | @symbol w s h =>
    have known := start_of_mem_symbolSpellings _ h
    obtain ⟨c, hc, hs⟩ := Option.map_eq_some_iff.mp known
    obtain ⟨v, rfl⟩ := List.head?_eq_some_iff.mp hc
    exact ⟨c, v, rfl, congrArg some hs.symm⟩
  | string _ => exact ⟨'"', _, rfl, rfl⟩
  | integer h =>
    obtain ⟨c, v, rfl⟩ := List.exists_cons_of_ne_nil h.1
    exact ⟨c, v, rfl, congrArg some (of_isDigit (h.2 c List.mem_cons_self)).symm⟩
  | decimal h _ =>
    obtain ⟨c, v, rfl⟩ := List.exists_cons_of_ne_nil h.1
    exact ⟨c, _, rfl, congrArg some (of_isDigit (h.2 c List.mem_cons_self)).symm⟩
  | keyword h _ =>
    obtain ⟨c, v, rfl, start, -⟩ := h
    exact ⟨c, v, rfl, congrArg some (of_letter start).symm⟩
  | identifier h _ =>
    obtain ⟨c, v, rfl, start, -⟩ := h
    exact ⟨c, v, rfl, congrArg some (of_letter start).symm⟩

theorem Spelling.start?_eq_of_append {kind kind' : Token.Kind} {v w : List Char}
    (h' : kind'.Spelling (v ++ w)) (h : kind.Spelling v) : kind'.start? = kind.start? := by
  obtain ⟨c, u, rfl, hc⟩ := h.head
  obtain ⟨c', u', same, hc'⟩ := h'.head
  obtain ⟨rfl, -⟩ := List.cons.inj same
  rw [hc, hc']

theorem Spelling.exists_symbol {kind : Token.Kind} {w : List Char} (h : kind.Spelling w)
    (start : kind.start? = some .symbol) : ∃ s : Symbol, w = s.text := by
  cases h with
  | symbol hs => exact ⟨_, mem_symbolSpellings_iff.mp hs⟩
  | _ => simp [start?] at start

theorem Spelling.exists_string {kind : Token.Kind} {w : List Char} (h : kind.Spelling w)
    (start : kind.start? = some .quote) : ∃ inner, '"' ∉ inner ∧ w = '"' :: inner ++ ['"'] := by
  cases h with
  | string free => exact ⟨_, free, rfl⟩
  | _ => simp [start?] at start

theorem Spelling.digits_or_decimal {kind : Token.Kind} {w : List Char} (h : kind.Spelling w)
    (start : kind.start? = some .digit) :
    Digits w ∨ ∃ u v, Digits u ∧ Digits v ∧ w = u ++ '.' :: v := by
  cases h with
  | integer hw => exact .inl hw
  | decimal hu hv => exact .inr ⟨_, _, hu, hv, rfl⟩
  | _ => simp [start?] at start

theorem Spelling.word {kind : Token.Kind} {w : List Char} (h : kind.Spelling w)
    (start : kind.start? = some .letter) : Word w := by
  cases h with
  | keyword hw _ => exact hw
  | identifier hw _ => exact hw
  | _ => simp [start?] at start

theorem Spelling.unique {kind kind' : Token.Kind} {w : List Char} (h : kind.Spelling w)
    (h' : kind'.Spelling w) : kind' = kind := by
  have same := Spelling.start?_eq_of_append (w := []) (by rwa [List.append_nil]) h
  cases kind <;> cases kind' <;> simp only [start?, reduceCtorEq, Option.some.injEq] at same
  case symbol.symbol s s' =>
    obtain ⟨hs⟩ := h
    obtain ⟨hs'⟩ := h'
    have texts : s'.text = s.text :=
      (mem_symbolSpellings_iff.mp hs').symm.trans (mem_symbolSpellings_iff.mp hs)
    rw [Symbol.text_injective texts]
  case string.string => rfl
  case number.number => rfl
  case keyword.keyword k k' =>
    cases h with
    | keyword _ hk =>
      cases h' with
      | keyword _ hk' =>
        have texts : k'.text = k.text :=
          (mem_keywordSpellings_iff.mp hk').symm.trans (mem_keywordSpellings_iff.mp hk)
        rw [Keyword.text_injective texts]
  case keyword.identifier k =>
    cases h with
    | keyword _ hk =>
      cases h' with
      | identifier _ free => exact absurd hk (free k)
  case identifier.keyword k =>
    cases h' with
    | keyword _ hk =>
      cases h with
      | identifier _ free => exact absurd hk (free k)
  case identifier.identifier => rfl
  case eof.eof => rfl

end Token.Kind

end LoxExpr
