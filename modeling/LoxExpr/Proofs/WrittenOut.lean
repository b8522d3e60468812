import LoxExpr.Proofs.Layout
import LoxExpr.Proofs.MaximalMunch

/-!
Lexemes written out one after the other, with blanks between them.

A lexeme fits before any blank, so a text of this kind is tiled by the lexemes and the blanks
(`Fragment.exists_tiles_writeOut`), and scanning it undoes the writing. A token is settled by its
text but for its place (`Token.IsOf.content_eq`), so the tokens of a source come back as well when
their texts are written out.
-/

set_option autoImplicit false
set_option relaxedAutoImplicit false

namespace LoxExpr

/-- The values that the spellings of a kind have: a string has the text between its quotes, a number
that of its digits, and all others have none. -/
inductive Token.Kind.Value : Token.Kind → List Char → Option Literal → Prop
  | string {inner : List Char} :
      Value .string ('"' :: inner ++ ['"']) (some (.string (String.ofList inner)))
  | integer {w : List Char} :
      Digits w → Value .number w (some (.number (Decimal.ofDigits w []).toBinary64))
  | decimal {v w : List Char} :
      Digits v → Digits w →
      Value .number (v ++ '.' :: w) (some (.number (Decimal.ofDigits v w).toBinary64))
  | none {kind : Token.Kind} {w : List Char} :
      kind ≠ .string → kind ≠ .number → Value kind w none

theorem Token.Kind.Value.unique {kind : Token.Kind} {w : List Char} {value value' : Option Literal}
    (h : kind.Value w value) (h' : kind.Value w value') : value' = value := by
  generalize same : w = w' at h'
  cases h with
  | string =>
    cases h' with
    | string =>
      have inner := List.append_cancel_right (List.cons.inj same).2
      rw [inner]
    | none other => exact absurd rfl other
  | integer digits =>
    cases h' with
    | integer => rw [same]
    | decimal =>
      refine absurd ?_ digits.point_not_mem
      rw [same]
      simp
    | none _ other => exact absurd rfl other
  | decimal whole fraction =>
    cases h' with
    | integer digits =>
      refine absurd ?_ digits.point_not_mem
      rw [← same]
      simp
    | decimal whole' fraction' =>
      rw [List.append_cons_inj_of_notMem whole.point_not_mem fraction.point_not_mem] at same
      obtain ⟨rfl, -, rfl⟩ := same
      rfl
    | none _ other => exact absurd rfl other
  | none notString notNumber =>
    cases h' with
    | string => exact absurd rfl notString
    | integer => exact absurd rfl notNumber
    | decimal => exact absurd rfl notNumber
    | none => rfl

namespace Token

/-- The token has the given text, of which it has the kind and the value. -/
structure IsOf (t : Token) (w : List Char) : Prop where
  text : t.lexeme.toList = w
  spelling : t.kind.Spelling w
  value : t.kind.Value w t.literal?

def content (t : Token) : Kind × String × Option Literal := (t.kind, t.lexeme, t.literal?)

theorem IsOf.content_eq {t t' : Token} {w : List Char} (h : t.IsOf w) (h' : t'.IsOf w) :
    t'.content = t.content := by
  have kind := h.spelling.unique h'.spelling
  have lexeme : t'.lexeme = t.lexeme := String.toList_inj.mp (h'.text.trans h.text.symm)
  have value := h.value.unique (kind ▸ h'.value)
  rw [content, content, kind, lexeme, value]

theorem Kind.Spelling.exists_fits {kind : Kind} {w : List Char} (h : kind.Spelling w) :
    ∃ l : Lexeme, l.text = w ∧ (Piece.lexeme l).Fits [] := by
  cases h with
  | symbol hs => exact ⟨.symbol _, (mem_symbolSpellings_iff.mp hs).symm, by simp [Piece.Fits]⟩
  | string free => exact ⟨.string _, rfl, free⟩
  | integer hw => exact ⟨.number _ [], rfl, hw, by simp, by simp⟩
  | decimal hv hw =>
    obtain ⟨c, w, rfl⟩ := List.exists_cons_of_ne_nil hw.1
    exact ⟨.number _ (c :: w), rfl, hv, hw, by simp⟩
  | keyword hw => exact ⟨.word _, rfl, hw, by simp⟩
  | identifier hw => exact ⟨.word _, rfl, hw, by simp⟩

theorem isOf_tokenAt {l : Lexeme} {after : List Char} (fits : (Piece.lexeme l).Fits after)
    (p : Position) : (l.tokenAt p).IsOf l.text := by
  refine ⟨String.toList_ofList, Piece.spelling_of_fits fits, ?_⟩
  cases l with
  | symbol s => exact .none nofun nofun
  | string inner => exact .string
  | number whole fraction =>
    cases fraction with
    | nil => exact .integer fits.1
    | cons d fraction => exact .decimal fits.1 fits.2.1
  | word letters =>
    cases keyword : Keyword.ofText? (String.ofList letters) <;>
      exact .none (by simp [Lexeme.tokenAt, Lexeme.kind, keyword])
        (by simp [Lexeme.tokenAt, Lexeme.kind, keyword])

end Token

def writeOut (items : List (List Char × List Char)) : List Char :=
  items.flatMap fun item => item.1 ++ item.2

/-- Behind each lexeme there are blanks, and behind each but the last there is at least one. -/
structure Separated (items : List (List Char × List Char)) : Prop where
  blank : ∀ item ∈ items, ∀ c ∈ item.2, IsBlank c
  apart : ∀ item ∈ items.dropLast, item.2 ≠ []

theorem Separated.tail {item : List Char × List Char} {items : List (List Char × List Char)}
    (h : Separated (item :: items)) : Separated items where
  blank := (List.forall_mem_cons.mp h.blank).2
  apart other hother := by
    cases items with
    | nil => contradiction
    | cons next items => exact h.apart other (List.mem_cons_of_mem item hother)

/-- The tokens are those of the lexemes in order, each at its offset, where the first lexeme is
written at the given one. -/
structure Token.AreOf (n : Nat) (items : List (List Char × List Char)) (ts : List Token) :
    Prop where
  length_eq : ts.length = items.length
  isOf : ∀ (k : Nat) (w gap : List Char), items[k]? = some (w, gap) →
    ∃ t, ts[k]? = some t ∧ t.IsOf w ∧
      t.position.offset = n + utf8Length (writeOut (items.take k))

theorem Token.AreOf.cons {n : Nat} {w gap : List Char} {items : List (List Char × List Char)}
    {t : Token} {ts : List Token} (isOf : t.IsOf w) (offset : t.position.offset = n)
    (areOf : AreOf (n + utf8Length (w ++ gap)) items ts) :
    AreOf n ((w, gap) :: items) (t :: ts) where
  length_eq := congrArg (· + 1) areOf.length_eq
  isOf k w' gap' hk := by
    cases k with
    | zero =>
      obtain ⟨rfl, rfl⟩ := Prod.mk.inj (Option.some.inj hk)
      exact ⟨t, rfl, isOf, offset⟩
    | succ k =>
      obtain ⟨t', ht', isOf', offset'⟩ := areOf.isOf k w' gap' hk
      refine ⟨t', ht', isOf', ?_⟩
      rw [offset', Nat.add_assoc, ← utf8Length_append]
      rfl

theorem Layout.of_blanks {gap : List Char} (blank : ∀ c ∈ gap, IsBlank c) : Layout gap := by
  induction gap with
  | nil => exact .nil
  | cons c gap ih =>
    obtain ⟨first, others⟩ := List.forall_mem_cons.mp blank
    exact .blank first (ih others)

namespace Fragment

theorem exists_tiles_writeOut {items : List (List Char × List Char)}
    (lexemes : ∀ item ∈ items, IsLexeme item.1) (separated : Separated items) (p : Position) :
    ∃ fs, Tiles p (writeOut items) fs ∧ fs.filterMap diagnostic? = [] ∧
      Token.AreOf p.offset items (fs.filterMap token?) := by
  induction items generalizing p with
  | nil => exact ⟨[], .nil, rfl, rfl, nofun⟩
  | cons item items ih =>
    obtain ⟨w, gap⟩ := item
    obtain ⟨⟨kind, spelling⟩, others⟩ := List.forall_mem_cons.mp lexemes
    obtain ⟨l, rfl, fits⟩ := spelling.exists_fits
    obtain ⟨fs, tiles, quiet, areOf⟩ := ih others separated.tail (p.after (l.text ++ gap))
    have blank : ∀ c ∈ gap, IsBlank c := separated.blank _ List.mem_cons_self
    rw [Position.after_append] at tiles
    obtain ⟨ws, behind, layout⟩ := tiles.prepend_layout (.of_blanks blank)
    have fits' : (Piece.lexeme l).Fits (gap ++ writeOut items) := by
      cases gap with
      | nil =>
        -- without a blank behind it, the lexeme is the last
        cases items with
        | nil => exact fits
        | cons next items => exact absurd rfl (separated.apart (l.text, []) (by simp))
      | cons c gap => exact fits.lexeme_before_blank (blank c List.mem_cons_self) _
    have whole : writeOut ((l.text, gap) :: items) = l.text ++ (gap ++ writeOut items) := by
      simp [writeOut]
    obtain ⟨words, reports⟩ := filterMap_append_of_isLayout layout fs
    have first : token? ⟨p, .lexeme l⟩ = some (l.tokenAt p) := rfl
    refine ⟨⟨p, .lexeme l⟩ :: (ws ++ fs), ?_, ?_, ?_⟩
    · rw [whole]
      exact .cons fits' behind
    · rw [List.filterMap_cons_none rfl, reports, quiet]
    · rw [List.filterMap_cons_some first, words]
      rw [Position.offset_after] at areOf
      exact .cons (Token.isOf_tokenAt fits p) rfl areOf

end Fragment

theorem Token.AreOf.map_content_eq {n : Nat} {items : List (List Char × List Char)}
    {ts ts' : List Token} (areOf : AreOf n items ts)
    (isOf : ∀ t ∈ ts', t.IsOf t.lexeme.toList)
    (lexemes : items.map Prod.fst = ts'.map (·.lexeme.toList)) :
    ts.map content = ts'.map content := by
  have length : items.length = ts'.length := by simpa using congrArg List.length lexemes
  apply List.ext_getElem
  · rw [List.length_map, List.length_map, areOf.length_eq, length]
  · intro k hk hk'
    rw [List.length_map] at hk hk'
    have here : k < items.length := length ▸ hk'
    obtain ⟨t, ht, isOf', -⟩ := areOf.isOf k items[k].1 items[k].2 (List.getElem?_eq_getElem here)
    have same : items[k].1 = ts'[k].lexeme.toList := by
      have both := congrArg (·[k]?) lexemes
      simpa [List.getElem?_eq_getElem, here, hk'] using both
    rw [List.getElem_map, List.getElem_map, List.getElem_of_getElem? ht |>.2]
    exact (isOf _ (List.getElem_mem hk')).content_eq (same ▸ isOf')

namespace Scan

theorem isOf_of_mem_words {source : String} {t : Token} (ht : t ∈ (ofSource source).words) :
    t.IsOf t.lexeme.toList := by
  obtain ⟨l, before, after, rfl, -, fits⟩ := exists_lexeme_of_mem ht
  have isOf := Token.isOf_tokenAt fits (Position.after {} before)
  rwa [← isOf.text] at isOf

end Scan

end LoxExpr
