import LoxExpr.Proofs.Tiling
import Mathlib.Data.List.Forall2

/-!
A source is its tokens and the gaps between them, and the gaps account for the lexical errors.

`Scan.Covers` lays a text out as gaps and tokens in turn. It is built from the end of the text, one
fragment at a time: a lexeme starts a new gap in front of it (`Scan.Covers.lexeme`), and any other
piece goes into the gap that is there (`Scan.Covers.prepend`).
-/

set_option autoImplicit false
set_option relaxedAutoImplicit false

namespace LoxExpr

def gapText (gap : List Piece) : List Char := gap.flatMap Piece.text

/-- The pieces may stand between two tokens: none is a lexeme, and each fits before what follows
it, which after the gap is the given text. -/
inductive IsGap : List Piece → List Char → Prop
  | nil {after : List Char} : IsGap [] after
  | cons {piece : Piece} {gap : List Piece} {after : List Char} :
      (∀ l, piece ≠ .lexeme l) → piece.Fits (gapText gap ++ after) → IsGap gap after →
      IsGap (piece :: gap) after

def Diagnostic.IsAbout (d : Diagnostic) (e : LexicalError) : Prop := d = e.onLine d.line

def Token.stop (t : Token) : Nat := t.position.offset + t.lexeme.utf8ByteSize

namespace Scan

/-- A text from byte `n` on is made of gaps and tokens in turn, each token at its offset; the end
stands behind the last gap. -/
inductive Covers : Nat → List Char → List (List Piece) → List Token → Prop
  | last {n : Nat} {gap : List Piece} {eof : Token} :
      IsGap gap [] → eof.isEof = true → eof.lexeme = "" →
      eof.position.offset = n + utf8Length (gapText gap) → Covers n (gapText gap) [gap] [eof]
  | cons {n : Nat} {gap : List Piece} {t : Token} {rest : List Char} {gaps : List (List Piece)}
      {ts : List Token} :
      IsGap gap (t.lexeme.toList ++ rest) → t.isEof = false → t.lexeme ≠ "" →
      t.position.offset = n + utf8Length (gapText gap) → Covers t.stop rest gaps ts →
      Covers n (gapText gap ++ (t.lexeme.toList ++ rest)) (gap :: gaps) (t :: ts)

namespace Covers

variable {n : Nat} {text : List Char} {gaps : List (List Piece)} {ts : List Token}

theorem prepend {piece : Piece} (filler : ∀ l, piece ≠ .lexeme l) (fits : piece.Fits text)
    (covers : Covers (n + utf8Length piece.text) text gaps ts) :
    ∃ gap gaps', gaps = gap :: gaps' ∧
      Covers n (piece.text ++ text) ((piece :: gap) :: gaps') ts := by
  cases covers with
  | @last _ gap eof hg isEnd empty offset =>
    refine ⟨gap, [], rfl, ?_⟩
    have whole : gapText (piece :: gap) = piece.text ++ gapText gap := rfl
    rw [← whole]
    refine .last (.cons filler (by rwa [List.append_nil]) hg) isEnd empty ?_
    rw [offset, whole, utf8Length_append, Nat.add_assoc]
  | @cons _ gap t rest gaps ts hg notEnd full offset covers =>
    refine ⟨gap, gaps, rfl, ?_⟩
    have whole : gapText (piece :: gap) = piece.text ++ gapText gap := rfl
    rw [← List.append_assoc, ← whole]
    refine .cons (.cons filler fits hg) notEnd full ?_ covers
    rw [offset, whole, utf8Length_append, Nat.add_assoc]

theorem lexeme {l : Lexeme} {p : Position} (fits : (Piece.lexeme l).Fits text)
    (covers : Covers (p.offset + utf8Length l.text) text gaps ts) :
    Covers p.offset (l.text ++ text) ([] :: gaps) (l.tokenAt p :: ts) := by
  obtain ⟨c, w, spelled, start⟩ := (Piece.spelling_of_fits fits).head
  have lexeme : (l.tokenAt p).lexeme.toList = l.text := String.toList_ofList
  have notEnd : (l.tokenAt p).isEof = false := by
    have other : l.kind ≠ .eof := by
      intro same
      rw [same] at start
      contradiction
    simpa [Lexeme.tokenAt, Token.isEof] using other
  have full : (l.tokenAt p).lexeme ≠ "" := by
    intro empty
    rw [empty, spelled] at lexeme
    contradiction
  show Covers p.offset (gapText [] ++ (l.text ++ text)) ([] :: gaps) (l.tokenAt p :: ts)
  rw [← lexeme]
  exact .cons .nil notEnd full rfl covers

theorem length_eq (covers : Covers n text gaps ts) : gaps.length = ts.length := by
  induction covers with
  | last => rfl
  | cons _ _ _ _ _ ih => simp [ih]

theorem ordered (covers : Covers n text gaps ts) :
    (∀ t ∈ ts, n ≤ t.position.offset) ∧
      ts.Pairwise fun t u => t.position.offset < t.stop ∧ t.stop ≤ u.position.offset := by
  induction covers with
  | last _ _ _ offset => simp [offset]
  | @cons n gap t rest gaps ts _ _ full offset _ ih =>
    obtain ⟨behind, sorted⟩ := ih
    have size : t.lexeme.utf8ByteSize ≠ 0 := by
      intro zero
      exact full (String.utf8ByteSize_eq_zero_iff.mp zero)
    have wide : t.position.offset < t.stop := by
      unfold Token.stop
      omega
    constructor
    · intro u hu
      rcases List.mem_cons.mp hu with rfl | hu
      · omega
      · have := behind u hu
        omega
    · refine List.pairwise_cons.mpr ⟨?_, sorted⟩
      intro u hu
      exact ⟨wide, behind u hu⟩

theorem ends (covers : Covers n text gaps ts) :
    ∃ words eof, ts = words ++ [eof] ∧ eof.isEof = true ∧ eof.lexeme = "" ∧
      eof.position.offset = n + utf8Length text ∧ ∀ t ∈ words, t.isEof = false ∧ t.lexeme ≠ "" := by
  induction covers with
  | @last _ _ eof _ isEnd empty offset => exact ⟨[], eof, rfl, isEnd, empty, offset, by simp⟩
  | @cons n gap t rest gaps ts _ notEnd full offset _ ih =>
    obtain ⟨words, eof, rfl, isEnd, empty, stop, others⟩ := ih
    refine ⟨t :: words, eof, rfl, isEnd, empty, ?_, ?_⟩
    · rw [stop, Token.stop, offset]
      simp only [utf8Length_append, utf8Length_toList, Nat.add_assoc]
    · exact List.forall_mem_cons.mpr ⟨⟨notEnd, full⟩, others⟩

theorem exists_split (covers : Covers n text gaps ts) {i : Nat} {t : Token} {gap : List Piece}
    (ht : ts[i]? = some t) (hg : gaps[i]? = some gap) :
    ∃ before after, text = before ++ (gapText gap ++ (t.lexeme.toList ++ after)) ∧
      (n :: ts.map Token.stop)[i]? = some (n + utf8Length before) ∧
      t.position.offset = n + utf8Length (before ++ gapText gap) ∧
      IsGap gap (t.lexeme.toList ++ after) := by
  induction covers generalizing i with
  | @last n gap' eof isGap _ empty offset =>
    cases i with
    | zero =>
      obtain rfl := Option.some.inj ht
      obtain rfl := Option.some.inj hg
      exact ⟨[], [], by simp [empty], rfl, offset, by simpa [empty] using isGap⟩
    | succ i => simp at ht
  | @cons n gap' t' rest gaps ts isGap _ _ offset covers ih =>
    cases i with
    | zero =>
      obtain rfl := Option.some.inj ht
      obtain rfl := Option.some.inj hg
      exact ⟨[], rest, rfl, rfl, offset, isGap⟩
    | succ i =>
      obtain ⟨before, after, rfl, stop, offset', isGap'⟩ := ih ht hg
      have passed : t'.stop = n + utf8Length (gapText gap' ++ t'.lexeme.toList) := by
        rw [Token.stop, offset, utf8Length_append, utf8Length_toList, Nat.add_assoc]
      refine ⟨gapText gap' ++ (t'.lexeme.toList ++ before), after, ?_, ?_, ?_, isGap'⟩
      · simp only [List.append_assoc]
      · rw [List.map_cons, List.getElem?_cons_succ, stop, passed, ← List.append_assoc,
          utf8Length_append _ before, Nat.add_assoc]
      · rw [offset', passed, Nat.add_assoc, ← utf8Length_append]
        simp only [List.append_assoc]

end Covers

/-- The gaps between the tokens of a source: what the tokens and the gaps make up, and which errors
are found. -/
structure Accounts (source : String) (s : Scan) (gaps : List (List Piece)) : Prop where
  /-- The last token, and no other, is the end; it has no text and stands behind the source. -/
  ends : ∃ words eof, s.tokens = words ++ [eof] ∧ eof.isEof = true ∧ eof.lexeme = "" ∧
    eof.position.offset = source.utf8ByteSize ∧ ∀ t ∈ words, t.isEof = false ∧ t.lexeme ≠ ""
  /-- A token stops behind its start, and no later token starts before that. -/
  ordered : s.tokens.Pairwise fun t u =>
    t.position.offset < t.stop ∧ t.stop ≤ u.position.offset
  /-- A gap stands in front of each token. -/
  length_eq : gaps.length = s.tokens.length
  /-- A gap starts where the token before it stops, or where the source starts, and behind the gap
  is the text of the token, at its offset. -/
  split : ∀ (i : Nat) (t : Token) (gap : List Piece),
    s.tokens[i]? = some t → gaps[i]? = some gap →
    ∃ before after, source.toList = before ++ (gapText gap ++ (t.lexeme.toList ++ after)) ∧
      (0 :: s.tokens.map Token.stop)[i]? = some (utf8Length before) ∧
      t.position.offset = utf8Length (before ++ gapText gap) ∧
      IsGap gap (t.lexeme.toList ++ after)
  /-- The messages are those about the wrong pieces in the gaps, one each and in order. -/
  reports : List.Forall₂ Diagnostic.IsAbout s.diagnostics
    (gaps.flatten.filterMap Piece.error?)

theorem exists_covers {p : Position} {text : List Char} {fragments : List Fragment}
    (tiles : Fragment.Tiles p text fragments) :
    ∃ gaps, Covers p.offset text gaps
        (fragments.filterMap Fragment.token? ++ [.eof (p.after text)]) ∧
      List.Forall₂ Diagnostic.IsAbout
        (fragments.filterMap Fragment.diagnostic?) (gaps.flatten.filterMap Piece.error?) := by
  induction tiles with
  | nil => exact ⟨[[]], .last .nil rfl rfl rfl, .nil⟩
  | @cons p piece rest fragments fits _ ih =>
    -- `gaps` are those behind the piece, which is put in front of all they cover
    obtain ⟨gaps, covers, reports⟩ := ih
    rw [Position.offset_after] at covers
    rw [Position.after_append]
    by_cases filler : ∀ l, piece ≠ .lexeme l
    · have noToken : Fragment.token? ⟨p, piece⟩ = none := by
        cases piece with
        | lexeme l => exact absurd rfl (filler l)
        | _ => rfl
      obtain ⟨gap, gaps, rfl, covers⟩ := covers.prepend filler fits
      refine ⟨(piece :: gap) :: gaps, ?_, ?_⟩
      · rwa [List.filterMap_cons_none noToken]
      · cases h : piece.error? with
        | none => simpa [Fragment.diagnostic?, h] using reports
        | some e =>
          have about : Diagnostic.IsAbout (e.onLine (p.after piece.text).line) e := rfl
          simpa [Fragment.diagnostic?, Fragment.stop, h] using List.Forall₂.cons about reports
    · obtain ⟨l, rfl⟩ : ∃ l, piece = .lexeme l := by simpa using filler
      exact ⟨[] :: gaps, covers.lexeme fits, reports⟩

/-- Nothing of a source is lost: it is made of its tokens and the gaps between them, and the wrong
pieces in the gaps are what is reported. -/
theorem exists_accounts (source : String) : ∃ gaps, Accounts source (ofSource source) gaps := by
  have tiles := Fragment.tiles_listFrom {} source.toList
  obtain ⟨gaps, covers, reports⟩ := exists_covers tiles
  have tokens : Covers 0 source.toList gaps (ofSource source).tokens := covers
  refine ⟨gaps, ?_, tokens.ordered.2, tokens.length_eq, ?_, reports⟩
  · simpa only [Nat.zero_add, utf8Length_toList] using tokens.ends
  · intro i t gap ht hg
    simpa only [Nat.zero_add] using tokens.exists_split ht hg

end Scan

end LoxExpr
