import LoxExpr.Proofs.Transcript
import LoxExpr.Proofs.WrittenOut

/-!
The list of tokens can be told apart from what is written behind it, and read back.

The name of a kind is a word. So both it and the text of a token, which stands behind it, end where
scanning would end them, at the blank that follows (`IsLexeme.eq_of_append_blank`), whatever blanks
and names there are in a string. The text of a token settles its kind and its value, and the end is
the one token without a text.
-/

set_option autoImplicit false
set_option relaxedAutoImplicit false

namespace LoxExpr

theorem IsLexeme.eq_of_append_blank {w w' x x' : List Char} {c c' : Char} (h : IsLexeme w)
    (h' : IsLexeme w') (blank : IsBlank c) (blank' : IsBlank c')
    (same : w ++ c :: x = w' ++ c' :: x') : w = w' ∧ c :: x = c' :: x' := by
  obtain ⟨kind, spelling⟩ := h
  obtain ⟨kind', spelling'⟩ := h'
  obtain ⟨l, rfl, fits⟩ := spelling.exists_fits
  obtain ⟨l', rfl, fits'⟩ := spelling'.exists_fits
  -- both are the first piece of the text
  obtain ⟨d, text, cut, read⟩ := Piece.first_of_fits (fits.lexeme_before_blank blank x)
  obtain ⟨d', text', cut', read'⟩ := Piece.first_of_fits (fits'.lexeme_before_blank blank' x')
  obtain ⟨rfl, rfl⟩ := List.cons.inj (cut.symm.trans (same.trans cut'))
  obtain ⟨piece, rest⟩ := Prod.mk.inj (read.symm.trans read')
  exact ⟨congrArg Piece.text piece, rest⟩

theorem Word.isLexeme {w : List Char} (h : Word w) : IsLexeme w := by
  have fits : (Piece.lexeme (.word w)).Fits [] := ⟨h, by simp⟩
  exact ⟨_, Piece.spelling_of_fits fits⟩

namespace Token

theorem Kind.mem_all (kind : Kind) : kind ∈ all := by
  cases kind with
  | symbol s => cases s <;> decide
  | keyword k => cases k <;> decide
  | _ => decide

theorem Kind.word_name (kind : Kind) : Word kind.name.toList := by
  have table : (all.all fun kind =>
      !kind.name.toList.isEmpty && kind.name.toList.all Char.isAlpha) = true := by
    decide
  obtain ⟨some, letters⟩ : kind.name.toList ≠ [] ∧ ∀ c ∈ kind.name.toList, c.isAlpha = true := by
    simpa using List.all_eq_true.mp table kind kind.mem_all
  obtain ⟨c, v, same⟩ := List.exists_cons_of_ne_nil some
  rw [same] at letters ⊢
  obtain ⟨first, others⟩ := List.forall_mem_cons.mp letters
  refine ⟨c, v, rfl, .inl first, fun d hd => .inl ?_⟩
  rw [Char.isAlphanum, others d hd, Bool.true_or]

variable {t t' : Token} {w w' x x' : List Char}

theorem IsOf.exists_listing_eq (h : t.IsOf w) : ∃ c v, IsBlank c ∧
    t.listing.toList = t.kind.name.toList ++ ' ' :: (w ++ c :: v) := by
  obtain ⟨d, u, rfl, -⟩ := h.spelling.head
  have some : t.lexeme ≠ "" := by
    intro none
    have text := h.text
    rw [none] at text
    cases text
  cases value : t.literal? with
  | none =>
    refine ⟨'\n', [], by simp [IsBlank], ?_⟩
    simp [listing, value, some, h.text]
  | some value' =>
    refine ⟨' ', value'.text.toList ++ ['\n'], by simp [IsBlank], ?_⟩
    simp [listing, value, h.text]

theorem toList_listing_eof (p : Position) :
    (eof p).listing.toList = Kind.eof.name.toList ++ ['\n'] := by
  simp [listing, eof]

theorem listing_congr (h : t.content = t'.content) : t.listing = t'.listing := by
  obtain ⟨kind, rest⟩ := Prod.mk.inj h
  obtain ⟨lexeme, value⟩ := Prod.mk.inj rest
  rw [listing, listing, kind, lexeme, value]

theorem IsOf.content_eq_of_listing (h : t.IsOf w) (h' : t'.IsOf w')
    (same : t.listing.toList ++ x = t'.listing.toList ++ x') : t.content = t'.content ∧ x = x' := by
  obtain ⟨c, v, blank, line⟩ := h.exists_listing_eq
  obtain ⟨c', v', blank', line'⟩ := h'.exists_listing_eq
  have space : IsBlank ' ' := .head _
  have cut := same
  simp only [line, line', List.append_assoc, List.cons_append] at cut
  -- first the name of the kind is cut off, then the text
  obtain ⟨-, rest⟩ := t.kind.word_name.isLexeme.eq_of_append_blank t'.kind.word_name.isLexeme
    space space cut
  have texts := (List.cons.inj rest).2
  obtain ⟨rfl, -⟩ := IsLexeme.eq_of_append_blank ⟨_, h.spelling⟩ ⟨_, h'.spelling⟩ blank blank' texts
  have content := h'.content_eq h
  rw [listing_congr content] at same
  exact ⟨content, List.append_cancel_left same⟩

theorem IsOf.listing_ne_end (h : t.IsOf w) {p : Position} :
    t.listing.toList ++ x ≠ (eof p).listing.toList ++ x' := by
  intro same
  obtain ⟨c, v, -, line⟩ := h.exists_listing_eq
  rw [line, toList_listing_eof, List.append_assoc, List.append_assoc] at same
  obtain ⟨-, rest⟩ := t.kind.word_name.isLexeme.eq_of_append_blank Kind.eof.word_name.isLexeme
    (.head _) (by simp [IsBlank]) same
  cases (List.cons.inj rest).1

theorem map_content_eq_of_listing {ts ts' : List Token} (isOf : ∀ t ∈ ts, t.IsOf t.lexeme.toList)
    (isOf' : ∀ t ∈ ts', t.IsOf t.lexeme.toList) {p p' : Position}
    (same : ts.flatMap (·.listing.toList) ++ ((eof p).listing.toList ++ x) =
      ts'.flatMap (·.listing.toList) ++ ((eof p').listing.toList ++ x')) :
    ts.map content = ts'.map content ∧ x = x' := by
  induction ts generalizing ts' with
  | nil =>
    cases ts' with
    | nil => exact ⟨rfl, List.append_cancel_left same⟩
    | cons t' ts' =>
      rw [List.flatMap_cons, List.append_assoc] at same
      exact absurd same.symm (isOf' t' List.mem_cons_self).listing_ne_end
  | cons t ts ih =>
    obtain ⟨first, others⟩ := List.forall_mem_cons.mp isOf
    rw [List.flatMap_cons, List.append_assoc] at same
    cases ts' with
    | nil => exact absurd same first.listing_ne_end
    | cons t' ts' =>
      obtain ⟨first', others'⟩ := List.forall_mem_cons.mp isOf'
      rw [List.flatMap_cons, List.append_assoc] at same
      obtain ⟨head, tail⟩ := first.content_eq_of_listing first' same
      obtain ⟨rest, behind⟩ := ih others others' tail
      exact ⟨by rw [List.map_cons, List.map_cons, head, rest], behind⟩

end Token

namespace Scan

theorem map_content_eq_of_listing {s s' : String} {x x' : String}
    (same : String.join ((ofSource s).tokens.map Token.listing) ++ x =
      String.join ((ofSource s').tokens.map Token.listing) ++ x') :
    (ofSource s).tokens.map Token.content = (ofSource s').tokens.map Token.content ∧ x = x' := by
  have texts := congrArg String.toList same
  simp only [String.toList_append, String.toList_join, tokens, List.map_append, List.map_cons,
    List.map_nil, List.flatMap_append, List.flatMap_map, List.flatMap_cons, List.flatMap_nil,
    List.append_nil, List.append_assoc] at texts
  obtain ⟨words, behind⟩ := Token.map_content_eq_of_listing
    (fun t ht => isOf_of_mem_words ht) (fun t ht => isOf_of_mem_words ht) texts
  refine ⟨?_, String.toList_inj.mp behind⟩
  rw [tokens, tokens, List.map_append, List.map_append, words]
  rfl

end Scan

namespace Run

/-- The list of tokens stands in front of what is written anyway, and the tokens can be read back
from the two together.

With room for everything, a run with the list records what it records without the list. It writes
the line of each token of the source, up to the end, and then what it writes without the list. Runs
of two sources, on whatever journals, write the same with the list only if the sources have the same
tokens but for their places. -/
theorem ofSource_listing_decodable {o o' : Sink} (unlimited : o.capacity? = none)
    (unlimited' : o'.capacity? = none) :
    (∀ (source : String) (j : Journal), ∃ (journal : Journal) (written : ByteArray),
      ofSource source false j o = ⟨journal, { o with received := o.received ++ written }, true⟩ ∧
      ofSource source true j o = ⟨journal, { o with received := o.received ++
        ((String.join ((Scan.ofSource source).tokens.map Token.listing)).toUTF8 ++ written) },
        true⟩) ∧
    ∀ (source source' : String) (j j' : Journal) (written : ByteArray),
      (ofSource source true j o).output.received = o.received ++ written →
      (ofSource source' true j' o').output.received = o'.received ++ written →
      (Scan.ofSource source).tokens.map Token.content =
        (Scan.ofSource source').tokens.map Token.content := by
  have joined : ∀ (source : String) (j : Journal),
      String.join ((Scan.ofSource source).texts true j.hasErrors) =
        String.join ((Scan.ofSource source).tokens.map Token.listing) ++
          String.join ((Scan.ofSource source).texts false j.hasErrors) := by
    intro source j
    simp [Scan.texts, Scan.listing, String.join_append]
  constructor
  · intro source j
    refine ⟨_, _, ofSource_of_capacity_none source false j unlimited, ?_⟩
    rw [ofSource_of_capacity_none source true j unlimited, joined]
    simp
  · intro source source' j j' written same same'
    rw [ofSource_of_capacity_none _ _ _ unlimited, joined] at same
    rw [ofSource_of_capacity_none _ _ _ unlimited', joined] at same'
    have bytes := (ByteArray.append_right_inj _).mp same
    have bytes' := (ByteArray.append_right_inj _).mp same'
    have texts := String.toByteArray_inj.mp (bytes.trans bytes'.symm)
    exact (Scan.map_content_eq_of_listing texts).1

theorem ofSource_listing_decodable_end_in_string :
    let source := "\"\nEof\n\"==1"
    let source' := "\"\nEof\n\" == 1 //"
    let written := (ofSource source true {} {}).output.received
    ({} : Sink).capacity? = none ∧
      written = ({} : Sink).received ++ written ∧
      (ofSource source' true {} {}).output.received = ({} : Sink).received ++ written ∧
      (Scan.ofSource source).tokens.map Token.content =
        (Scan.ofSource source').tokens.map Token.content := by
  intro source source' written
  have first : written = ({} : Sink).received ++ written := ByteArray.empty_append.symm
  have second : (ofSource source' true {} {}).output.received =
      ({} : Sink).received ++ written := by
    rw [← first]
    decide +kernel
  exact ⟨rfl, first, second,
    (ofSource_listing_decodable rfl rfl).2 source source' {} {} written first second⟩

end Run

end LoxExpr
