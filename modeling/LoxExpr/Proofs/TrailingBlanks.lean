import LoxExpr.Proofs.LayoutInvariance

/-!
Blanks at the end of a source.

A comment and a string without an end take them in, and any other piece is done before them
(`Fragment.Tiles.append_blank`). As long as there is no line feed among them, a run makes nothing of
them (`Run.ofSource_append_blanks`).
-/

set_option autoImplicit false
set_option relaxedAutoImplicit false

namespace LoxExpr

theorem Diagnostic.MovesDown.eq {d d' : Diagnostic} (moved : MovesDown 0 d d') : d = d' := by
  obtain ⟨message, location, line⟩ := moved
  rw [Nat.add_zero, or_self] at line
  cases d
  cases d'
  simp_all

namespace Fragment

variable {p : Position} {text tail : List Char} {fs : List Fragment} {c : Char}

theorem Tiles.append_blank (tiles : Tiles p text fs) (blank : IsBlank c) (other : c ≠ '\n') :
    ∃ gs, Tiles p (text ++ [c]) gs ∧ gs.filterMap token? = fs.filterMap token? ∧
      gs.filterMap diagnostic? = fs.filterMap diagnostic? := by
  induction tiles with
  | @nil p => exact ⟨[⟨p, .blank c⟩], @Tiles.cons p (.blank c) _ _ blank .nil, rfl, rfl⟩
  | @cons p piece rest fs fits tail ih =>
    by_cases stops : rest = [] → piece.StopsAt c
    · obtain ⟨gs, tiles, words, errors⟩ := ih
      have fits' : piece.Fits (rest ++ [c]) :=
        Piece.Fits.before_blank (v := []) (by rwa [List.append_nil]) blank stops
      refine ⟨⟨p, piece⟩ :: gs, ?_, ?_, ?_⟩
      · rw [List.append_assoc]
        exact .cons fits' tiles
      · rw [List.filterMap_cons, words, List.filterMap_cons]
      · rw [List.filterMap_cons, errors, List.filterMap_cons]
    · -- the last piece goes on to the end, wherever that is
      obtain ⟨rfl, goesOn⟩ := Classical.not_imp.mp stops
      obtain rfl := tail.leads.eq_nil
      cases piece with
      | comment body =>
        have fits' : (Piece.comment (body ++ [c])).Fits [] :=
          ⟨by simp [fits.1, Ne.symm other], by simp⟩
        exact ⟨[⟨p, .comment (body ++ [c])⟩], by simpa [Piece.text] using Tiles.cons fits' .nil,
          rfl, rfl⟩
      | unterminated body =>
        have notQuote : c ≠ '"' := by
          rintro rfl
          simp [IsBlank] at blank
        have fits' : (Piece.unterminated (body ++ [c])).Fits [] :=
          ⟨by simp [fits.1, Ne.symm notQuote], rfl⟩
        refine ⟨[⟨p, .unterminated (body ++ [c])⟩],
          by simpa [Piece.text] using Tiles.cons fits' .nil, rfl, ?_⟩
        have line : (p.after ('"' :: (body ++ [c]))).line = (p.after ('"' :: body)).line := by
          simp [Position.line_after, List.count_append, other]
        have error : (⟨p, .unterminated (body ++ [c])⟩ : Fragment).diagnostic? =
            (⟨p, .unterminated body⟩ : Fragment).diagnostic? :=
          congrArg (fun line => some (LexicalError.unterminatedString.onLine line)) line
        rw [List.filterMap_cons, error, List.filterMap_cons]
      | _ => exact absurd trivial goesOn

theorem Tiles.append_blanks (tiles : Tiles p text fs)
    (blanks : ∀ c ∈ tail, IsBlank c ∧ c ≠ '\n') :
    ∃ gs, Tiles p (text ++ tail) gs ∧ gs.filterMap token? = fs.filterMap token? ∧
      gs.filterMap diagnostic? = fs.filterMap diagnostic? := by
  induction tail generalizing text fs with
  | nil => exact ⟨fs, by rwa [List.append_nil], rfl, rfl⟩
  | cons c tail ih =>
    obtain ⟨⟨blank, other⟩, blanks⟩ := List.forall_mem_cons.mp blanks
    obtain ⟨gs, tiles, words, errors⟩ := tiles.append_blank blank other
    obtain ⟨hs, tiles, words', errors'⟩ := ih tiles blanks
    exact ⟨hs, by rwa [List.append_cons], words'.trans words, errors'.trans errors⟩

end Fragment

variable {source text : String} {tail : List Char}

theorem Scan.relocated_append_blanks (whole : text.toList = source.toList ++ tail)
    (blanks : ∀ c ∈ tail, IsBlank c ∧ c ≠ '\n') :
    Relocated (Token.placeFrom source.utf8ByteSize 0 (utf8Length tail)) 0 (ofSource source)
      (ofSource text) := by
  have tiles := Fragment.tiles_listFrom {} source.toList
  obtain ⟨gs, longer, words, errors⟩ := tiles.append_blanks blanks
  rw [← whole] at longer
  have fragments : (ofSource text).fragments = gs := longer.eq_listFrom.symm
  have stop : (Position.after {} source.toList).offset = source.utf8ByteSize := by
    rw [Position.offset_after, utf8Length_toList, Nat.zero_add]
  constructor
  · have stay : ∀ t ∈ (ofSource source).words,
        t.relocate (Token.placeFrom source.utf8ByteSize 0 (utf8Length tail)) = t := by
      intro t ht
      obtain ⟨f, hf, token⟩ := List.mem_filterMap.mp ht
      apply relocate_of_lt
      rw [Fragment.position_of_token? token, ← stop]
      exact tiles.leads.start_lt hf
    rw [Scan.words, fragments, words]
    exact ((List.map_congr_left stay).trans (List.map_id' _)).symm
  · have last : source.utf8ByteSize ≤ (ofSource source).eof.position.offset := Nat.le_of_eq stop.symm
    have none : tail.count '\n' = 0 := List.count_eq_zero.mpr fun feed => (blanks _ feed).2 rfl
    rw [relocate_of_le last]
    apply eof_eq_shift
    rw [whole, Position.after_append, Position.after_eq_shift _ tail, none]
  · rw [Scan.diagnostics, Scan.diagnostics, fragments, errors]
    exact List.forall₂_same.mpr fun d _ => ⟨rfl, rfl, .inl rfl⟩

theorem Run.ofSource_append_blanks (whole : text.toList = source.toList ++ tail)
    (blanks : ∀ c ∈ tail, IsBlank c ∧ c ≠ '\n') (listTokens : Bool) (j : Journal) (o : Sink) :
    ofSource text listTokens j o = ofSource source listTokens j o := by
  have moves : ∀ t : Token, (t.placeFrom source.utf8ByteSize 0 (utf8Length tail)).line =
      t.position.line ∨ (t.placeFrom source.utf8ByteSize 0 (utf8Length tail)).line =
        t.position.line + 0 := by
    intro t
    unfold Token.placeFrom
    split <;> exact .inl rfl
  obtain ⟨output, completed, ds, ds', journal, journal', moved⟩ :=
    ofSource_relocated (Scan.relocated_append_blanks whole blanks) moves listTokens j o
  have same : ds = ds' := List.forall₂_eq_eq_eq ▸ moved.imp fun _ _ moved => moved.eq
  show (⟨(ofSource text listTokens j o).journal, (ofSource text listTokens j o).output,
    (ofSource text listTokens j o).completed⟩ : Run) = _
  rw [output, completed, journal', ← same, ← journal]

end LoxExpr
