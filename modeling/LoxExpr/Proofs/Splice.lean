import LoxExpr.Proofs.UniqueTiling

/-!
Cutting a tiled text behind a fragment, and putting another text there.

`Fragment.Leads` is the tiling of the text before the cut, made with the text behind the cut in
view. A blank can be put behind the cut whatever was there before (`Fragment.Leads.before_blank`),
and the fragments behind it can be moved to another place (`Fragment.Tiles.shift`).
-/

set_option autoImplicit false
set_option relaxedAutoImplicit false

namespace LoxExpr

def IsBlank (c : Char) : Prop := c ∈ [' ', '\t', '\r', '\n']

def Position.shift (p : Position) (lines bytes : Nat) : Position where
  line := p.line + lines
  offset := p.offset + bytes

theorem Position.after_eq_shift (p : Position) (text : List Char) :
    p.after text = p.shift (text.count '\n') (utf8Length text) := by
  have line := p.line_after text
  have offset := p.offset_after text
  show (⟨(p.after text).line, (p.after text).offset⟩ : Position) = _
  rw [line, offset]
  rfl

theorem Position.after_shift (p : Position) (lines bytes : Nat) (text : List Char) :
    (p.shift lines bytes).after text = (p.after text).shift lines bytes := by
  simp only [after_eq_shift, shift, Position.mk.injEq]
  omega

theorem Position.after_insert (p : Position) (u w v : List Char) :
    p.after (u ++ (w ++ v)) = (p.after (u ++ v)).shift (w.count '\n') (utf8Length w) := by
  rw [after_append, after_append, after_append, after_eq_shift _ w, after_shift]

def Token.shift (t : Token) (lines bytes : Nat) : Token :=
  { t with position := t.position.shift lines bytes }

def Diagnostic.shift (d : Diagnostic) (lines : Nat) : Diagnostic :=
  { d with line := d.line + lines }

namespace Piece

variable {piece : Piece} {c : Char} {u v more : List Char}

/-- The piece may end before the given blank: a comment goes on to the end of its line, and a string
without an end does not end before anything. -/
def StopsAt (c : Char) : Piece → Prop
  | comment _ => c = '\n'
  | unterminated _ => False
  | _ => True

theorem text_ne_nil_of_fits (fits : piece.Fits v) : piece.text ≠ [] := by
  obtain ⟨c, tail, -, read⟩ := first_of_fits fits
  have := text_first_ne_nil c tail
  rwa [read] at this

theorem head_ne_newline_of_fits {l : Lexeme} (fits : (lexeme l).Fits v) :
    ∃ c w, l.text ++ v = c :: w ∧ c ≠ '\n' := by
  obtain ⟨c, w, same, read⟩ := first_of_fits fits
  refine ⟨c, w, same, ?_⟩
  rintro rfl
  have blank : first '\n' w = (Piece.blank '\n', w) := rfl
  rw [read] at blank
  cases congrArg Prod.fst blank

/-- A blank never takes the place of a character that a piece was kept from going on with. -/
theorem Fits.before_blank (fits : piece.Fits (u ++ v)) (blank : IsBlank c)
    (stops : u = [] → piece.StopsAt c) : piece.Fits (u ++ c :: more) := by
  have table : ([' ', '\t', '\r', '\n'].all fun c =>
      !(c == '/' || c == '=' || c == '.' || c.isDigit || isWordPart c)) = true := by
    decide
  obtain ⟨⟨⟨⟨slash, equal⟩, point⟩, digit⟩, part⟩ :
      (((c ≠ '/' ∧ c ≠ '=') ∧ c ≠ '.') ∧ c.isDigit = false) ∧ isWordPart c = false := by
    simpa using List.all_eq_true.mp table c blank
  -- the character behind the piece is the blank now, or the one that was there before
  have head : ∀ P : Char → Prop, (u = [] → P c) → (∀ d ∈ (u ++ v).head?, P d) →
      ∀ d ∈ (u ++ c :: more).head?, P d := by
    intro P new old d hd
    cases u with
    | nil =>
      obtain rfl := Option.some.inj hd
      exact new rfl
    | cons e u => exact old d hd
  cases piece with
  | lexeme l =>
    cases l with
    | symbol s =>
      constructor
      · intro hs
        have old := fits.1 hs
        have new := head (· ≠ '/') (fun _ => slash) (by rintro d hd rfl; exact old hd)
        exact fun hd => new _ hd rfl
      · intro hs
        have old := fits.2 hs
        have new := head (· ≠ '=') (fun _ => equal) (by rintro d hd rfl; exact old hd)
        exact fun hd => new _ hd rfl
    | string inner => exact fits
    | number whole fraction =>
      cases fraction with
      | nil =>
        obtain ⟨hw, stop, old⟩ := fits
        refine ⟨hw, head (·.isDigit = false) (fun _ => digit) stop, ?_⟩
        intro d rest same
        match u with
        | [] => exact absurd (List.cons.inj same).1 point
        | [e] =>
          obtain ⟨-, tail⟩ := List.cons.inj same
          exact (List.cons.inj tail).1 ▸ digit
        | e :: e' :: u =>
          obtain ⟨rfl, tail⟩ := List.cons.inj same
          obtain ⟨rfl, -⟩ := List.cons.inj tail
          exact old _ _ rfl
      | cons f fraction =>
        obtain ⟨hw, hf, stop⟩ := fits
        exact ⟨hw, hf, head (·.isDigit = false) (fun _ => digit) stop⟩
    | word letters => exact ⟨fits.1, head (isWordPart · = false) (fun _ => part) fits.2⟩
  | blank b => exact fits
  | comment body => exact ⟨fits.1, head (· = '\n') stops fits.2⟩
  | rejected b => exact fits
  | unterminated body =>
    obtain ⟨-, whole⟩ := fits
    exact (stops (List.append_eq_nil_iff.mp whole).1).elim

theorem Fits.lexeme_before_blank {l : Lexeme} (fits : (lexeme l).Fits []) (blank : IsBlank c)
    (more : List Char) : (lexeme l).Fits (c :: more) :=
  Fits.before_blank (u := []) (v := []) fits blank fun _ => trivial

theorem Fits.stopsAt {d : Char} (fits : piece.Fits (d :: v)) (other : d ≠ '\n') (c : Char) :
    piece.StopsAt c := by
  cases piece with
  | comment body => exact absurd (fits.2 d rfl) other
  | unterminated body => cases fits.2
  | _ => trivial

end Piece

namespace Fragment

variable {p : Position} {u v text : List Char} {fs gs : List Fragment}

def shift (f : Fragment) (lines bytes : Nat) : Fragment :=
  { f with start := f.start.shift lines bytes }

theorem token?_shift (f : Fragment) (lines bytes : Nat) :
    (f.shift lines bytes).token? = f.token?.map (·.shift lines bytes) := by
  obtain ⟨start, piece⟩ := f
  cases piece <;> rfl

theorem diagnostic?_shift (f : Fragment) (lines bytes : Nat) :
    (f.shift lines bytes).diagnostic? = f.diagnostic?.map (·.shift lines) := by
  have stop : (f.shift lines bytes).stop.line = f.stop.line + lines :=
    congrArg Position.line (Position.after_shift f.start lines bytes f.piece.text)
  obtain ⟨start, piece⟩ := f
  simp only [diagnostic?, stop, Option.map_map]
  rfl

theorem filterMap_token?_shift (fs : List Fragment) (lines bytes : Nat) :
    (fs.map (·.shift lines bytes)).filterMap token? =
      (fs.filterMap token?).map (·.shift lines bytes) := by
  rw [List.filterMap_map, List.map_filterMap]
  exact congrArg (fs.filterMap ·) (funext fun f => token?_shift f lines bytes)

theorem filterMap_diagnostic?_shift (fs : List Fragment) (lines bytes : Nat) :
    (fs.map (·.shift lines bytes)).filterMap diagnostic? =
      (fs.filterMap diagnostic?).map (·.shift lines) := by
  rw [List.filterMap_map, List.map_filterMap]
  exact congrArg (fs.filterMap ·) (funext fun f => diagnostic?_shift f lines bytes)

theorem Tiles.shift (tiles : Tiles p text fs) (lines bytes : Nat) :
    Tiles (p.shift lines bytes) text (fs.map (·.shift lines bytes)) := by
  induction tiles with
  | nil => exact .nil
  | cons fits _ ih =>
    refine .cons fits ?_
    rw [Position.after_shift]
    exact ih

/-- The fragments tile a text, each fitting before the rest of it and the text behind. -/
inductive Leads (behind : List Char) : Position → List Char → List Fragment → Prop
  | nil {p : Position} : Leads behind p [] []
  | cons {p : Position} {piece : Piece} {rest : List Char} {fragments : List Fragment} :
      piece.Fits (rest ++ behind) → Leads behind (p.after piece.text) rest fragments →
      Leads behind p (piece.text ++ rest) (⟨p, piece⟩ :: fragments)

theorem Leads.append (leads : Leads v p u fs) (tiles : Tiles (p.after u) v gs) :
    Tiles p (u ++ v) (fs ++ gs) := by
  induction leads with
  | nil => exact tiles
  | cons fits _ ih =>
    rw [List.append_assoc, List.cons_append]
    rw [Position.after_append] at tiles
    exact .cons fits (ih tiles)

theorem Tiles.exists_cut (tiles : Tiles p text (fs ++ gs)) :
    ∃ u v, text = u ++ v ∧ Leads v p u fs ∧ Tiles (p.after u) v gs := by
  induction fs generalizing p text with
  | nil => exact ⟨[], text, rfl, .nil, tiles⟩
  | cons f fs ih =>
    cases tiles with
    | @cons _ piece rest _ fits tail =>
      obtain ⟨u, v, rfl, leads, tiles⟩ := ih tail
      refine ⟨piece.text ++ u, v, (List.append_assoc ..).symm, .cons fits leads, ?_⟩
      rwa [Position.after_append]

theorem Tiles.leads (tiles : Tiles p u fs) : Leads [] p u fs := by
  rw [← List.append_nil fs] at tiles
  obtain ⟨u', v', rfl, leads, rest⟩ := tiles.exists_cut
  cases rest
  rwa [List.append_nil]

theorem Leads.eq_nil (leads : Leads v p [] fs) : fs = [] := by
  generalize whole : ([] : List Char) = u at leads
  cases leads with
  | nil => rfl
  | cons fits _ =>
    have empty := (List.append_eq_nil_iff.mp whole.symm).1
    exact absurd empty (Piece.text_ne_nil_of_fits fits)

theorem Leads.before_blank {c : Char} (leads : Leads v p u fs) (blank : IsBlank c)
    (stops : ∀ f ∈ fs.getLast?, f.piece.StopsAt c) (more : List Char) :
    Leads (c :: more) p u fs := by
  induction leads with
  | nil => exact .nil
  | @cons p piece rest fs fits tail ih =>
    have others : ∀ f ∈ fs.getLast?, f.piece.StopsAt c := by
      intro f hf
      apply stops
      rw [List.getLast?_cons, hf]
      rfl
    refine .cons (fits.before_blank blank ?_) (ih others)
    -- with nothing in between, the piece is the last one before the cut
    rintro rfl
    have last : fs = [] := tail.eq_nil
    subst last
    exact stops _ rfl

theorem Tiles.le_start (tiles : Tiles p text fs) {f : Fragment} (hf : f ∈ fs) :
    p.offset ≤ f.start.offset := by
  obtain ⟨before, after, -, start, -⟩ := tiles.exists_split_of_mem hf
  rw [start, Position.offset_after]
  exact Nat.le_add_right ..

theorem Leads.start_lt (leads : Leads v p u fs) {f : Fragment} (hf : f ∈ fs) :
    f.start.offset < (p.after u).offset := by
  induction leads with
  | nil => contradiction
  | @cons p piece rest fs fits tail ih =>
    rw [Position.after_append]
    rcases List.mem_cons.mp hf with rfl | hf
    · have size := utf8Length_pos (Piece.text_ne_nil_of_fits fits)
      simp only [Position.offset_after]
      omega
    · exact ih hf

end Fragment

theorem Scan.eof_eq_shift {source text : String} {lines bytes : Nat}
    (moved : Position.after {} text.toList = (Position.after {} source.toList).shift lines bytes) :
    (ofSource text).eof = (ofSource source).eof.shift lines bytes :=
  congrArg Token.eof moved

end LoxExpr
