import LoxExpr.Proofs.CursorPlaces
import LoxExpr.Proofs.Guarded
import LoxExpr.Proofs.MaximalMunch
import LoxExpr.Proofs.Transcript
import LoxExpr.Proofs.UniqueTiling

/-!
A scan with two cursors meets no breach and finds the pieces of the source.

While a piece is scanned, the cursors stand before it and behind what has been read of it
(`Scanner.inside`), so the text between them is that part of the source. One piece leads from there to
the place behind it (`Scanner.piece_inside`), and so the pieces of the whole source are found
(`scan_eq`). The only thing asked for is that numbers can be read; what they read as is left open.
-/

set_option autoImplicit false
set_option relaxedAutoImplicit false

namespace LoxExpr

/-- A reader of numbers takes any digits, also with a point and further digits behind them. -/
def AcceptsDecimals (read? : String → Option Binary64) : Prop :=
  ∀ w, Token.Kind.Spelling .number w → (read? (String.ofList w)).isSome = true

def ReadsNearest (read? : String → Option Binary64) : Prop :=
  ∀ whole fraction, Digits whole → (fraction = [] ∨ Digits fraction) →
    read? (String.ofList (Lexeme.number whole fraction).text) =
      some (Decimal.ofDigits whole fraction).toBinary64

def Token.revalue (read? : String → Option Binary64) (t : Token) : Token :=
  if t.kind = .number then { t with literal? := (read? t.lexeme).map .number } else t

theorem Token.revalue_of_ne {read? : String → Option Binary64} {t : Token}
    (other : t.kind ≠ .number) : t.revalue read? = t :=
  if_neg other

theorem Token.revalue_eof {read? : String → Option Binary64} (p : Position) :
    (eof p).revalue read? = eof p :=
  revalue_of_ne (show Token.Kind.eof ≠ .number by decide)

theorem Piece.firstNumber_eq (digits rest : List Char) :
    firstNumber digits rest =
      if rest.head? = some '.' ∧ rest.tail.head?.any Char.isDigit = true then
        (lexeme (.number digits (rest.tail.takeWhile Char.isDigit)),
          rest.tail.dropWhile Char.isDigit)
      else
        (lexeme (.number digits []), rest) := by
  unfold firstNumber
  split
  · rename_i d after
    by_cases digit : d.isDigit <;> simp [digit]
  · rename_i noPoint
    rw [if_neg]
    rintro ⟨point, digit⟩
    obtain ⟨tail, rfl⟩ := List.head?_eq_some_iff.mp point
    obtain ⟨d, next, -⟩ := (Option.any_eq_true _ _).mp digit
    obtain ⟨more, same⟩ := List.head?_eq_some_iff.mp next
    exact noPoint d more (congrArg ('.' :: ·) same)

namespace Guarded

theorem slice_of_split {text : String} {before part after : List Char}
    (cut : text.toList = before ++ (part ++ after)) :
    slice text (utf8Length before) (utf8Length before + utf8Length part) =
      .ok (String.ofList part) := by
  have whole : text = String.ofList before ++ (String.ofList part ++ String.ofList after) := by
    rw [← String.ofList_append, ← String.ofList_append, ← cut, String.ofList_toList]
  have start : String.Pos.Raw.isValid text ⟨utf8Length before⟩ = true :=
    String.Pos.Raw.isValid_eq_true_iff.mpr
      (String.Pos.Raw.isValid_iff_exists_append.mpr ⟨_, _, whole, rfl⟩)
  have stop : String.Pos.Raw.isValid text ⟨utf8Length before + utf8Length part⟩ = true := by
    rw [← String.append_assoc, ← String.ofList_append] at whole
    rw [← utf8Length_append]
    exact String.Pos.Raw.isValid_eq_true_iff.mpr
      (String.Pos.Raw.isValid_iff_exists_append.mpr ⟨_, _, whole, rfl⟩)
  rw [slice, if_pos ⟨Nat.le_add_right .., start, stop⟩, fromUTF8?_extract_of_split cut]

-- a cut within a character is a breach
example : slice "é" 0 1 = .error .slice := by cbv

theorem slice_string (inner : List Char) :
    let lexeme := String.ofList (Lexeme.string inner).text
    slice lexeme 1 (lexeme.utf8ByteSize - 1) = .ok (String.ofList inner) := by
  intro lexeme
  have quote : utf8Length ['"'] = 1 := rfl
  have cut : lexeme.toList = ['"'] ++ (inner ++ ['"']) := String.toList_ofList
  have size : lexeme.utf8ByteSize - 1 = utf8Length ['"'] + utf8Length inner := by
    rw [← utf8Length_toList, cut, utf8Length_append, utf8Length_append, quote]
    omega
  rw [size]
  exact slice_of_split cut

namespace Scanner

/-- The scanner that has the text up to the current piece behind it, and has read a part of that
piece. -/
def inside (source : String) (before read left : List Char) (tokens : List Token)
    (journal : Journal) : Scanner :=
  ⟨.behind source before (read ++ left), .behind source (before ++ read) left, tokens, journal⟩

variable {read? : String → Option Binary64} {source : String} {before read left rest : List Char}
  {tokens : List Token} {journal : Journal} {c : Char}

theorem skipWhile_inside (test : Char → Bool) :
    (inside source before read left tokens journal).skipWhile test =
      inside source before (read ++ left.takeWhile test) (left.dropWhile test) tokens journal := by
  simp only [skipWhile, inside, Cursor.skipWhile_behind, List.append_assoc,
    List.takeWhile_append_dropWhile]

theorem moved_inside :
    { inside source before read (c :: left) tokens journal with
        current := .behind source (before ++ read ++ [c]) left } =
      inside source before (read ++ [c]) left tokens journal := by
  simp only [inside, List.append_assoc, List.cons_append, List.nil_append]

theorem accept_inside_cons :
    (inside source before read (c :: left) tokens journal).current.accept c =
      (true, .behind source (before ++ read ++ [c]) left) :=
  Cursor.accept_behind_cons

theorem accept_inside_of_ne (other : left.head? ≠ some c) :
    (inside source before read left tokens journal).current.accept c =
      (false, .behind source (before ++ read) left) :=
  Cursor.accept_behind_of_ne other

theorem peek?_inside :
    (inside source before read left tokens journal).current.peek? = left.head? := rfl

theorem peekSecond?_inside :
    (inside source before read left tokens journal).current.peekSecond? = left.tail.head? := rfl

theorem next_inside :
    (inside source before read (c :: left) tokens journal).current.next.2 =
      .behind source (before ++ read ++ [c]) left :=
  congrArg Prod.snd Cursor.next_behind_cons

theorem report_inside (e : LexicalError) :
    (inside source before read left tokens journal).report e =
      inside source before read left tokens
        (journal.record (e.onLine ((Position.after {} before).after read).line)) := by
  rw [← Position.after_append]
  rfl

theorem lexeme_inside (cut : source.toList = before ++ (read ++ left)) :
    (inside source before read left tokens journal).lexeme = .ok (String.ofList read) := by
  have stop : (inside source before read left tokens journal).current.offset =
      utf8Length before + utf8Length read := by
    rw [inside, Cursor.offset_behind, utf8Length_append]
  rw [lexeme, stop, inside, Cursor.offset_behind]
  exact (if_pos rfl).trans (slice_of_split cut)

theorem push_inside (cut : source.toList = before ++ (read ++ left)) (kind : Token.Kind)
    (literal? : Option Literal) :
    (inside source before read left tokens journal).push kind literal? =
      .ok (inside source before read left
        (tokens ++ [⟨kind, String.ofList read, literal?, Position.after {} before⟩]) journal) := by
  rw [push, lexeme_inside cut]
  rfl

def found (read? : String → Option Binary64) (source : String) (before : List Char)
    (tokens : List Token) (journal : Journal) (first : Piece × List Char) : Scanner :=
  let f : Fragment := ⟨.after {} before, first.1⟩
  inside source before first.1.text first.2 (tokens ++ f.token?.toList.map (·.revalue read?))
    (journal.recordAll f.diagnostic?.toList)

theorem found_of_silent (piece : Piece) (noLexeme : ∀ l, piece ≠ .lexeme l)
    (right : piece.error? = none) :
    found read? source before tokens journal (piece, left) =
      inside source before piece.text left tokens journal := by
  cases piece with
  | lexeme l => exact absurd rfl (noLexeme l)
  | _ => simp [found, Fragment.token?, Fragment.diagnostic?, right, Journal.recordAll]

theorem found_of_error (piece : Piece) {e : LexicalError}
    (wrong : piece.error? = some e) :
    found read? source before tokens journal (piece, left) =
      (inside source before piece.text left tokens journal).report e := by
  cases piece with
  | rejected | unterminated =>
    simp [found, Fragment.token?, Fragment.diagnostic?, wrong, Fragment.stop, Journal.recordAll,
      report_inside]
  | _ => contradiction

theorem push_lexeme (l : Lexeme) {kind : Token.Kind}
    (cut : source.toList = before ++ (l.text ++ left)) (same : l.kind = kind)
    (other : kind ≠ .number) :
    (inside source before l.text left tokens journal).push kind l.literal? =
      .ok (found read? source before tokens journal (.lexeme l, left)) := by
  subst same
  have token : (l.tokenAt (Position.after {} before)).revalue read? = _ :=
    Token.revalue_of_ne other
  rw [push_inside cut, found, Fragment.token?, Option.toList_some, List.map_singleton, token]
  rfl

theorem pushString_inside {inner : List Char}
    (cut : source.toList = before ++ ((Lexeme.string inner).text ++ left)) :
    (inside source before (Lexeme.string inner).text left tokens journal).pushString =
      .ok (found read? source before tokens journal (.lexeme (.string inner), left)) := by
  simp only [pushString, lexeme_inside cut, slice_string, bind, Except.bind]
  exact push_lexeme (.string inner) cut rfl (by decide)

theorem string_inside (cut : source.toList = before ++ '"' :: rest) :
    (inside source before ['"'] rest tokens journal).string =
      .ok (found read? source before tokens journal (Piece.firstString rest)) := by
  have split := List.takeWhile_append_dropWhile (p := (· != '"')) (l := rest)
  unfold string Piece.firstString
  simp only [skipWhile_inside]
  cases tail : rest.dropWhile (· != '"') with
  | nil =>
    rw [tail, List.append_nil] at split
    have ends : ([] : List Char).head? ≠ some '"' := by decide
    simp only [split, accept_inside_of_ne ends]
    rw [found_of_error (.unterminated rest) rfl]
    rfl
  | cons c after =>
    obtain rfl : c = '"' := by
      have := List.head_dropWhile_not (p := (· != '"')) (l := rest) (by simp [tail])
      simpa [tail] using this
    generalize rest.takeWhile (· != '"') = inner at split ⊢
    have cut' : source.toList = before ++ ((Lexeme.string inner).text ++ after) := by
      rw [cut, ← split, tail]
      simp [Lexeme.text]
    simp only [accept_inside_cons, moved_inside]
    exact pushString_inside cut'

theorem pushNumber_inside (accepts : AcceptsDecimals read?) {whole fraction : List Char}
    (cut : source.toList = before ++ ((Lexeme.number whole fraction).text ++ left))
    (fits : (Piece.lexeme (.number whole fraction)).Fits left) :
    (inside source before (Lexeme.number whole fraction).text left tokens journal).pushNumber read? =
      .ok (found read? source before tokens journal (.lexeme (.number whole fraction), left)) := by
  obtain ⟨value, read⟩ := Option.isSome_iff_exists.mp (accepts _ (Piece.spelling_of_fits fits))
  have token : ((Lexeme.number whole fraction).tokenAt (Position.after {} before)).revalue read? =
      ⟨.number, String.ofList (Lexeme.number whole fraction).text, some (.number value),
        Position.after {} before⟩ := by
    refine (if_pos rfl).trans ?_
    rw [Lexeme.tokenAt, read]
    rfl
  simp only [pushNumber, lexeme_inside cut, read, bind, Except.bind]
  rw [found, Fragment.token?, Option.toList_some, List.map_singleton, token]
  exact push_inside cut _ _

theorem number_inside (accepts : AcceptsDecimals read?) (cut : source.toList = before ++ c :: rest)
    (fits : (Piece.firstNumber (c :: rest.takeWhile Char.isDigit)
        (rest.dropWhile Char.isDigit)).1.Fits
      (Piece.firstNumber (c :: rest.takeWhile Char.isDigit) (rest.dropWhile Char.isDigit)).2) :
    (inside source before [c] rest tokens journal).number read? =
      .ok (found read? source before tokens journal
        (Piece.firstNumber (c :: rest.takeWhile Char.isDigit) (rest.dropWhile Char.isDigit))) := by
  have split := List.takeWhile_append_dropWhile (p := Char.isDigit) (l := rest)
  unfold number
  simp only [skipWhile_inside, peek?_inside, peekSecond?_inside]
  generalize rest.takeWhile Char.isDigit = digits at split fits ⊢
  generalize rest.dropWhile Char.isDigit = after at split fits ⊢
  subst split
  rw [Piece.firstNumber_eq] at fits ⊢
  by_cases point : after.head? = some '.' ∧ after.tail.head?.any Char.isDigit = true
  · rw [if_pos point] at fits
    rw [if_pos point, if_pos point]
    obtain ⟨more, rfl⟩ := List.head?_eq_some_iff.mp point.1
    have text : (Lexeme.number (c :: digits) (more.takeWhile Char.isDigit)).text =
        [c] ++ digits ++ ['.'] ++ more.takeWhile Char.isDigit := by
      obtain ⟨d, next, digit⟩ := (Option.any_eq_true _ _).mp point.2
      obtain ⟨tail, rfl⟩ := List.head?_eq_some_iff.mp next
      simp [Lexeme.text, digit]
    rw [next_inside, moved_inside, skipWhile_inside, ← text]
    refine pushNumber_inside accepts ?_ fits
    rw [cut, text]
    simp
  · rw [if_neg point] at fits
    rw [if_neg point, if_neg point]
    have text : (Lexeme.number (c :: digits) []).text = [c] ++ digits := rfl
    rw [← text]
    refine pushNumber_inside accepts ?_ fits
    rw [cut, text]
    rfl

theorem word_inside (cut : source.toList = before ++ c :: rest) :
    (inside source before [c] rest tokens journal).word =
      .ok (found read? source before tokens journal
        (.lexeme (.word (c :: rest.takeWhile Piece.isWordPart)),
          rest.dropWhile Piece.isWordPart)) := by
  have cut' : source.toList = before ++
      (c :: rest.takeWhile Piece.isWordPart ++ rest.dropWhile Piece.isWordPart) := by
    rw [cut, List.cons_append, List.takeWhile_append_dropWhile]
  unfold word
  simp only [skipWhile_inside]
  generalize rest.takeWhile Piece.isWordPart = letters at cut' ⊢
  generalize rest.dropWhile Piece.isWordPart = after at cut' ⊢
  have text : [c] ++ letters = c :: letters := rfl
  simp only [text, lexeme_inside cut', bind, Except.bind]
  cases keyword : Keyword.ofText? (String.ofList (c :: letters)) with
  | some k =>
    have kind : (Lexeme.word (c :: letters)).kind = .keyword k := by rw [Lexeme.kind, keyword]
    exact push_lexeme (.word (c :: letters)) cut' kind (by simp)
  | none =>
    have kind : (Lexeme.word (c :: letters)).kind = .identifier := by rw [Lexeme.kind, keyword]
    exact push_lexeme (.word (c :: letters)) cut' kind (by decide)

theorem push_symbol {s : Symbol} (text : s.text = [c]) (cut : source.toList = before ++ c :: rest) :
    (inside source before [c] rest tokens journal).push (.symbol s) none =
      .ok (found read? source before tokens journal (.lexeme (.symbol s), rest)) := by
  have self : [c] = (Lexeme.symbol s).text := text.symm
  have whole : source.toList = before ++ ((Lexeme.symbol s).text ++ rest) := by
    rw [cut, ← self]
    rfl
  rw [self]
  exact push_lexeme (.symbol s) whole rfl (by simp)

theorem symbol_inside {s : Symbol} (text : s.text = [c])
    (cut : source.toList = before ++ c :: rest) :
    (inside source before [c] rest tokens journal).symbol s =
      .ok (found read? source before tokens journal (Piece.firstSymbol s rest)) := by
  unfold symbol
  split
  · obtain rfl : '/' = c := (List.cons.inj text).1
    by_cases second : rest.head? = some '/'
    · obtain ⟨after, rfl⟩ := List.head?_eq_some_iff.mp second
      simp only [accept_inside_cons, moved_inside, skipWhile_inside, Piece.firstSymbol]
      rw [found_of_silent (.comment _) (by simp) rfl]
      rfl
    · have alone : Piece.firstSymbol .slash rest = (.lexeme (.symbol .slash), rest) :=
        Piece.firstSymbol_alone (fun _ => second) fun fused => absurd fused (by decide)
      simp only [accept_inside_of_ne second, alone]
      exact push_symbol text cut
  · rename_i notSlash
    have slash : s = .slash → rest.head? ≠ some '/' := fun same => absurd same notSlash
    split
    · rename_i none
      have alone : Piece.firstSymbol s rest = (.lexeme (.symbol s), rest) :=
        Piece.firstSymbol_alone slash fun fused => absurd fused (Piece.not_mem_of_withEqual? none)
      rw [alone]
      exact push_symbol text cut
    · rename_i long fused
      by_cases equal : rest.head? = some '='
      · obtain ⟨after, rfl⟩ := List.head?_eq_some_iff.mp equal
        have longer : [c] ++ ['='] = (Lexeme.symbol long).text := by
          rw [← text, Lexeme.text, Piece.text_withEqual fused]
        simp only [accept_inside_cons, moved_inside, Piece.firstSymbol_withEqual fused, longer]
        refine push_lexeme (.symbol long) ?_ rfl (by simp)
        rw [cut, ← longer]
        rfl
      · have alone : Piece.firstSymbol s rest = (.lexeme (.symbol s), rest) :=
          Piece.firstSymbol_alone slash fun _ => equal
        simp only [accept_inside_of_ne equal, alone]
        exact push_symbol text cut

theorem piece_inside (accepts : AcceptsDecimals read?) (cut : source.toList = before ++ c :: rest) :
    (inside source before [c] rest tokens journal).piece read? c =
      .ok (found read? source before tokens journal (Piece.first c rest)) := by
  unfold piece Piece.first
  split
  · rw [found_of_silent (.blank c) (by simp) rfl]
    rfl
  split
  · rename_i quote
    subst quote
    exact string_inside cut
  split
  · rename_i digit
    have fits := Piece.fits_first c rest
    rw [Piece.first_of_isDigit digit] at fits
    exact number_inside accepts cut fits
  split
  · exact word_inside cut
  cases symbol : Symbol.ofChar? c with
  | some s => exact symbol_inside (Piece.text_ofChar symbol) cut
  | none =>
    simp only
    rw [found_of_error (.rejected c) rfl]
    rfl

theorem pieces_behind (accepts : AcceptsDecimals read?) {n : Nat} {s : Scanner}
    (cut : source.toList = before ++ left) (stands : s.current = .behind source before left)
    (enough : left.length < n) :
    let fragments := Fragment.listFrom (.after {} before) left
    s.pieces read? n = .ok ⟨.behind source source.toList [], .behind source source.toList [],
      s.tokens ++ (fragments.filterMap Fragment.token?).map (·.revalue read?),
      s.journal.recordAll (fragments.filterMap Fragment.diagnostic?)⟩ := by
  induction n generalizing s before left with
  | zero => contradiction
  | succ n ih =>
    cases left with
    | nil =>
      rw [List.append_nil] at cut
      simp only [pieces, stands, Cursor.next_behind_nil, Fragment.listFrom_nil, cut]
      simp [Journal.recordAll]
    | cons c rest =>
      have first : (inside source before [c] rest s.tokens s.journal).piece read? c =
          .ok (found read? source before s.tokens s.journal (Piece.first c rest)) :=
        piece_inside accepts cut
      have split := Piece.text_first c rest
      have shorter := Piece.length_first c rest
      rw [Fragment.listFrom_cons, ← Position.after_append, pieces, stands, Cursor.next_behind_cons]
      show (do
        let s ← (inside source before [c] rest s.tokens s.journal).piece read? c
        s.pieces read? n) = _
      rw [first]
      have cut' : source.toList =
          before ++ (Piece.first c rest).1.text ++ (Piece.first c rest).2 := by
        rw [cut, ← split, List.append_assoc]
      rw [List.length_cons] at enough
      have next := ih (s := found read? source before s.tokens s.journal (Piece.first c rest)) cut'
        rfl (by omega)
      refine next.trans ?_
      simp only [found, inside, List.filterMap_eq_flatMap_toList, List.flatMap_cons, List.map_append,
        Journal.recordAll_append, List.append_assoc]

end Scanner

/-- A scan meets no breach. It finds the tokens of the source, with the values that the reader gives
for numbers, and records the lexical errors. -/
theorem scan_eq {read? : String → Option Binary64} (accepts : AcceptsDecimals read?)
    (source : String) (journal : Journal) :
    scan read? source journal = .ok ((Scan.ofSource source).tokens.map (·.revalue read?),
      journal.recordScan (Scan.ofSource source)) := by
  have cut : source.toList = [] ++ source.toList := rfl
  have enough : source.toList.length < source.length + 1 := Nat.lt_succ_self _
  have eof : (Scan.ofSource source).eof.revalue read? = (Scan.ofSource source).eof :=
    Token.revalue_eof _
  rw [scan, Scanner.pieces_behind accepts cut (Cursor.ofString_eq_behind source) enough,
    Scan.tokens, List.map_append, List.map_singleton, eof]
  rfl

-- without a reader that takes them, numbers are a breach
example : scan (fun _ => none) "1" {} = .error .number := by cbv

end Guarded

namespace Scan

variable {read? : String → Option Binary64}

theorem revalue_of_fits (nearest : ReadsNearest read?) {l : Lexeme} {after : List Char}
    (fits : (Piece.lexeme l).Fits after) (p : Position) :
    (l.tokenAt p).revalue read? = l.tokenAt p := by
  cases l with
  | number whole fraction =>
    have digits : Digits whole ∧ (fraction = [] ∨ Digits fraction) := by
      cases fraction with
      | nil => exact ⟨fits.1, .inl rfl⟩
      | cons d fraction => exact ⟨fits.1, .inr fits.2.1⟩
    refine (if_pos rfl).trans ?_
    rw [Lexeme.tokenAt, nearest whole fraction digits.1 digits.2]
    rfl
  | word letters =>
    apply Token.revalue_of_ne
    cases keyword : Keyword.ofText? (String.ofList letters) <;>
      simp [Lexeme.tokenAt, Lexeme.kind, keyword]
  | _ =>
    apply Token.revalue_of_ne
    simp [Lexeme.tokenAt, Lexeme.kind]

theorem revalue_tokens (nearest : ReadsNearest read?) (source : String) :
    (ofSource source).tokens.map (·.revalue read?) = (ofSource source).tokens := by
  have each : ∀ t ∈ (ofSource source).tokens, t.revalue read? = id t := by
    intro t ht
    rcases List.mem_append.mp ht with word | eof
    · obtain ⟨l, before, after, rfl, -, fits⟩ := exists_lexeme_of_mem word
      exact revalue_of_fits nearest fits _
    · obtain rfl := List.mem_singleton.mp eof
      exact Token.revalue_eof _
  rw [List.map_congr_left each, List.map_id]

end Scan

end LoxExpr
