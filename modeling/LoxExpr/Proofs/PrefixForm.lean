import LoxExpr.Proofs.Calls
import LoxExpr.Proofs.ReadsBack
import LoxExpr.Proofs.Relocation

/-!
Expressions without strings are told apart by their prefix form.

The text of a value has neither blanks nor parentheses in it, and every other text is an operator or
a word in front of texts of operands, all in parentheses. So there is one way at most to cut the
text of an expression off from what stands behind it, and where it is cut off the expression is
known, up to the places of its operators (`Tree.Plain.recovered`).
-/

set_option autoImplicit false
set_option relaxedAutoImplicit false

namespace LoxExpr

namespace Binary64

def infinity : Binary64 := ofPattern infinityPattern

theorem eq_infinity {x : Binary64} (clear : x.isNegative = false) (number : x.isNaN = false)
    (infinite : x.isFinite = false) : x = infinity := by
  have pattern : x.pattern = infinityPattern := by
    simp only [isFinite, isNaN, decide_eq_false_iff_not] at *
    omega
  rw [← ofPattern_pattern clear number, pattern, infinity]

end Binary64

def wordValues : List (String × Literal) :=
  [("nil", .nil), ("false", .boolean false), ("true", .boolean true),
    ("inf", .number Binary64.infinity)]

theorem wordValues_unique : ∀ e ∈ wordValues, ∀ e' ∈ wordValues, e.1 = e'.1 → e.2 = e'.2 := by
  decide

theorem not_spelling_of_mem_wordValues {w : String} {value : Literal}
    (h : (w, value) ∈ wordValues) : ¬ Token.Kind.Spelling .number w.toList := by
  have letter : ∀ e ∈ wordValues, e.1.toList.head?.map Start.of = some .letter := by decide
  intro spelling
  obtain ⟨c, v, whole, start⟩ := spelling.head
  have known := letter _ h
  rw [whole, List.head?_cons, Option.map_some, ← start] at known
  contradiction

theorem eq_of_append_eq_of_head {p : Char → Prop} [DecidablePred p] {u u' v v' : List Char}
    (free : ∀ c ∈ u, ¬ p c) (free' : ∀ c ∈ u', ¬ p c) (starts : ∀ c ∈ v.head?, p c)
    (starts' : ∀ c ∈ v'.head?, p c) (same : u ++ v = u' ++ v') : u = u' ∧ v = v' := by
  have cut := Piece.span_append (p := fun c => ¬ p c) (u := u) (v := v)
    (by simpa using free) (by simpa using starts)
  have cut' := Piece.span_append (p := fun c => ¬ p c) (u := u') (v := v')
    (by simpa using free') (by simpa using starts')
  rw [same] at cut
  exact ⟨cut.1.symm.trans cut'.1, cut.2.symm.trans cut'.2⟩

/-- The characters that set the parts of a prefix form apart. -/
def IsMark (c : Char) : Prop := c = ' ' ∨ c = '(' ∨ c = ')'

instance (c : Char) : Decidable (IsMark c) := inferInstanceAs (Decidable (_ ∨ _))

def Marked (text : List Char) : Prop := ∀ c ∈ text.head?, IsMark c

theorem marked_nil : Marked [] := nofun

theorem marked_cons {c : Char} (mark : IsMark c) (text : List Char) : Marked (c :: text) := by
  intro d hd
  exact Option.some.inj hd ▸ mark

theorem not_isMark_of_isDigit {c : Char} (digit : c.isDigit = true) : ¬ IsMark c := by
  rintro (rfl | rfl | rfl) <;> contradiction

namespace Literal

/-- The values besides strings that a source can have. -/
inductive Plain : Literal → Prop
  | nil : Plain .nil
  | boolean {value : Bool} : Plain (.boolean value)
  | number {x : Binary64} : x.isNegative = false → x.isNaN = false → Plain (.number x)

variable {v v' : Literal}

theorem Plain.word_or_number (plain : v.Plain) : (v.text, v) ∈ wordValues ∨
    Token.Kind.Spelling .number v.text.toList ∧
      Token.Kind.Value .number v.text.toList (some v) := by
  cases plain with
  | nil => exact .inl (by decide)
  | @boolean value => cases value <;> exact .inl (by decide)
  | @number x clear number =>
    cases finite : x.isFinite with
    | true => exact .inr (Binary64.value_text finite clear)
    | false =>
      obtain rfl := Binary64.eq_infinity clear number finite
      exact .inl (by decide +kernel)

theorem Plain.eq_of_text_eq (plain : v.Plain) (plain' : v'.Plain) (same : v.text = v'.text) :
    v = v' := by
  rcases plain.word_or_number with word | ⟨spelling, value⟩
  · rcases plain'.word_or_number with word' | ⟨spelling', -⟩
    · exact wordValues_unique _ word _ word' same
    · exact absurd spelling' (same ▸ not_spelling_of_mem_wordValues word)
  · rcases plain'.word_or_number with word' | ⟨-, value'⟩
    · exact absurd spelling (same ▸ not_spelling_of_mem_wordValues word')
    · exact Option.some.inj ((same ▸ value').unique value)

theorem Plain.not_isMark (plain : v.Plain) : ∀ c ∈ v.text.toList, ¬ IsMark c := by
  rcases plain.word_or_number with word | ⟨spelling, -⟩
  · have letters : ∀ e ∈ wordValues, ∀ c ∈ e.1.toList, ¬ IsMark c := by
      simp [wordValues, IsMark]
    exact letters _ word
  · generalize v.text.toList = w at spelling
    cases spelling with
    | integer digits => exact fun c hc => not_isMark_of_isDigit (digits.2 c hc)
    | decimal whole fraction =>
      intro c hc
      rcases List.mem_append.mp hc with before | behind
      · exact not_isMark_of_isDigit (whole.2 c before)
      · rcases List.mem_cons.mp behind with rfl | behind
        · decide
        · exact not_isMark_of_isDigit (fraction.2 c behind)

theorem Plain.text_ne_nil (plain : v.Plain) : v.text.toList ≠ [] := by
  rcases plain.word_or_number with word | ⟨spelling, -⟩
  · have letters : ∀ e ∈ wordValues, e.1.toList ≠ [] := by decide
    exact letters _ word
  · obtain ⟨c, w, whole, -⟩ := spelling.head
    simp [whole]

theorem Plain.eq_of_append_eq {rest rest' : List Char} (plain : v.Plain) (plain' : v'.Plain)
    (marked : Marked rest) (marked' : Marked rest')
    (same : v.text.toList ++ rest = v'.text.toList ++ rest') : v = v' ∧ rest = rest' := by
  obtain ⟨text, behind⟩ :=
    eq_of_append_eq_of_head plain.not_isMark plain'.not_isMark marked marked' same
  exact ⟨plain.eq_of_text_eq plain' (String.toList_inj.mp text), behind⟩

end Literal

structure Token.IsSymbol (t : Token) : Prop where
  kind : ∃ s, t.kind = .symbol s
  isOf : t.IsOf t.lexeme.toList

namespace Token.IsSymbol

variable {t t' : Token}

theorem exists_text (isSymbol : t.IsSymbol) : ∃ s : Symbol, t.lexeme.toList = s.text := by
  obtain ⟨s, kind⟩ := isSymbol.kind
  exact isSymbol.isOf.spelling.exists_symbol (congrArg Token.Kind.start? kind)

theorem blank_not_mem (isSymbol : t.IsSymbol) : ' ' ∉ t.lexeme.toList := by
  obtain ⟨s, text⟩ := isSymbol.exists_text
  rw [text]
  cases s <;> decide

theorem ne_group (isSymbol : t.IsSymbol) : t.lexeme.toList ≠ "group".toList := by
  obtain ⟨s, text⟩ := isSymbol.exists_text
  rw [text]
  cases s <;> decide

theorem relocate_eq (place : Position) (isSymbol : t.IsSymbol) (isSymbol' : t'.IsSymbol)
    (same : t.lexeme.toList = t'.lexeme.toList) :
    t.relocate (fun _ => place) = t'.relocate fun _ => place := by
  have content := isSymbol'.isOf.content_eq (same ▸ isSymbol.isOf)
  obtain ⟨kind, lexeme, literal⟩ : t.kind = t'.kind ∧ t.lexeme = t'.lexeme ∧
      t.literal? = t'.literal? := by simpa [Token.content] using content
  rw [relocate, relocate, kind, lexeme, literal]

end Token.IsSymbol

namespace Tree

def hasString : Tree → Bool
  | leaf (.string _) => true
  | leaf _ => false
  | group inner => inner.hasString
  | unary _ operand => operand.hasString
  | binary left _ right => left.hasString || right.hasString

/-- An expression without strings, with symbols for its operators. -/
inductive Plain : Tree → Prop
  | leaf {value : Literal} : value.Plain → Plain (.leaf value)
  | group {inner : Tree} : Plain inner → Plain (.group inner)
  | unary {operator : Token} {operand : Tree} :
      operator.IsSymbol → Plain operand → Plain (.unary operator operand)
  | binary {left right : Tree} {operator : Token} :
      operator.IsSymbol → Plain left → Plain right → Plain (.binary left operator right)

section Text

variable {operator : Token} {inner left right : Tree} (rest : List Char)

def enclose (head tail : List Char) : List Char := '(' :: (head ++ ' ' :: tail)

theorem toList_text_group_append : (group inner).text.toList ++ rest =
    enclose "group".toList (inner.text.toList ++ ')' :: rest) := by
  simp [text_group, enclose]

theorem toList_text_unary_append : (unary operator inner).text.toList ++ rest =
    enclose operator.lexeme.toList (inner.text.toList ++ ')' :: rest) := by
  simp [text_unary, enclose, Token.text]

theorem toList_text_binary_append : (binary left operator right).text.toList ++ rest =
    enclose operator.lexeme.toList
      (left.text.toList ++ ' ' :: (right.text.toList ++ ')' :: rest)) := by
  simp [text_binary, enclose, Token.text]

end Text

theorem enclose_inj {head head' tail tail' : List Char} (blank : ' ' ∉ head) (blank' : ' ' ∉ head')
    (same : enclose head tail = enclose head' tail') : head = head' ∧ tail = tail' := by
  have free : ∀ c ∈ head, ¬ c = ' ' := fun c hc isBlank => blank (isBlank ▸ hc)
  have free' : ∀ c ∈ head', ¬ c = ' ' := fun c hc isBlank => blank' (isBlank ▸ hc)
  obtain ⟨heads, tails⟩ :=
    eq_of_append_eq_of_head free free' (by simp) (by simp) (List.cons.inj same).2
  exact ⟨heads, (List.cons.inj tails).2⟩

theorem text_append_ne_enclose {value : Literal} (plain : value.Plain)
    {rest head tail : List Char} : (leaf value).text.toList ++ rest ≠ enclose head tail := by
  obtain ⟨c, w, whole⟩ := List.exists_cons_of_ne_nil plain.text_ne_nil
  have other : ¬ IsMark c := plain.not_isMark c (whole ▸ List.mem_cons_self)
  rw [text_leaf, whole]
  intro same
  obtain rfl := (List.cons.inj same).1
  exact other (.inr (.inl rfl))

/-- In front of a mark, or of nothing, the expression is known from its text but for the places of
its operators, and so is where that ends. -/
def Recovered (place : Position) (e : Tree) : Prop :=
  ∀ (e' : Tree) (rest rest' : List Char), e'.Plain → Marked rest → Marked rest' →
    e.text.toList ++ rest = e'.text.toList ++ rest' →
      e.relocate (fun _ => place) = e'.relocate (fun _ => place) ∧ rest = rest'

section Recovered

variable {place : Position} {value : Literal} {operator : Token} {inner left right : Tree}

private theorem marked_blank (text : List Char) : Marked (' ' :: text) := marked_cons (.inl rfl) text

private theorem marked_closing (text : List Char) : Marked (')' :: text) :=
  marked_cons (.inr (.inr rfl)) text

private theorem blank_not_mem_group : ' ' ∉ "group".toList := by
  decide

theorem recovered_leaf (plain : value.Plain) : (leaf value).Recovered place := by
  intro e' rest rest' plain' marked marked' same
  cases plain' with
  | leaf value' =>
    rw [text_leaf, text_leaf] at same
    obtain ⟨rfl, rfl⟩ := plain.eq_of_append_eq value' marked marked' same
    exact ⟨rfl, rfl⟩
  | group =>
    rw [toList_text_group_append] at same
    exact absurd same (text_append_ne_enclose plain)
  | unary =>
    rw [toList_text_unary_append] at same
    exact absurd same (text_append_ne_enclose plain)
  | binary =>
    rw [toList_text_binary_append] at same
    exact absurd same (text_append_ne_enclose plain)

theorem Recovered.group (recovered : inner.Recovered place) :
    (Tree.group inner).Recovered place := by
  intro e' rest rest' plain' _ _ same
  rw [toList_text_group_append] at same
  cases plain' with
  | leaf value' => exact absurd same.symm (text_append_ne_enclose value')
  | group inner' =>
    rw [toList_text_group_append] at same
    obtain ⟨-, tails⟩ := enclose_inj blank_not_mem_group blank_not_mem_group same
    obtain ⟨inners, rests⟩ :=
      recovered _ _ _ inner' (marked_closing rest) (marked_closing rest') tails
    exact ⟨congrArg Tree.group inners, (List.cons.inj rests).2⟩
  | unary symbol' =>
    rw [toList_text_unary_append] at same
    have heads := (enclose_inj blank_not_mem_group symbol'.blank_not_mem same).1
    exact absurd heads.symm symbol'.ne_group
  | binary symbol' =>
    rw [toList_text_binary_append] at same
    have heads := (enclose_inj blank_not_mem_group symbol'.blank_not_mem same).1
    exact absurd heads.symm symbol'.ne_group

theorem Recovered.unary (symbol : operator.IsSymbol) (recovered : inner.Recovered place) :
    (Tree.unary operator inner).Recovered place := by
  intro e' rest rest' plain' _ _ same
  rw [toList_text_unary_append] at same
  cases plain' with
  | leaf value' => exact absurd same.symm (text_append_ne_enclose value')
  | group =>
    rw [toList_text_group_append] at same
    have heads := (enclose_inj symbol.blank_not_mem blank_not_mem_group same).1
    exact absurd heads symbol.ne_group
  | unary symbol' operand' =>
    rw [toList_text_unary_append] at same
    obtain ⟨operators, tails⟩ := enclose_inj symbol.blank_not_mem symbol'.blank_not_mem same
    obtain ⟨operands, rests⟩ :=
      recovered _ _ _ operand' (marked_closing rest) (marked_closing rest') tails
    exact ⟨congrArg₂ Tree.unary (symbol.relocate_eq place symbol' operators) operands,
      (List.cons.inj rests).2⟩
  | binary symbol' left' right' =>
    -- behind the first operand, one text is closed and the other goes on with a blank
    rw [toList_text_binary_append] at same
    obtain ⟨-, tails⟩ := enclose_inj symbol.blank_not_mem symbol'.blank_not_mem same
    obtain ⟨-, rests⟩ := recovered _ _ _ left' (marked_closing rest) (marked_blank _) tails
    have differ := (List.cons.inj rests).1
    contradiction

theorem Recovered.binary (symbol : operator.IsSymbol) (recoveredLeft : left.Recovered place)
    (recoveredRight : right.Recovered place) :
    (Tree.binary left operator right).Recovered place := by
  intro e' rest rest' plain' _ _ same
  rw [toList_text_binary_append] at same
  cases plain' with
  | leaf value' => exact absurd same.symm (text_append_ne_enclose value')
  | group =>
    rw [toList_text_group_append] at same
    have heads := (enclose_inj symbol.blank_not_mem blank_not_mem_group same).1
    exact absurd heads symbol.ne_group
  | unary symbol' operand' =>
    rw [toList_text_unary_append] at same
    obtain ⟨-, tails⟩ := enclose_inj symbol.blank_not_mem symbol'.blank_not_mem same
    obtain ⟨-, rests⟩ :=
      recoveredLeft _ _ _ operand' (marked_blank _) (marked_closing rest') tails
    have differ := (List.cons.inj rests).1
    contradiction
  | binary symbol' left' right' =>
    rw [toList_text_binary_append] at same
    obtain ⟨operators, tails⟩ := enclose_inj symbol.blank_not_mem symbol'.blank_not_mem same
    obtain ⟨lefts, behind⟩ := recoveredLeft _ _ _ left' (marked_blank _) (marked_blank _) tails
    obtain ⟨rights, rests⟩ := recoveredRight _ _ _ right' (marked_closing rest)
      (marked_closing rest') (List.cons.inj behind).2
    refine ⟨?_, (List.cons.inj rests).2⟩
    rw [relocate, relocate, lefts, symbol.relocate_eq place symbol' operators, rights]

/-- Every expression without strings is recovered from its text. -/
theorem Plain.recovered {e : Tree} (plain : e.Plain) : e.Recovered place := by
  induction plain with
  | leaf value => exact recovered_leaf value
  | group _ ih => exact ih.group
  | unary symbol _ ih => exact ih.unary symbol
  | binary symbol _ _ ihLeft ihRight => exact ihLeft.binary symbol ihRight

end Recovered

theorem Spells.plain {e : Tree} {w : List Token} {k : Nat} (spells : e.Spells w)
    (level : e.AtLevel k) (isOf : ∀ t ∈ w, t.IsOf t.lexeme.toList) (free : e.hasString = false) :
    e.Plain := by
  induction spells generalizing k with
  | falseWord => exact .leaf .boolean
  | trueWord => exact .leaf .boolean
  | nilWord => exact .leaf .nil
  | @literal t value kind literal =>
    have known := (isOf t List.mem_cons_self).value
    rw [literal] at known
    rcases kind with number | string
    · rw [number] at known
      obtain ⟨d, same, -⟩ := known.exists_decimal
      obtain rfl := Option.some.inj same
      exact .leaf (.number d.isNearest_toBinary64.not_negative d.isNearest_toBinary64.not_nan)
    · rw [string] at known
      generalize t.lexeme.toList = text at known
      cases known with
      | string => contradiction
  | group _ _ _ ih =>
    cases level with
    | group level =>
      refine .group (ih level (fun t ht => isOf t ?_) free)
      simp [ht]
  | @unary operator operand w _ ih =>
    cases level with
    | unary kind level =>
      have symbol : operator.IsSymbol :=
        ⟨kind.elim (fun bang => ⟨_, bang⟩) fun minus => ⟨_, minus⟩, isOf _ List.mem_cons_self⟩
      exact .unary symbol (ih level (fun t ht => isOf t (List.mem_cons_of_mem _ ht)) free)
  | @binary operator left right v w _ _ ihLeft ihRight =>
    cases level with
    | binary kind _ levelLeft _ levelRight =>
      have symbol : operator.IsSymbol := ⟨⟨_, kind⟩, isOf _ (by simp)⟩
      obtain ⟨freeLeft, freeRight⟩ : left.hasString = false ∧ right.hasString = false := by
        simpa [hasString] using free
      exact .binary symbol (ihLeft levelLeft (fun t ht => isOf t (by simp [ht])) freeLeft)
        (ihRight levelRight (fun t ht => isOf t (by simp [ht])) freeRight)

/-- An expression apart from the places of its operators. -/
def unplaced (e : Tree) : Tree := e.relocate fun _ => {}

/-- A parser over the tokens of a source returns the expression: for all of them, or for as many as
it can read behind whatever it was asked for before. -/
inductive ParsedFrom (source : String) (e : Tree) : Prop
  | whole {j : Journal} :
      ((Parser.ofScan (Scan.ofSource source)).parseInto j).1 = some e → ParsedFrom source e
  | part {j : Journal} {requests : List Parser.Request} :
      ((Parser.ofScan (Scan.ofSource source)).answerAll j requests).1.readExpression.1 = .ok e →
        ParsedFrom source e

variable {source source' : String} {e e' : Tree}

theorem ParsedFrom.exists_words (parsed : e.ParsedFrom source) :
    ∃ w, e.IsReadFrom w ∧ ∀ t ∈ w, t ∈ (Scan.ofSource source).words := by
  cases parsed with
  | whole read =>
    rw [Parser.parseInto_fst_eq_some_iff, Scan.parse_ofScan_eq_ok_iff] at read
    exact ⟨_, read, fun _ ht => ht⟩
  | @part j requests read =>
    have begins : Parser.Stands (Scan.ofSource source).words (Scan.ofSource source).eof
        (Parser.ofScan (Scan.ofSource source)) := ⟨rfl, rfl, [], rfl, rfl⟩
    have here := begins.answerAll rfl j requests
    obtain ⟨taken, passes, -, spelled⟩ := here.exists_passes_readExpression rfl
    obtain ⟨passed, split, -⟩ := here.split
    refine ⟨taken, (spelled e read).1, fun t ht => ?_⟩
    rw [split, passes.ahead]
    simp [ht]

theorem ParsedFrom.plain (parsed : e.ParsedFrom source) (free : e.hasString = false) :
    e.Plain := by
  obtain ⟨w, read, words⟩ := parsed.exists_words
  obtain ⟨k, level⟩ := read.stratified
  exact read.spells.plain level (fun t ht => Scan.isOf_of_mem_words (words t ht)) free

/-- The text in prefix form settles an expression without strings.

Whatever the sources that two such expressions are read from, their texts are the same exactly when
the expressions are: made alike, with the same operators in the same spelling, and with the same
values to the bit. Only the places of the operators are not in the text. -/
theorem text_eq_iff_unplaced_eq (parsed : e.ParsedFrom source) (parsed' : e'.ParsedFrom source')
    (free : e.hasString = false) (free' : e'.hasString = false) :
    e.text = e'.text ↔ e.unplaced = e'.unplaced := by
  constructor
  · intro same
    have bare : e.text.toList ++ [] = e'.text.toList ++ [] := congrArg (·.toList ++ []) same
    have recovered : e.Recovered {} := (parsed.plain free).recovered
    exact (recovered _ _ _ (parsed'.plain free') marked_nil marked_nil bare).1
  · intro same
    rw [← text_relocate (fun _ => {}) e, ← text_relocate (fun _ => {}) e']
    exact congrArg text same

theorem text_eq_iff_unplaced_eq_minus :
    ∃ e e' : Tree, e.ParsedFrom "-1 - (0.5)" ∧ e'.ParsedFrom ";\n- 1 -( 0.50 ) nil" ∧
      e.hasString = false ∧ e'.hasString = false ∧ e.text = "(- (- 1) (group 0.5))" ∧
      e ≠ e' ∧ e.unplaced = e'.unplaced := by
  let minus (line offset : Nat) : Token := ⟨.symbol .minus, "-", none, ⟨line, offset⟩⟩
  let tree (first second : Token) : Tree :=
    .binary (.unary first (.leaf (.number ⟨0x3FF0000000000000⟩))) second
      (.group (.leaf (.number ⟨0x3FE0000000000000⟩)))
  have parsed : (tree (minus 1 0) (minus 1 3)).ParsedFrom "-1 - (0.5)" :=
    .whole (j := {}) (by decide +kernel)
  have parsed' : (tree (minus 2 2) (minus 2 6)).ParsedFrom ";\n- 1 -( 0.50 ) nil" :=
    @ParsedFrom.part _ _ {} [.readExpression, .recover] (by decide +kernel)
  have text : (tree (minus 1 0) (minus 1 3)).text = "(- (- 1) (group 0.5))" := by decide +kernel
  have text' : (tree (minus 2 2) (minus 2 6)).text = "(- (- 1) (group 0.5))" := by decide +kernel
  exact ⟨_, _, parsed, parsed', rfl, rfl, text, by decide,
    (text_eq_iff_unplaced_eq parsed parsed' rfl rfl).mp (text.trans text'.symm)⟩

end Tree

end LoxExpr
