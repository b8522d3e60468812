import LoxExpr.Proofs.NumberValues
import LoxExpr.Proofs.RunOutcome

/-!
A number that is written out is read again.

The decimal that stands for a number is read as the number, on whichever grid it was found
(`Binary64.toBinary64_shortest`). Its text is digits, perhaps with a point among them, that are read
as the decimal (`Decimal.value_text`). So running the text of a number writes that text again.
-/

set_option autoImplicit false
set_option relaxedAutoImplicit false

namespace LoxExpr

namespace Decimal

theorem length_paddedDigits (d : Decimal) : d.places < d.paddedDigits.length := by
  simp only [paddedDigits, List.length_append, List.length_replicate]
  omega

theorem isDigit_of_mem_paddedDigits {d : Decimal} {c : Char} (hc : c ∈ d.paddedDigits) :
    c.isDigit = true := by
  rcases List.mem_append.mp hc with zero | digit
  · rw [List.eq_of_mem_replicate zero]
    rfl
  · exact Nat.isDigit_of_mem_toDigits (by decide) (by decide) digit

theorem ofDigitChars_paddedDigits (d : Decimal) :
    Nat.ofDigitChars 10 d.paddedDigits 0 = d.digits := by
  rw [paddedDigits, Nat.ofDigitChars_append, Nat.ofDigitChars_replicate_zero, Nat.mul_zero,
    Nat.ofDigitChars_ten_toDigits]

theorem whole_append_fraction (d : Decimal) : d.whole ++ d.fraction = d.paddedDigits :=
  List.take_append_drop _ _

theorem length_fraction (d : Decimal) : d.fraction.length = d.places := by
  have := d.length_paddedDigits
  rw [fraction, List.length_drop]
  omega

theorem ofDigits_whole_fraction (d : Decimal) : ofDigits d.whole d.fraction = d := by
  rw [ofDigits, whole_append_fraction, ofDigitChars_paddedDigits, length_fraction]

theorem digits_whole (d : Decimal) : Digits d.whole := by
  have := d.length_paddedDigits
  refine ⟨?_, fun c hc => isDigit_of_mem_paddedDigits (List.mem_of_mem_take hc)⟩
  rw [← List.length_pos_iff, whole, List.length_take]
  omega

theorem digits_fraction {d : Decimal} (some : d.places ≠ 0) : Digits d.fraction := by
  refine ⟨?_, fun c hc => isDigit_of_mem_paddedDigits (List.mem_of_mem_drop hc)⟩
  rw [← List.length_pos_iff, length_fraction]
  exact Nat.pos_of_ne_zero some

theorem value_text (d : Decimal) : Token.Kind.Spelling .number d.text ∧
    Token.Kind.Value .number d.text (some (.number d.toBinary64)) := by
  have same := d.ofDigits_whole_fraction
  rw [text]
  split
  · rename_i none
    have noFraction : d.fraction = [] := List.length_eq_zero_iff.mp (d.length_fraction.trans none)
    rw [noFraction] at same
    have value := Token.Kind.Value.integer d.digits_whole
    rw [same] at value
    exact ⟨.integer d.digits_whole, value⟩
  · rename_i some
    have value := Token.Kind.Value.decimal d.digits_whole (digits_fraction some)
    rw [same] at value
    exact ⟨.decimal d.digits_whole (digits_fraction some), value⟩

theorem toBinary64_eq_of_value {d : Decimal} {x : Binary64} (clear : x.isNegative = false)
    (number : x.isNaN = false) (same : d.value = x.value) : d.toBinary64 = x := by
  rw [value_eq] at same
  exact Binary64.nearest_eq_of_value d.scale_pos clear number same

end Decimal

namespace Binary64

variable {x : Binary64}

theorem isNaN_of_isFinite (finite : x.isFinite = true) : x.isNaN = false := by
  simp only [isFinite, isNaN, decide_eq_true_eq, decide_eq_false_iff_not] at *
  omega

theorem value_decimalUnits (clear : x.isNegative = false) :
    (⟨x.decimalUnits, 1074⟩ : Decimal).value = x.value := by
  obtain ⟨k, finest⟩ : ∃ k, k = 1074 := ⟨1074, rfl⟩
  have ten : (10 : ℚ) ^ k = 2 ^ k * 5 ^ k := by
    rw [← mul_pow]
    norm_num
  have five : (5 : ℚ) ^ k ≠ 0 := pow_ne_zero k (by norm_num)
  rw [value_of_not_negative clear, ← units_eq_magnitude, Decimal.value, decimalUnits]
  unfold decimalUnit
  rw [← finest, ten, Nat.pow_eq, Nat.cast_mul, Nat.cast_pow, Nat.cast_ofNat,
    mul_div_mul_right _ _ five]

theorem toBinary64_of_onGrid? {grid : Nat} {d : Decimal} (found : x.onGrid? grid = some d) :
    d.toBinary64 = x := by
  simp only [onGrid?] at found
  split at found
  · rename_i lower
    split at found
    · rename_i upper
      exact Option.some.inj found ▸ upper.1
    · exact Option.some.inj found ▸ lower
  · split at found
    · rename_i upper
      exact Option.some.inj found ▸ upper
    · contradiction

theorem lastFound_eq_or (find? : Nat → Option Decimal) (other : Decimal) (n : Nat) :
    lastFound find? other n = other ∨ ∃ k, find? k = some (lastFound find? other n) := by
  induction n with
  | zero => exact .inl rfl
  | succ n ih =>
    unfold lastFound
    split
    · rename_i found
      exact .inr ⟨_, found⟩
    · exact ih

/-- Wherever the search for a coarse grid stops, the decimal found there is read as the number. -/
theorem toBinary64_coarsest (finite : x.isFinite = true) (clear : x.isNegative = false)
    (grid : Nat) : (x.coarsest grid).toBinary64 = x := by
  rcases lastFound_eq_or x.onGrid? ⟨x.decimalUnits, 1074⟩ grid with finest | ⟨k, found⟩
  · rw [coarsest, finest]
    exact Decimal.toBinary64_eq_of_value clear (isNaN_of_isFinite finite) (value_decimalUnits clear)
  · exact toBinary64_of_onGrid? found

theorem toBinary64_shortest (finite : x.isFinite = true) (clear : x.isNegative = false) :
    x.shortest.toBinary64 = x := by
  rw [shortest]
  split
  · rename_i zero
    apply Decimal.toBinary64_eq_of_value clear (isNaN_of_isFinite finite)
    rw [value_of_not_negative clear, zero, Decimal.value]
    simp [magnitude]
  · exact toBinary64_coarsest finite clear _

theorem toList_text (finite : x.isFinite = true) (clear : x.isNegative = false) :
    x.text.toList = x.shortest.text := by
  have same : x.abs = x := by
    have small : x.bits.toNat < Nat.pow 2 63 := by simpa [isNegative] using clear
    rw [abs, pattern, Nat.mod_eq_of_lt small, UInt64.ofNat_toNat]
  rw [text, isNaN_of_isFinite finite, clear, finite, same]
  simp

theorem value_text (finite : x.isFinite = true) (clear : x.isNegative = false) :
    Token.Kind.Spelling .number x.text.toList ∧
      Token.Kind.Value .number x.text.toList (some (.number x)) := by
  have value := x.shortest.value_text
  rwa [toBinary64_shortest finite clear, ← toList_text finite clear] at value

end Binary64

theorem Token.Kind.Spelling.exists_value {w : List Char} (h : Token.Kind.Spelling .number w) :
    ∃ d : Decimal, Token.Kind.Value .number w (some (.number d.toBinary64)) := by
  cases h with
  | integer digits => exact ⟨_, .integer digits⟩
  | decimal whole fraction => exact ⟨_, .decimal whole fraction⟩

theorem Scan.ofSource_lexeme {w gap : List Char} (lexeme : IsLexeme w)
    (blank : ∀ c ∈ gap, IsBlank c) :
    let s := ofSource (String.ofList (w ++ gap))
    s.diagnostics = [] ∧ ∃ t, s.words = [t] ∧ t.IsOf w := by
  intro s
  have separated : Separated [(w, gap)] := ⟨by simpa using blank, by simp⟩
  obtain ⟨fs, tiles, quiet, areOf⟩ :=
    Fragment.exists_tiles_writeOut (by simpa using lexeme) separated {}
  have whole : writeOut [(w, gap)] = w ++ gap := by simp [writeOut]
  have fragments : s.fragments = fs := by
    rw [tiles.eq_listFrom, whole, ← String.toList_ofList (l := w ++ gap)]
    rfl
  obtain ⟨t, ht⟩ := List.length_eq_one_iff.mp areOf.length_eq
  obtain ⟨t', ht', isOf, -⟩ := areOf.isOf 0 w gap rfl
  rw [ht] at ht'
  obtain rfl := Option.some.inj ht'
  exact ⟨by rw [diagnostics, fragments, quiet], t, by rw [words, fragments, ht], isOf⟩

namespace Scan

theorem ofSource_number {w : List Char} {x : Binary64} (spelling : Token.Kind.Spelling .number w)
    (value : Token.Kind.Value .number w (some (.number x))) (gap : List Char)
    (blank : ∀ c ∈ gap, IsBlank c) :
    let s := ofSource (String.ofList (w ++ gap))
    s.diagnostics = [] ∧
      s.tokens.map Token.content =
        [(.number, String.ofList w, some (.number x)), (.eof, "", none)] ∧
      s.reports = [] ∧ s.answer = [x.text ++ "\n"] := by
  intro s
  obtain ⟨quiet, t, words, isOf⟩ := ofSource_lexeme ⟨_, spelling⟩ blank
  have number : t.kind = .number := spelling.unique isOf.spelling
  have literal : t.literal? = some (.number x) := value.unique (number ▸ isOf.value)
  have lexeme : t.lexeme = String.ofList w := by rw [← isOf.text, String.ofList_toList]
  have read : (Tree.leaf (.number x)).IsReadFrom s.words :=
    ⟨words ▸ .literal (.inl number) literal, ⟨6, .leaf⟩, Nat.zero_le _⟩
  obtain ⟨noReports, answer⟩ := reports_and_answer_of_isReadFrom quiet read
  rw [Tree.text_leaf] at answer
  refine ⟨quiet, ?_, noReports, answer⟩
  rw [tokens, words, List.map_append, List.map_singleton, Token.content, number, lexeme, literal]
  rfl

end Scan

namespace Run

theorem ofSource_number {w : List Char} {x : Binary64} (spelling : Token.Kind.Spelling .number w)
    (value : Token.Kind.Value .number w (some (.number x))) (gap : List Char)
    (blank : ∀ c ∈ gap, IsBlank c) (j : Journal) (o : Sink) :
    ofSource (String.ofList (w ++ gap)) false j o =
      ⟨j, (o.writeAll (if j.hasErrors then [] else [x.text ++ "\n"])).1,
        (o.writeAll (if j.hasErrors then [] else [x.text ++ "\n"])).2⟩ := by
  obtain ⟨-, -, noReports, answer⟩ := Scan.ofSource_number spelling value gap blank
  rw [ofSource_eq, Scan.texts, Scan.listing, noReports, answer]
  rfl

/-- A number that is written out is read again as it was.

The text of a finite number without a sign is the text of a number token: digits, perhaps with a
point among them. It is scanned as this token and the end, the value has the same bits, and a run
writes the same text again. So whatever the text of a number token with a finite value, a run of
what a run of it writes does the same as the first. -/
theorem ofSource_number_text :
    (∀ x : Binary64, x.isFinite = true → x.isNegative = false →
      let text := (Literal.number x).text
      Token.Kind.Spelling .number text.toList ∧
        (Scan.ofSource text).diagnostics = [] ∧
        (Scan.ofSource text).tokens.map Token.content =
          [(.number, text, some (.number x)), (.eof, "", none)] ∧
        ∀ (j : Journal) (o : Sink), j.hasErrors = false →
          ofSource text false j o = ⟨j, (o.write (text ++ "\n")).1, (o.write (text ++ "\n")).2⟩) ∧
    ∀ lexeme : String, Token.Kind.Spelling .number lexeme.toList →
      ∃ x : Binary64, x.isNegative = false ∧
        (Scan.ofSource lexeme).tokens.map Token.content =
          [(.number, lexeme, some (.number x)), (.eof, "", none)] ∧
        (x.isFinite = true →
          let written := (Literal.number x).text ++ "\n"
          (∀ (j : Journal) (o : Sink), j.hasErrors = false →
            ofSource lexeme false j o = ⟨j, (o.write written).1, (o.write written).2⟩) ∧
          ∀ (j : Journal) (o : Sink),
            ofSource written false j o = ofSource lexeme false j o) := by
  refine ⟨?_, ?_⟩
  · intro x finite clear text
    obtain ⟨spelling, value⟩ := Binary64.value_text finite clear
    obtain ⟨quiet, tokens, -⟩ := Scan.ofSource_number spelling value [] nofun
    rw [List.append_nil, String.ofList_toList] at quiet tokens
    refine ⟨spelling, quiet, tokens, ?_⟩
    intro j o clean
    have run := ofSource_number spelling value [] nofun j o
    rwa [List.append_nil, String.ofList_toList, clean, if_neg nofun,
      Sink.writeAll_singleton] at run
  · intro lexeme spelling
    obtain ⟨d, value⟩ := spelling.exists_value
    obtain ⟨-, tokens, -⟩ := Scan.ofSource_number spelling value [] nofun
    have run := ofSource_number spelling value [] nofun
    rw [List.append_nil, String.ofList_toList] at tokens run
    refine ⟨d.toBinary64, d.isNearest_toBinary64.not_negative, tokens, ?_⟩
    intro finite written
    refine ⟨?_, ?_⟩
    · intro j o clean
      rw [run, clean, if_neg nofun, Sink.writeAll_singleton]
      rfl
    · intro j o
      obtain ⟨spelling', value'⟩ :=
        Binary64.value_text finite d.isNearest_toBinary64.not_negative
      have again := ofSource_number spelling' value' ['\n'] (by simp [IsBlank]) j o
      have whole : String.ofList (d.toBinary64.text.toList ++ ['\n']) = written := by
        rw [String.ofList_append, String.ofList_toList]
        rfl
      rw [← whole, again, run]

theorem ofSource_number_text_tenth :
    let x : Binary64 := ⟨0x3FB999999999999A⟩
    x.isFinite = true ∧ x.isNegative = false ∧ (Literal.number x).text = "0.1" ∧
      (Scan.ofSource "0.1").tokens.map Token.content =
        [(.number, "0.1", some (.number x)), (.eof, "", none)] ∧
      (ofSource "0.1" false {} {}).output.received = "0.1\n".toUTF8 ∧
      Token.Kind.Spelling .number "00.10".toList ∧
      (ofSource "00.10" false {} {}).output.received = "0.1\n".toUTF8 ∧
      ofSource "0.1\n" false {} {} = ofSource "00.10" false {} {} := by
  intro x
  have text : (Literal.number x).text = "0.1" := by decide +kernel
  obtain ⟨reads, settles⟩ := ofSource_number_text
  obtain ⟨-, -, tokens, run⟩ := reads x rfl rfl
  have spelling : Token.Kind.Spelling .number "00.10".toList :=
    .decimal (v := ['0', '0']) (w := ['1', '0']) ⟨nofun, by simp⟩ ⟨nofun, by simp⟩
  obtain ⟨y, -, tokens', settled⟩ := settles "00.10" spelling
  have scanned : (Scan.ofSource "00.10").tokens.map Token.content =
      [(.number, "00.10", some (.number x)), (.eof, "", none)] := by decide +kernel
  rw [scanned] at tokens'
  obtain rfl : x = y := by simpa using tokens'
  obtain ⟨first, again⟩ := settled rfl
  rw [text] at tokens run first again
  refine ⟨rfl, rfl, text, tokens, ?_, spelling, ?_, again {} {}⟩
  · rw [run {} {} rfl]
    rfl
  · rw [first {} {} rfl]
    rfl

end Run

end LoxExpr
