import LoxExpr.Proofs.NearestNumber
import LoxExpr.Proofs.WrittenOut
import Mathlib.Data.List.TakeWhile

/-!
The values of the numbers in a source.

`denoted` reads a number digit by digit, each at its own place. It is the fraction that a decimal
stands for (`Decimal.value_ofDigits`), so the value of a number token is the one that the whole text
of the token is rounded to, however many digits there are.
-/

set_option autoImplicit false
set_option relaxedAutoImplicit false

namespace LoxExpr

def digitValue (c : Char) : ℚ := (c.toNat - '0'.toNat : Nat)

def wholeValue : List Char → ℚ
  | [] => 0
  | c :: w => digitValue c * 10 ^ w.length + wholeValue w

/-- The number that digits stand for behind a point: the first counts tenths, and every other a
tenth of the one in front of it. -/
def fractionValue : List Char → ℚ
  | [] => 0
  | c :: w => (digitValue c + fractionValue w) / 10

/-- The number that a text of digits denotes, up to a point in front of it and from there behind. -/
def denoted (w : List Char) : ℚ :=
  wholeValue (w.takeWhile (· != '.')) + fractionValue (w.dropWhile (· != '.')).tail

theorem ofDigitChars_cons_zero (c : Char) (w : List Char) : Nat.ofDigitChars 10 (c :: w) 0 =
    10 ^ w.length * (c.toNat - '0'.toNat) + Nat.ofDigitChars 10 w 0 := by
  rw [Nat.ofDigitChars_cons, Nat.ofDigitChars_eq_ofDigitChars_zero, Nat.mul_zero, Nat.zero_add]

theorem wholeValue_eq (w : List Char) : wholeValue w = Nat.ofDigitChars 10 w 0 := by
  induction w with
  | nil => rfl
  | cons c w ih =>
    rw [wholeValue, ih, digitValue, ofDigitChars_cons_zero, Nat.cast_add, Nat.cast_mul,
      Nat.cast_pow, Nat.cast_ofNat, mul_comm]

theorem fractionValue_eq (w : List Char) :
    fractionValue w = Nat.ofDigitChars 10 w 0 / 10 ^ w.length := by
  induction w with
  | nil => simp [fractionValue]
  | cons c w ih =>
    rw [fractionValue, ih, digitValue, ofDigitChars_cons_zero, Nat.cast_add, Nat.cast_mul,
      Nat.cast_pow, Nat.cast_ofNat, List.length_cons, pow_succ]
    field_simp

theorem Digits.forall_ne_point {w : List Char} (digits : Digits w) :
    ∀ c ∈ w, (c != '.') = true := by
  intro c hc
  exact bne_iff_ne.mpr fun point => digits.point_not_mem (point ▸ hc)

theorem denoted_of_digits {w : List Char} (digits : Digits w) : denoted w = wholeValue w := by
  rw [denoted, List.takeWhile_eq_self_iff.mpr digits.forall_ne_point,
    List.dropWhile_eq_nil_iff.mpr digits.forall_ne_point, List.tail_nil, fractionValue, add_zero]

theorem denoted_of_point {v w : List Char} (digits : Digits v) :
    denoted (v ++ '.' :: w) = wholeValue v + fractionValue w := by
  rw [denoted, List.takeWhile_append_of_pos digits.forall_ne_point,
    List.dropWhile_append_of_pos digits.forall_ne_point]
  simp

namespace Decimal

def value (d : Decimal) : ℚ := d.digits / 10 ^ d.places

theorem value_ofDigits (whole fraction : List Char) :
    (ofDigits whole fraction).value = wholeValue whole + fractionValue fraction := by
  rw [value, ofDigits, Nat.ofDigitChars_append, Nat.ofDigitChars_eq_ofDigitChars_zero,
    wholeValue_eq, fractionValue_eq]
  push_cast
  field_simp

theorem value_eq (d : Decimal) : d.value = d.digits / (Nat.pow 10 d.places : Nat) := by
  rw [value, Nat.pow_eq, Nat.cast_pow, Nat.cast_ofNat]

theorem scale_pos (d : Decimal) : 0 < Nat.pow 10 d.places := by
  rw [Nat.pow_eq]
  exact Nat.pow_pos (by decide)

theorem isNearest_toBinary64 (d : Decimal) : d.toBinary64.IsNearest d.value := by
  rw [value_eq]
  exact Binary64.isNearest_nearest d.digits d.scale_pos

variable {d d' : Decimal}

theorem toBinary64_congr (same : d.value = d'.value) : d.toBinary64 = d'.toBinary64 :=
  d.isNearest_toBinary64.unique (same ▸ d'.isNearest_toBinary64)

theorem toBinary64_mono (le : d.value ≤ d'.value) (finite : d'.toBinary64.isFinite = true) :
    d.toBinary64.isFinite = true ∧ d.toBinary64.value ≤ d'.toBinary64.value := by
  rw [value_eq, value_eq] at le
  exact Binary64.nearest_mono d.scale_pos d'.scale_pos le finite

end Decimal

theorem Token.Kind.Value.exists_decimal {w : List Char} {value : Option Literal}
    (h : Token.Kind.Value .number w value) :
    ∃ d : Decimal, value = some (.number d.toBinary64) ∧ d.value = denoted w := by
  cases h with
  | integer digits =>
    refine ⟨_, rfl, ?_⟩
    rw [Decimal.value_ofDigits, denoted_of_digits digits, fractionValue, add_zero]
  | decimal whole fraction =>
    refine ⟨_, rfl, ?_⟩
    rw [Decimal.value_ofDigits, denoted_of_point whole]
  | none _ notNumber => exact absurd rfl notNumber

namespace Scan

theorem mem_words_of_kind_ne {s : Scan} {t : Token} (ht : t ∈ s.tokens) (notEnd : t.kind ≠ .eof) :
    t ∈ s.words := by
  rcases List.mem_append.mp ht with word | last
  · exact word
  · rw [List.mem_singleton.mp last] at notEnd
    exact absurd rfl notEnd

theorem exists_decimal_of_mem {source : String} {t : Token} (ht : t ∈ (ofSource source).tokens)
    (number : t.kind = .number) : Token.Kind.Spelling .number t.lexeme.toList ∧
      ∃ d : Decimal, t.literal? = some (.number d.toBinary64) ∧
        d.value = denoted t.lexeme.toList := by
  have word : t ∈ (ofSource source).words := mem_words_of_kind_ne ht (by simp [number])
  have isOf := isOf_of_mem_words word
  exact ⟨number ▸ isOf.spelling, (number ▸ isOf.value).exists_decimal⟩

/-- The value of a number token is the number that its whole text is rounded to.

The text is digits, or digits, a point and digits. The number is the nearest to what they denote,
with ties to the even significand, and infinity beyond the largest finite number. So texts that
denote the same have the same bits for their values, and the value of a text that denotes more is no
smaller. -/
theorem number_tokens_nearest (source : String) (t : Token) (ht : t ∈ (ofSource source).tokens)
    (number : t.kind = .number) :
    Token.Kind.Spelling .number t.lexeme.toList ∧
      ∃ x : Binary64, t.literal? = some (.number x) ∧ x.IsNearest (denoted t.lexeme.toList) ∧
        ∀ (source' : String) (t' : Token), t' ∈ (ofSource source').tokens → t'.kind = .number →
          ∃ x' : Binary64, t'.literal? = some (.number x') ∧
            (denoted t.lexeme.toList = denoted t'.lexeme.toList → x.bits = x'.bits) ∧
            (denoted t.lexeme.toList ≤ denoted t'.lexeme.toList → x'.isFinite = true →
              x.isFinite = true ∧ x.value ≤ x'.value) := by
  obtain ⟨spelling, d, value, denotes⟩ := exists_decimal_of_mem ht number
  refine ⟨spelling, d.toBinary64, value, denotes ▸ d.isNearest_toBinary64, ?_⟩
  intro source' t' ht' number'
  obtain ⟨-, d', value', denotes'⟩ := exists_decimal_of_mem ht' number'
  refine ⟨d'.toBinary64, value', ?_, ?_⟩
  · intro same
    rw [← denotes, ← denotes'] at same
    rw [Decimal.toBinary64_congr same]
  · intro le finite
    rw [← denotes, ← denotes'] at le
    exact Decimal.toBinary64_mono le finite

theorem number_tokens_nearest_tie :
    ∃ t ∈ (ofSource "-09007199254740993.0").tokens, t.kind = .number ∧
      t.literal? = some (.number ⟨0x4340000000000000⟩) ∧
      Binary64.IsNearest 9007199254740993 ⟨0x4340000000000000⟩ := by
  let t : Token := ⟨.number, "09007199254740993.0", some (.number ⟨0x4340000000000000⟩), ⟨1, 1⟩⟩
  have ht : t ∈ (ofSource "-09007199254740993.0").tokens := by decide +kernel
  have denotes : denoted t.lexeme.toList = 9007199254740993 := by decide +kernel
  obtain ⟨-, x, value, nearest, -⟩ := number_tokens_nearest _ t ht rfl
  obtain rfl := Literal.number.inj (Option.some.inj value)
  exact ⟨t, ht, rfl, rfl, denotes ▸ nearest⟩

end Scan

end LoxExpr
