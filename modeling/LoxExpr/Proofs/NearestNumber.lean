import LoxExpr.Proofs.Magnitude

/-!
The number nearest to a fraction.

`Binary64.value` is the value of a finite number, read off its fields, and `Binary64.IsNearest` says
that a number is the one that a value is rounded to, of which there is one only
(`Binary64.IsNearest.unique`). `Binary64.nearest` finds it (`Binary64.isNearest_nearest`), and it
finds a number again from the value of that number (`Binary64.nearest_eq_of_value`).
-/

set_option autoImplicit false
set_option relaxedAutoImplicit false

namespace LoxExpr

namespace Binary64

def exponent (x : Binary64) : Nat := x.pattern / 2 ^ 52

def significand (x : Binary64) : Nat :=
  if x.exponent = 0 then x.pattern % 2 ^ 52 else 2 ^ 52 + x.pattern % 2 ^ 52

/-- The value of a finite number: a power of two, as often as the significand says. The power is the
same for the two least exponents. -/
def value (x : Binary64) : ℚ :=
  (if x.isNegative then -1 else 1) * x.significand * 2 ^ ((max x.exponent 1 : ℤ) - 1075)

/-- A number is the one that a value is rounded to: of all finite numbers the nearest, and if there
are two, the one with the even significand. From the middle between the largest finite number and
`2 ^ 1024` on, the value is rounded to infinity. -/
structure IsNearest (q : ℚ) (x : Binary64) : Prop where
  not_negative : x.isNegative = false
  not_nan : x.isNaN = false
  infinite_iff : x.isFinite = false ↔ 2 ^ 1024 - 2 ^ 970 ≤ q
  nearest (y : Binary64) : x.isFinite = true → y.isFinite = true → |x.value - q| ≤ |y.value - q|
  even (y : Binary64) : x.isFinite = true → y.isFinite = true → |x.value - q| = |y.value - q| →
    y.value ≠ x.value → x.significand % 2 = 0

section Fields

variable {x : Binary64} {n : Nat}

theorem toNat_bits_ofPattern (n : Nat) : (ofPattern n).bits.toNat = min n infinityPattern := by
  have small : infinityPattern < 2 ^ 64 := by decide
  rw [ofPattern, UInt64.toNat_ofNat']
  exact Nat.mod_eq_of_lt (Nat.lt_of_le_of_lt (Nat.min_le_right ..) small)

theorem pattern_ofPattern (n : Nat) : (ofPattern n).pattern = min n infinityPattern := by
  have small : infinityPattern < Nat.pow 2 63 := by decide
  rw [pattern, toNat_bits_ofPattern]
  exact Nat.mod_eq_of_lt (Nat.lt_of_le_of_lt (Nat.min_le_right ..) small)

theorem isNegative_ofPattern (n : Nat) : (ofPattern n).isNegative = false := by
  have small : infinityPattern < Nat.pow 2 63 := by decide
  rw [isNegative, toNat_bits_ofPattern, decide_eq_false_iff_not, Nat.not_le]
  exact Nat.lt_of_le_of_lt (Nat.min_le_right ..) small

theorem isNaN_ofPattern (n : Nat) : (ofPattern n).isNaN = false := by
  rw [isNaN, pattern_ofPattern, decide_eq_false_iff_not, Nat.not_lt]
  exact Nat.min_le_right ..

theorem isFinite_ofPattern_iff : (ofPattern n).isFinite = true ↔ n < infinityPattern := by
  rw [isFinite, pattern_ofPattern, decide_eq_true_eq, min_lt_iff, or_iff_left (lt_irrefl _)]

theorem pattern_of_isFinite (finite : (ofPattern n).isFinite = true) :
    (ofPattern n).pattern = n := by
  rw [pattern_ofPattern, Nat.min_eq_left (isFinite_ofPattern_iff.mp finite).le]

theorem ofPattern_pattern (positive : x.isNegative = false) (number : x.isNaN = false) :
    ofPattern x.pattern = x := by
  rw [isNegative, decide_eq_false_iff_not, Nat.not_le] at positive
  rw [isNaN, decide_eq_false_iff_not, Nat.not_lt] at number
  have bits : x.pattern = x.bits.toNat := Nat.mod_eq_of_lt positive
  rw [ofPattern, Nat.min_eq_left number, bits, UInt64.ofNat_toNat]

theorem significand_mod_two (x : Binary64) : x.significand % 2 = x.pattern % 2 := by
  rw [significand]
  split <;> omega

theorem units_eq (x : Binary64) : x.units = x.significand * 2 ^ (max x.exponent 1 - 1) := by
  rw [units_eq_magnitude, magnitude, significand, exponent]
  split
  · rename_i least
    rw [least, Nat.max_eq_right (Nat.zero_le 1), Nat.sub_self, Nat.pow_zero, Nat.mul_one]
  · rename_i more
    rw [Nat.max_eq_left (Nat.pos_of_ne_zero more)]

theorem value_eq (x : Binary64) :
    x.value = (if x.isNegative then -1 else 1) * (x.units / 2 ^ 1074) := by
  have scale : (2 : ℚ) ^ ((max x.exponent 1 : ℤ) - 1075) =
      2 ^ (max x.exponent 1 - 1) / 2 ^ 1074 := by
    rw [← zpow_natCast, ← zpow_natCast, ← zpow_sub₀ two_ne_zero]
    congr 1
    omega
  rw [value, scale, units_eq, Nat.cast_mul, Nat.cast_pow, Nat.cast_ofNat, mul_div_assoc, mul_assoc]

theorem value_of_not_negative (positive : x.isNegative = false) :
    x.value = magnitude x.pattern / 2 ^ 1074 := by
  rw [value_eq, positive, units_eq_magnitude, if_neg Bool.false_ne_true, one_mul]

theorem value_of_negative (negative : x.isNegative = true) :
    x.value = -(magnitude x.pattern / 2 ^ 1074) := by
  rw [value_eq, negative, units_eq_magnitude, if_pos rfl, neg_one_mul]

end Fields

section Nearest

variable {q : ℚ} {x y : Binary64} {n num den : Nat}

theorem abs_value_sub (q : ℚ) (clear : y.isNegative = false) :
    |y.value - q| = |(magnitude y.pattern : ℚ) - q * 2 ^ 1074| / 2 ^ 1074 := by
  have scale : (0 : ℚ) < 2 ^ 1074 := pow_pos two_pos _
  rw [value_of_not_negative clear, div_sub' scale.ne', abs_div, abs_of_pos scale, mul_comm q]

theorem abs_value_sub_of_negative (positive : 0 ≤ q) (negative : y.isNegative = true) :
    |y.value - q| = ((magnitude y.pattern : ℚ) + q * 2 ^ 1074) / 2 ^ 1074 := by
  have scale : (0 : ℚ) < 2 ^ 1074 := pow_pos two_pos _
  have nonneg : (0 : ℚ) ≤ magnitude y.pattern / 2 ^ 1074 :=
    div_nonneg (Nat.cast_nonneg _) scale.le
  rw [value_of_negative negative, add_div, mul_div_cancel_right₀ q scale.ne', ← neg_add', abs_neg,
    abs_of_nonneg (add_nonneg nonneg positive)]

theorem abs_magnitude_sub_le (positive : 0 ≤ q) (y : Binary64) :
    |(magnitude y.pattern : ℚ) - q * 2 ^ 1074| / 2 ^ 1074 ≤ |y.value - q| := by
  have scale : (0 : ℚ) < 2 ^ 1074 := pow_pos two_pos _
  cases sign : y.isNegative with
  | false => exact (abs_value_sub q sign).ge
  | true =>
    rw [abs_value_sub_of_negative positive sign, div_le_div_iff_of_pos_right scale]
    have nonneg : (0 : ℚ) ≤ magnitude y.pattern := Nat.cast_nonneg _
    have nonneg' : 0 ≤ q * 2 ^ 1074 := mul_nonneg positive scale.le
    generalize q * 2 ^ 1074 = u at *
    exact abs_sub_le_iff.mpr ⟨by linarith, by linarith⟩

/-- Rounding goes to infinity from the middle between the largest finite number and infinity on,
where the pattern of infinity is the even one. -/
theorem Rounds.infinityPattern_le_iff {u : ℚ} (rounds : Rounds u n) :
    infinityPattern ≤ n ↔ (2 ^ 54 - 1) * 2 ^ 2044 ≤ u := by
  have next : infinityPattern - 1 + 1 = infinityPattern := rfl
  have atInfinity : (magnitude infinityPattern : ℚ) = 2 ^ 54 * 2 ^ 2044 := by
    have parts : infinityPattern = 2046 * 2 ^ 52 + 2 ^ 52 := rfl
    rw [parts, magnitude_mul_add_cast (.inr le_rfl) (by omega), pow_add 2 2044 2]
    generalize (2 : ℚ) ^ 2044 = step
    push_cast
    ring
  have atLargest : (magnitude (infinityPattern - 1) : ℚ) = (2 ^ 54 - 2) * 2 ^ 2044 := by
    have parts : infinityPattern - 1 = 2045 * 2 ^ 52 + (2 ^ 53 - 1) := rfl
    rw [parts, magnitude_mul_add_cast (.inr (by omega)) (by omega), pow_succ 2 2044]
    generalize (2 : ℚ) ^ 2044 = step
    push_cast
    ring
  have positive : (0 : ℚ) < 2 ^ 2044 := pow_pos two_pos _
  generalize (2 : ℚ) ^ 2044 = step at *
  constructor
  · intro infinite
    have beyond := magnitude_le_cast infinite
    have apart := magnitude_lt_cast (Nat.lt_of_lt_of_le (Nat.lt_succ_self _) (next ▸ infinite))
    have near := (abs_sub_le_abs_sub_iff' apart).mp (rounds.nearest (infinityPattern - 1))
    linarith
  · intro large
    have middle : Rounds ((2 ^ 54 - 1) * step) (infinityPattern - 1 + 1) := by
      refine .of_upper ?_ ?_ fun _ => rfl
      · rw [next, atInfinity]
        linarith
      · rw [next, atInfinity, atLargest]
        linarith
    exact next ▸ middle.le rounds large

theorem Rounds.magnitude_eq_zero {u : ℚ} (rounds : Rounds u n) (positive : 0 ≤ u)
    (same : |(magnitude n : ℚ) - u| = magnitude n + u) : (magnitude n : ℚ) = 0 := by
  have nonneg : (0 : ℚ) ≤ magnitude n := Nat.cast_nonneg _
  have zero : ((magnitude 0 : Nat) : ℚ) = 0 := Nat.cast_zero
  have near := rounds.nearest 0
  rw [same, zero, zero_sub, abs_neg, abs_of_nonneg positive] at near
  linarith

theorem Rounds.isNearest (rounds : Rounds (q * 2 ^ 1074) n) (positive : 0 ≤ q) :
    (ofPattern n).IsNearest q where
  not_negative := isNegative_ofPattern n
  not_nan := isNaN_ofPattern n
  infinite_iff := by
    have scale : (0 : ℚ) < 2 ^ 1074 := pow_pos two_pos _
    have threshold : ((2 ^ 54 - 1) * 2 ^ 2044 : ℚ) = (2 ^ 1024 - 2 ^ 970) * 2 ^ 1074 := by
      rw [pow_add 2 970 1074, pow_add 2 970 54]
      generalize (2 : ℚ) ^ 970 = a
      generalize (2 : ℚ) ^ 1074 = b
      ring
    rw [← Bool.not_eq_true, isFinite_ofPattern_iff, not_lt, rounds.infinityPattern_le_iff,
      threshold, mul_le_mul_iff_left₀ scale]
  nearest y finite _ := by
    have scale : (0 : ℚ) < 2 ^ 1074 := pow_pos two_pos _
    rw [abs_value_sub q (isNegative_ofPattern n), pattern_of_isFinite finite]
    refine le_trans ?_ (abs_magnitude_sub_le positive y)
    exact (div_le_div_iff_of_pos_right scale).mpr (rounds.nearest y.pattern)
  even y finite _ same other := by
    have scale : (0 : ℚ) < 2 ^ 1074 := pow_pos two_pos _
    rw [significand_mod_two, pattern_of_isFinite finite]
    rw [abs_value_sub q (isNegative_ofPattern n), pattern_of_isFinite finite] at same
    by_cases pattern : y.pattern = n
    · -- the only other number with this magnitude is the negative one
      exfalso
      apply other
      have xValue := value_of_not_negative (isNegative_ofPattern n)
      rw [pattern_of_isFinite finite] at xValue
      cases sign : y.isNegative with
      | false => rw [xValue, value_of_not_negative sign, pattern]
      | true =>
        rw [abs_value_sub_of_negative positive sign, div_left_inj' scale.ne', pattern] at same
        have zero := rounds.magnitude_eq_zero (mul_nonneg positive scale.le) same
        rw [xValue, value_of_negative sign, pattern, zero, zero_div, neg_zero]
    · have near := abs_magnitude_sub_le positive y
      rw [← same, div_le_div_iff_of_pos_right scale] at near
      exact rounds.even y.pattern (le_antisymm (rounds.nearest y.pattern) near) pattern

theorem exists_rounds_nearest (num : Nat) (positive : 0 < den) :
    ∃ n, Rounds (num / den * 2 ^ 1074) n ∧ nearest num den = ofPattern n := by
  obtain ⟨scaled, hs⟩ : ∃ scaled, num * 2 ^ 1074 = scaled := ⟨_, rfl⟩
  have units : (num / den * 2 ^ 1074 : ℚ) = scaled / den := by
    rw [← hs, Nat.cast_mul, Nat.cast_pow, Nat.cast_ofNat, div_mul_eq_mul_div]
  rw [units]
  refine ⟨_, rounds_roundQuotient scaled positive, ?_⟩
  simp only [nearest, Nat.pow_eq, hs]

theorem isNearest_nearest (num : Nat) (positive : 0 < den) :
    (nearest num den).IsNearest (num / den) := by
  obtain ⟨n, rounds, found⟩ := exists_rounds_nearest num positive
  rw [found]
  exact rounds.isNearest (by positivity)

theorem nearest_eq_of_value (positive : 0 < den) (clear : x.isNegative = false)
    (number : x.isNaN = false) (same : (num / den : ℚ) = x.value) : nearest num den = x := by
  obtain ⟨n, rounds, found⟩ := exists_rounds_nearest num positive
  have scale : (2 ^ 1074 : ℚ) ≠ 0 := pow_ne_zero _ two_ne_zero
  rw [same, value_of_not_negative clear, div_mul_cancel₀ _ scale] at rounds
  rw [found, rounds.unique (.self x.pattern), ofPattern_pattern clear number]

theorem nearest_mono {num' den' : Nat} (positive : 0 < den) (positive' : 0 < den')
    (le : (num / den : ℚ) ≤ num' / den') (finite : (nearest num' den').isFinite = true) :
    (nearest num den).isFinite = true ∧ (nearest num den).value ≤ (nearest num' den').value := by
  obtain ⟨n, rounds, found⟩ := exists_rounds_nearest num positive
  obtain ⟨n', rounds', found'⟩ := exists_rounds_nearest num' positive'
  have scale : (0 : ℚ) < 2 ^ 1074 := pow_pos two_pos _
  have order : n ≤ n' := rounds.le rounds' (mul_le_mul_of_nonneg_right le scale.le)
  rw [found'] at finite
  have finite' : (ofPattern n).isFinite = true :=
    isFinite_ofPattern_iff.mpr (Nat.lt_of_le_of_lt order (isFinite_ofPattern_iff.mp finite))
  rw [found, found', value_of_not_negative (isNegative_ofPattern n),
    value_of_not_negative (isNegative_ofPattern n'), pattern_of_isFinite finite,
    pattern_of_isFinite finite', div_le_div_iff_of_pos_right scale]
  exact ⟨finite', magnitude_le_cast order⟩

theorem value_lt_value (clear : x.isNegative = false) (clear' : y.isNegative = false)
    (earlier : x.pattern < y.pattern) : x.value < y.value := by
  rw [value_of_not_negative clear, value_of_not_negative clear']
  exact div_lt_div_of_pos_right (magnitude_lt_cast earlier) (pow_pos two_pos _)

namespace IsNearest

theorem pattern_le (h : x.IsNearest q) (h' : y.IsNearest q) (finite : x.isFinite = true)
    (finite' : y.isFinite = true) : y.pattern ≤ x.pattern := by
  by_contra earlier
  have earlier : x.pattern < y.pattern := Nat.lt_of_not_le earlier
  have apart := value_lt_value h.not_negative h'.not_negative earlier
  have same := le_antisymm (h.nearest y finite finite') (h'.nearest x finite' finite)
  have middle := (abs_sub_eq_abs_sub_iff apart).mp same
  have even := h.even y finite finite' same apart.ne'
  have even' := h'.even x finite' finite same.symm apart.ne
  rw [significand_mod_two] at even even'
  -- between two even patterns there is a third, which is nearer
  have between : x.pattern + 1 < y.pattern := by omega
  have room : y.pattern < infinityPattern := by simpa [isFinite] using finite'
  have third : (ofPattern (x.pattern + 1)).isFinite = true :=
    isFinite_ofPattern_iff.mpr (Nat.lt_trans between room)
  have pattern := pattern_of_isFinite third
  have clear := isNegative_ofPattern (x.pattern + 1)
  have above := value_lt_value h.not_negative clear (by rw [pattern]; exact Nat.lt_succ_self _)
  have below := value_lt_value clear h'.not_negative (by rwa [pattern])
  have near := (abs_sub_le_abs_sub_iff above).mp (h.nearest _ finite third)
  linarith

theorem unique (h : x.IsNearest q) (h' : y.IsNearest q) : x = y := by
  have pattern : x.pattern = y.pattern := by
    cases finite : x.isFinite with
    | true =>
      have finite' : y.isFinite = true := by
        rw [← Bool.not_eq_false, h'.infinite_iff, ← h.infinite_iff, finite]
        exact Bool.true_eq_false_eq_False
      exact Nat.le_antisymm (h'.pattern_le h finite' finite) (h.pattern_le h' finite finite')
    | false =>
      have infinite := h.infinite_iff.mp finite
      have infinite' := h'.infinite_iff.mpr infinite
      have number := h.not_nan
      have number' := h'.not_nan
      simp only [isFinite, isNaN, decide_eq_false_iff_not, Nat.not_lt] at *
      exact Nat.le_antisymm (number.trans infinite') (number'.trans finite)
  rw [← ofPattern_pattern h.not_negative h.not_nan, pattern,
    ofPattern_pattern h'.not_negative h'.not_nan]

end IsNearest

end Nearest

end Binary64

end LoxExpr
