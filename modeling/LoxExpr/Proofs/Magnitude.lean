import LoxExpr.Binary64.Nearest
import Mathlib.Algebra.Order.Field.Basic
import Mathlib.Algebra.Order.Ring.Rat
import Mathlib.Data.Nat.Cast.Order.Ring
import Mathlib.Order.Monotone.Basic
import Mathlib.Tactic.FieldSimp
import Mathlib.Tactic.Linarith
import Mathlib.Tactic.Positivity
import Mathlib.Tactic.Ring

/-!
Rounding to the magnitudes that patterns stand for.

The magnitudes of the patterns, in units of the least positive number, grow with the patterns
(`Binary64.magnitude_strictMono`). `Binary64.Rounds` says that a pattern is the nearest to a number
of units, and the even one of two as near. It settles the pattern and keeps the order
(`Binary64.Rounds.le`), and the quotient that `Binary64.nearest` rounds has it
(`Binary64.rounds_roundQuotient`).
-/

set_option autoImplicit false
set_option relaxedAutoImplicit false

namespace LoxExpr

namespace Binary64

/-- The magnitude of a pattern in units of the least positive number. The patterns from infinity on
count as if the exponents went on. -/
def magnitude (n : Nat) : Nat :=
  if n / 2 ^ 52 = 0 then n % 2 ^ 52 else (2 ^ 52 + n % 2 ^ 52) * 2 ^ (n / 2 ^ 52 - 1)

theorem units_eq_magnitude (x : Binary64) : x.units = magnitude x.pattern := by
  simp only [units, magnitude, Nat.pow_eq]

/-- The multiplier of the last bit and the place of that bit make up the pattern. The multiplier may
have run over into the next exponent. -/
theorem magnitude_mul_add {s m : Nat} (lower : s = 0 ∨ 2 ^ 52 ≤ m) (upper : m ≤ 2 ^ 53) :
    magnitude (s * 2 ^ 52 + m) = m * 2 ^ s := by
  have digits : ∀ e f, f < 2 ^ 52 → (e * 2 ^ 52 + f) / 2 ^ 52 = e ∧ (e * 2 ^ 52 + f) % 2 ^ 52 = f := by
    intro e f hf
    omega
  rcases Nat.lt_or_ge m (2 ^ 52) with small | large
  · obtain rfl : s = 0 := lower.resolve_right (by omega)
    obtain ⟨exponent, fraction⟩ := digits 0 m small
    rw [magnitude, if_pos exponent, fraction, Nat.pow_zero, Nat.mul_one]
  rcases Nat.lt_or_eq_of_le upper with fits | rfl
  · obtain ⟨exponent, fraction⟩ := digits (s + 1) (m - 2 ^ 52) (by omega)
    have same : s * 2 ^ 52 + m = (s + 1) * 2 ^ 52 + (m - 2 ^ 52) := by omega
    rw [magnitude, same, exponent, fraction, if_neg (Nat.succ_ne_zero s), Nat.add_sub_cancel' large,
      Nat.add_sub_cancel]
  · obtain ⟨exponent, fraction⟩ := digits (s + 2) 0 (by omega)
    have same : s * 2 ^ 52 + 2 ^ 53 = (s + 2) * 2 ^ 52 + 0 := by omega
    rw [magnitude, same, exponent, fraction, if_neg (by omega), Nat.add_zero, ← Nat.pow_add,
      ← Nat.pow_add]
    congr 1
    omega

theorem exists_eq_mul_add (n : Nat) :
    ∃ s m, n = s * 2 ^ 52 + m ∧ (s = 0 ∨ 2 ^ 52 ≤ m) ∧ m < 2 ^ 53 := by
  rcases Nat.lt_or_ge n (2 ^ 52) with small | large
  · exact ⟨0, n, by omega, .inl rfl, by omega⟩
  · exact ⟨n / 2 ^ 52 - 1, 2 ^ 52 + n % 2 ^ 52, by omega, .inr (by omega), by omega⟩

theorem magnitude_strictMono : StrictMono magnitude := by
  apply strictMono_nat_of_lt_succ
  intro n
  obtain ⟨s, m, rfl, lower, upper⟩ := exists_eq_mul_add n
  rw [Nat.add_assoc, magnitude_mul_add lower upper.le,
    magnitude_mul_add (lower.imp_right fun h => by omega) (by omega)]
  exact Nat.mul_lt_mul_of_pos_right (Nat.lt_succ_self m) (Nat.two_pow_pos s)

theorem magnitude_mul_add_cast {s m : Nat} (lower : s = 0 ∨ 2 ^ 52 ≤ m) (upper : m ≤ 2 ^ 53) :
    (magnitude (s * 2 ^ 52 + m) : ℚ) = m * 2 ^ s := by
  rw [magnitude_mul_add lower upper, Nat.cast_mul, Nat.cast_pow, Nat.cast_ofNat]

theorem magnitude_lt_cast {n m : Nat} (h : n < m) : (magnitude n : ℚ) < magnitude m :=
  Nat.cast_lt.mpr (magnitude_strictMono h)

theorem magnitude_le_cast {n m : Nat} (h : n ≤ m) : (magnitude n : ℚ) ≤ magnitude m :=
  Nat.cast_le.mpr (magnitude_strictMono.monotone h)

section Distance

variable {a b u : ℚ}

theorem abs_sub_le_abs_sub_iff (h : a < b) : |a - u| ≤ |b - u| ↔ 2 * u ≤ a + b := by
  rw [← sq_le_sq]
  constructor <;> intro h' <;> nlinarith

theorem abs_sub_le_abs_sub_iff' (h : a < b) : |b - u| ≤ |a - u| ↔ a + b ≤ 2 * u := by
  rw [← sq_le_sq]
  constructor <;> intro h' <;> nlinarith

theorem abs_sub_eq_abs_sub_iff (h : a < b) : |a - u| = |b - u| ↔ 2 * u = a + b := by
  rw [le_antisymm_iff, abs_sub_le_abs_sub_iff h, abs_sub_le_abs_sub_iff' h, ← le_antisymm_iff]

end Distance

/-- No pattern is nearer to a number of least units, and if another is as near, this one is even. -/
structure Rounds (u : ℚ) (n : Nat) : Prop where
  nearest (k : Nat) : |(magnitude n : ℚ) - u| ≤ |(magnitude k : ℚ) - u|
  even (k : Nat) : |(magnitude n : ℚ) - u| = |(magnitude k : ℚ) - u| → k ≠ n → n % 2 = 0

namespace Rounds

variable {u v : ℚ} {n m lo : Nat}

theorem of_lower (above : (magnitude n : ℚ) ≤ u) (side : 2 * u ≤ magnitude n + magnitude (n + 1))
    (tie : 2 * u = magnitude n + magnitude (n + 1) → n % 2 = 0) : Rounds u n where
  nearest k := by
    rcases Nat.lt_trichotomy k n with earlier | rfl | later
    · have := magnitude_lt_cast earlier
      exact (abs_sub_le_abs_sub_iff' this).mpr (by linarith)
    · exact le_rfl
    · have := magnitude_le_cast (Nat.succ_le_of_lt later)
      exact (abs_sub_le_abs_sub_iff (magnitude_lt_cast later)).mpr (by linarith)
  even k same other := by
    apply tie
    rcases Nat.lt_or_gt_of_ne other with earlier | later
    · have := magnitude_lt_cast earlier
      have := (abs_sub_eq_abs_sub_iff this).mp same.symm
      linarith
    · have := magnitude_le_cast (Nat.succ_le_of_lt later)
      have := (abs_sub_eq_abs_sub_iff (magnitude_lt_cast later)).mp same
      linarith

theorem of_upper (below : u ≤ magnitude (n + 1)) (side : magnitude n + magnitude (n + 1) ≤ 2 * u)
    (tie : 2 * u = magnitude n + magnitude (n + 1) → (n + 1) % 2 = 0) : Rounds u (n + 1) where
  nearest k := by
    rcases Nat.lt_trichotomy k (n + 1) with earlier | rfl | later
    · have := magnitude_le_cast (Nat.le_of_lt_succ earlier)
      exact (abs_sub_le_abs_sub_iff' (magnitude_lt_cast earlier)).mpr (by linarith)
    · exact le_rfl
    · have := magnitude_lt_cast later
      exact (abs_sub_le_abs_sub_iff this).mpr (by linarith)
  even k same other := by
    apply tie
    rcases Nat.lt_or_gt_of_ne other with earlier | later
    · have := magnitude_le_cast (Nat.le_of_lt_succ earlier)
      have := (abs_sub_eq_abs_sub_iff (magnitude_lt_cast earlier)).mp same.symm
      linarith
    · have := magnitude_lt_cast later
      have := (abs_sub_eq_abs_sub_iff this).mp same
      linarith

theorem le (h : Rounds u n) (h' : Rounds v m) (le : u ≤ v) : n ≤ m := by
  by_contra later
  have later : m < n := Nat.lt_of_not_le later
  have apart := magnitude_lt_cast later
  -- each is at least as near to its number as the other, so both numbers are in the middle
  have first := (abs_sub_le_abs_sub_iff' apart).mp (h.nearest m)
  have second := (abs_sub_le_abs_sub_iff apart).mp (h'.nearest n)
  have even : n % 2 = 0 :=
    h.even m ((abs_sub_eq_abs_sub_iff apart).mpr (by linarith)).symm later.ne
  have even' : m % 2 = 0 :=
    h'.even n ((abs_sub_eq_abs_sub_iff apart).mpr (by linarith)) later.ne'
  -- between two even patterns there is a third, which is nearer
  have between : m + 1 < n := by omega
  have third := (abs_sub_le_abs_sub_iff' (magnitude_lt_cast between)).mp (h.nearest (m + 1))
  have := magnitude_lt_cast (Nat.lt_succ_self m)
  linarith

theorem unique (h : Rounds u n) (h' : Rounds u m) : n = m :=
  Nat.le_antisymm (h.le h' le_rfl) (h'.le h le_rfl)

theorem self (n : Nat) : Rounds (magnitude n) n where
  nearest k := by
    rw [sub_self, abs_zero]
    exact abs_nonneg _
  even k same other := by
    rw [sub_self, abs_zero, eq_comm, abs_eq_zero, sub_eq_zero, Nat.cast_inj] at same
    exact absurd (magnitude_strictMono.injective same) other

end Rounds

theorem roundQuotient_cases (num : Nat) {den : Nat} (positive : 0 < den) :
    (roundQuotient num den = num / den ∧ ((num / den : Nat) : ℚ) ≤ num / den ∧
        2 * (num / den : ℚ) ≤ 2 * (num / den : Nat) + 1 ∨
      roundQuotient num den = num / den + 1 ∧ (num / den : ℚ) ≤ (num / den : Nat) + 1 ∧
        2 * ((num / den : Nat) : ℚ) + 1 ≤ 2 * (num / den)) ∧
    (2 * (num / den : ℚ) = 2 * (num / den : Nat) + 1 → roundQuotient num den % 2 = 0) := by
  have denPos : (0 : ℚ) < den := Nat.cast_pos.mpr positive
  have excess : (num / den : ℚ) = (num / den : Nat) + (num % den : Nat) / den := by
    rw [div_eq_iff denPos.ne', add_mul, div_mul_cancel₀ _ denPos.ne', mul_comm]
    exact_mod_cast (Nat.div_add_mod num den).symm
  have nonneg : (0 : ℚ) ≤ (num % den : Nat) / den := by positivity
  have less : ((num % den : Nat) / den : ℚ) ≤ 1 := by
    rw [div_le_one denPos]
    exact_mod_cast (Nat.mod_lt num positive).le
  have half : 2 * ((num % den : Nat) / den : ℚ) = (2 * (num % den) : Nat) / den := by
    rw [Nat.cast_mul, Nat.cast_ofNat, mul_div_assoc]
  have before : 2 * ((num % den : Nat) / den : ℚ) ≤ 1 ↔ 2 * (num % den) ≤ den := by
    rw [half, div_le_one denPos, Nat.cast_le]
  have behind : 1 ≤ 2 * ((num % den : Nat) / den : ℚ) ↔ den ≤ 2 * (num % den) := by
    rw [half, one_le_div denPos, Nat.cast_le]
  rw [excess]
  generalize ((num % den : Nat) / den : ℚ) = part at *
  simp only [roundQuotient]
  split
  · rename_i low
    have := before.mpr low.le
    refine ⟨.inl ⟨rfl, by linarith, by linarith⟩, fun middle => ?_⟩
    have := behind.mp (by linarith)
    omega
  split
  · rename_i high
    have := behind.mpr high.le
    refine ⟨.inr ⟨rfl, by linarith, by linarith⟩, fun middle => ?_⟩
    have := before.mp (by linarith)
    omega
  · have low := before.mpr (by omega)
    have high := behind.mpr (by omega)
    rcases Nat.mod_two_eq_zero_or_one (num / den) with even | odd
    · exact ⟨.inl ⟨by omega, by linarith, by linarith⟩, fun _ => by omega⟩
    · exact ⟨.inr ⟨by omega, by linarith, by linarith⟩, fun _ => by omega⟩

theorem lastBit_bounds (num den : Nat) :
    num / (den * 2 ^ lastBit num den) < 2 ^ 53 ∧
      (lastBit num den = 0 ∨ 2 ^ 52 ≤ num / (den * 2 ^ lastBit num den)) := by
  rw [← Nat.div_div_eq_div_mul, lastBit]
  generalize num / den = units
  have positive : 0 < 2 ^ (units.log2 - 52) := Nat.two_pow_pos _
  constructor
  · rw [Nat.div_lt_iff_lt_mul positive, ← Nat.pow_add]
    have wide : units.log2 + 1 ≤ 53 + (units.log2 - 52) := by omega
    exact Nat.lt_of_lt_of_le Nat.lt_log2_self (Nat.pow_le_pow_right Nat.two_pos wide)
  · rcases Nat.le_total units.log2 52 with short | long
    · exact .inl (Nat.sub_eq_zero_of_le short)
    · have some : units ≠ 0 := by
        rintro rfl
        simp at long
      rw [Nat.le_div_iff_mul_le positive, ← Nat.pow_add, Nat.add_sub_cancel' long]
      exact .inr (Nat.log2_self_le some)

theorem rounds_roundQuotient (num : Nat) {den : Nat} (positive : 0 < den) :
    Rounds (num / den) (lastBit num den * 2 ^ 52 +
      roundQuotient num (den * 2 ^ lastBit num den)) := by
  obtain ⟨upper, lower⟩ := lastBit_bounds num den
  have units : (num / den : ℚ) =
      num / (den * 2 ^ lastBit num den : Nat) * 2 ^ lastBit num den := by
    push_cast
    field_simp
  obtain ⟨cases, even⟩ :=
    roundQuotient_cases num (Nat.mul_pos positive (Nat.two_pow_pos (lastBit num den)))
  rw [units]
  generalize lastBit num den = s at *
  generalize num / (den * 2 ^ s) = q at *
  generalize (num / (den * 2 ^ s : Nat) : ℚ) = x at *
  generalize roundQuotient num (den * 2 ^ s) = m at *
  have atLower := magnitude_mul_add_cast lower upper.le
  have atUpper := magnitude_mul_add_cast (lower.imp_right Nat.le_succ_of_le) upper
  rw [Nat.add_succ, Nat.cast_succ] at atUpper
  have unit : (0 : ℚ) < 2 ^ s := pow_pos two_pos s
  have tie : 2 * (x * 2 ^ s) = q * 2 ^ s + (q + 1) * 2 ^ s → 2 * x = 2 * q + 1 := by
    intro middle
    apply mul_right_cancel₀ unit.ne'
    linarith
  rcases cases with ⟨rfl, above, side⟩ | ⟨rfl, below, side⟩
  · refine .of_lower ?_ ?_ fun middle => ?_
    · rw [atLower]
      nlinarith
    · rw [atLower, atUpper]
      nlinarith
    · rw [atLower, atUpper] at middle
      have := even (tie middle)
      omega
  · rw [← Nat.add_assoc]
    refine .of_upper ?_ ?_ fun middle => ?_
    · rw [atUpper]
      nlinarith
    · rw [atLower, atUpper]
      nlinarith
    · rw [atLower, atUpper] at middle
      have := even (tie middle)
      omega

end Binary64

end LoxExpr
