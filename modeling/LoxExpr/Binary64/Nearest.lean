import LoxExpr.Binary64

/-!
The binary64 number nearest to a fraction, in exact arithmetic.

In units of the least positive number, representable magnitudes are the multiples of `2 ^ s` with at
most 53 bits in the multiplier. Rounding to such a multiple gives the multiplier `m`, and the pattern
of the result is `s * 2 ^ 52 + m`: a multiplier that rounds up to `2 ^ 53` carries into the exponent.
-/

set_option autoImplicit false
set_option relaxedAutoImplicit false

namespace LoxExpr

/-- The integer nearest to `num / den`; a half goes to the even neighbour. -/
def roundQuotient (num den : Nat) : Nat :=
  let q := num / den
  let r := num % den
  if 2 * r < den then q else if den < 2 * r then q + 1 else q + q % 2

namespace Binary64

/-- The binary exponent, in units of the least positive number, of the last bit that a magnitude
of `num / den` units keeps. -/
def lastBit (num den : Nat) : Nat := (num / den).log2 - 52

/-- The number nearest to `num / den`, a tie going to the even pattern; infinity when that lies
beyond the largest finite number. -/
def nearest (num den : Nat) : Binary64 :=
  let scaled := num * Nat.pow 2 1074
  let s := lastBit scaled den
  ofPattern (s * Nat.pow 2 52 + roundQuotient scaled (den * Nat.pow 2 s))

end Binary64

end LoxExpr
