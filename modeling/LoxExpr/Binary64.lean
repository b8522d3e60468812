/-!
Binary floating point numbers of 64 bits as bit patterns, without arithmetic: sign, magnitude and
the comparison of numbers.
-/

set_option autoImplicit false
set_option relaxedAutoImplicit false

namespace LoxExpr

/-- A binary64 number, given by its 64 bits: sign, 11 bits of exponent, 52 bits of fraction. -/
structure Binary64 where
  bits : UInt64
  deriving DecidableEq

namespace Binary64

/-- The bits without the sign; of two numbers with clear sign the larger has the larger pattern. -/
def pattern (x : Binary64) : Nat := x.bits.toNat % Nat.pow 2 63

def isNegative (x : Binary64) : Bool := Nat.pow 2 63 ≤ x.bits.toNat

/-- The pattern of infinity: all bits of the exponent set and no bit of the fraction. -/
def infinityPattern : Nat := 2047 * Nat.pow 2 52

/-- The number with clear sign bit and the given pattern; patterns beyond infinity give infinity. -/
def ofPattern (n : Nat) : Binary64 := ⟨UInt64.ofNat (min n infinityPattern)⟩

def isFinite (x : Binary64) : Bool := x.pattern < infinityPattern

/-- The pattern stands for no number. -/
def isNaN (x : Binary64) : Bool := infinityPattern < x.pattern

/-- The magnitude of a finite number in units of `2 ^ (-1074)`, the least positive number. -/
def units (x : Binary64) : Nat :=
  let exponent := x.pattern / Nat.pow 2 52
  let fraction := x.pattern % Nat.pow 2 52
  if exponent = 0 then fraction else (Nat.pow 2 52 + fraction) * Nat.pow 2 (exponent - 1)

def abs (x : Binary64) : Binary64 := ⟨UInt64.ofNat x.pattern⟩

/-- Numbers are equal when their values are: both zeros are one, and a NaN equals nothing. -/
def equal (x y : Binary64) : Bool :=
  !x.isNaN && !y.isNaN && (x.bits == y.bits || (x.pattern == 0 && y.pattern == 0))

end Binary64

end LoxExpr
