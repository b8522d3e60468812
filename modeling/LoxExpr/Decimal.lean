import LoxExpr.Binary64.Nearest

/-!
Decimal fractions: their digits, their value and their positional text.
-/

set_option autoImplicit false
set_option relaxedAutoImplicit false

namespace LoxExpr

/-- The fraction `digits / 10 ^ places`. -/
structure Decimal where
  /-- All digits, read as one number. -/
  digits : Nat
  /-- How many of them stand behind the point. -/
  places : Nat
  deriving DecidableEq

namespace Decimal

def ofDigits (whole fraction : List Char) : Decimal where
  digits := Nat.ofDigitChars 10 (whole ++ fraction) 0
  places := fraction.length

def toBinary64 (d : Decimal) : Binary64 := Binary64.nearest d.digits (Nat.pow 10 d.places)

/-- All digits, with zeros in front so that at least one stands before the point. -/
def paddedDigits (d : Decimal) : List Char :=
  let digits := Nat.toDigits 10 d.digits
  List.replicate (d.places + 1 - digits.length) '0' ++ digits

def whole (d : Decimal) : List Char := d.paddedDigits.take (d.paddedDigits.length - d.places)

def fraction (d : Decimal) : List Char := d.paddedDigits.drop (d.paddedDigits.length - d.places)

/-- The positional text: digits, and a point with further digits where there are places. -/
def text (d : Decimal) : List Char :=
  if d.places = 0 then d.whole else d.whole ++ '.' :: d.fraction

end Decimal

end LoxExpr
