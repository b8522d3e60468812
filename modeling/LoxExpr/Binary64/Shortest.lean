import LoxExpr.Decimal

/-!
The shortest decimal that reads back as a given binary64 number.

A magnitude of `u` least units is exactly `u * 5 ^ 1074` in units of `10 ^ (-1074)`. Grids of powers
of ten are tried from a coarse one down; on each, only the two neighbours of the magnitude can be
nearest, and the first grid with a neighbour that reads back has the fewest digits. The finest grid
holds the magnitude itself.
-/

set_option autoImplicit false
set_option relaxedAutoImplicit false

namespace LoxExpr.Binary64

/-- The least positive number, `2 ^ (-1074)`, in units of `10 ^ (-1074)`. -/
def decimalUnit : Nat := Nat.pow 5 1074

/-- The magnitude of a finite number in units of `10 ^ (-1074)`. -/
def decimalUnits (x : Binary64) : Nat := x.units * decimalUnit

/-- The decimal `count * 10 ^ grid` in units of `10 ^ (-1074)`. -/
def gridPoint (grid count : Nat) : Decimal :=
  if 1074 ≤ grid then ⟨count * Nat.pow 10 (grid - 1074), 0⟩ else ⟨count, 1074 - grid⟩

/-- The nearest of the magnitude's two neighbours on a grid, among those that read back as the
number; of two equally near ones the larger. -/
def onGrid? (x : Binary64) (grid : Nat) : Option Decimal :=
  let count := x.decimalUnits / Nat.pow 10 grid
  let excess := x.decimalUnits % Nat.pow 10 grid
  let lower := gridPoint grid count
  let upper := gridPoint grid (count + 1)
  if lower.toBinary64 = x then
    if upper.toBinary64 = x ∧ Nat.pow 10 grid ≤ 2 * excess then some upper else some lower
  else if upper.toBinary64 = x then some upper else none

/-- The decimal found at the largest number from the given one down to 1; `other` if there is none
at any of them. -/
def lastFound (find? : Nat → Option Decimal) (other : Decimal) : Nat → Decimal
  | 0 => other
  | n + 1 =>
    match find? (n + 1) with
    | some d => d
    | none => lastFound find? other n

/-- The point on the coarsest grid, from the given one down, that reads back as the number. -/
def coarsest (x : Binary64) (grid : Nat) : Decimal :=
  lastFound x.onGrid? ⟨x.decimalUnits, 1074⟩ grid

/-- A grid coarser than the magnitude: `30103 / 100000` exceeds the decimal logarithm of 2. -/
def coarseGrid (x : Binary64) : Nat := (x.decimalUnits.log2 + 1) * 30103 / 100000 + 1

/-- The shortest decimal that reads back as a finite number with clear sign bit. -/
def shortest (x : Binary64) : Decimal :=
  if x.pattern = 0 then ⟨0, 0⟩ else coarsest x x.coarseGrid

/-- The text of a number: the shortest decimal, without an exponent, behind a sign if negative. -/
def text (x : Binary64) : String :=
  if x.isNaN then
    "NaN"
  else
    let magnitude := if x.isFinite then String.ofList x.abs.shortest.text else "inf"
    if x.isNegative then "-" ++ magnitude else magnitude

end LoxExpr.Binary64
