/-! The shortest decimal that reads back as a given binary floating-point number.

A finite positive number is `mantissa * 2 ^ shift` in units of `2 ^ (-1074)`. Counted in
units of `10 ^ (-1076)`, the number and the two ends of the interval of reals that round
to it are whole, so everything below is exact arithmetic on natural numbers. -/
namespace DpllSat
namespace Decimal

structure Binary where
  mantissa : Nat
  shift : Nat
  deriving DecidableEq

structure Scaled where
  digits : Nat
  exponent : Int
  deriving DecidableEq

/-- The length of a fine unit: every end of a rounding interval is a multiple of
`10 ^ (-unitPlaces)`. -/
def unitPlaces : Nat := 1076

def quarter (b : Binary) : Nat := Nat.pow 2 b.shift * Nat.pow 5 unitPlaces

def leastMantissa : Nat := 4503599627370496

def value (b : Binary) : Nat := 4 * b.mantissa * quarter b

def upperEnd (b : Binary) : Nat := (4 * b.mantissa + 2) * quarter b

/-- Below the least mantissa the numbers lie twice as close. -/
def lowerEnd (b : Binary) : Nat :=
  if b.mantissa = leastMantissa ∧ 0 < b.shift then (4 * b.mantissa - 1) * quarter b
  else (4 * b.mantissa - 2) * quarter b

/-- Whether the decimal of `x` fine units rounds to `b`. The ends round to an even
mantissa. -/
def readsBack (b : Binary) (x : Nat) : Bool :=
  if b.mantissa % 2 = 0 then decide (lowerEnd b ≤ x ∧ x ≤ upperEnd b)
  else decide (lowerEnd b < x ∧ x < upperEnd b)

/-- The multiple of `grid` that reads back, the nearer one of the two neighbours of `b`
if both do, and the upper one if they are equally near. -/
def onGrid (b : Binary) (grid : Nat) : Option Nat :=
  let low := value b / grid
  match readsBack b (low * grid), readsBack b ((low + 1) * grid) with
  | false, false => none
  | true, false => some low
  | false, true => some (low + 1)
  | true, true =>
    if value b - low * grid < (low + 1) * grid - value b then some low else some (low + 1)

def maxDigits : Nat := 17

def shortest (b : Binary) : Scaled :=
  let width := (Nat.toDigits 10 (value b)).length
  let found := (List.range maxDigits).findSome? fun i =>
    (onGrid b (Nat.pow 10 (width - (i + 1)))).map fun d => (d, width - (i + 1))
  let (d, places) := found.getD (value b / Nat.pow 10 (width - maxDigits), width - maxDigits)
  if d % 10 = 0 then ⟨d / 10, (places + 1 : Int) - unitPlaces⟩
  else ⟨d, (places : Int) - unitPlaces⟩

end Decimal
end DpllSat
