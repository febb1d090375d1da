import LexicalLisp.Number.Decimal

/-!
# Floats as exact binary numbers

A finite float is a natural number of units of a power of two, with a sign. On
that view the remainder of a division is computed exactly: it is the remainder
of two naturals on the finer of the two grids, and it is always a float again,
because it is smaller than the divisor and a multiple of the finer unit.
-/

namespace LexicalLisp

/-- The number `mantissa * 2 ^ exponent`, negated if `negative`. -/
structure Binary where
  negative : Bool
  mantissa : Nat
  exponent : Int
  deriving DecidableEq, Repr

namespace Binary

/-- The parts of a finite float. The exponent field zero marks the subnormal
numbers, which have no leading one and the exponent of the least normal numbers. -/
def ofFloat (x : Float) : Binary :=
  let bits := x.toBits.toNat
  let field : Nat := bits / Nat.pow 2 52 % Nat.pow 2 11
  let fraction : Nat := bits % Nat.pow 2 52
  if field = 0 then ⟨Nat.pow 2 63 ≤ bits, fraction, -1074⟩
  else ⟨Nat.pow 2 63 ≤ bits, Nat.pow 2 52 + fraction, (field : Int) - 1075⟩

/-- The magnitude written exactly in decimal: half a unit is five tenths of it. -/
def toDecimal (x : Binary) : Decimal :=
  if 0 ≤ x.exponent then ⟨x.mantissa * Nat.pow 2 x.exponent.toNat, 0⟩
  else ⟨x.mantissa * Nat.pow 5 (-x.exponent).toNat, x.exponent⟩

def toFloat (x : Binary) : Float :=
  if x.negative then -x.toDecimal.toFloat else x.toDecimal.toFloat

/-- The mantissa on a grid of units `2 ^ e`, for `e` at most the exponent. -/
def mantissaAt (x : Binary) (e : Int) : Nat := x.mantissa * Nat.pow 2 (x.exponent - e).toNat

def rem (x y : Binary) : Binary :=
  let e := min x.exponent y.exponent
  ⟨x.negative, x.mantissaAt e % y.mantissaAt e, e⟩

end Binary

/-- The remainder of the truncated division of floats, exact. There is none for
an infinite dividend or a zero divisor; an infinite divisor leaves the dividend. -/
def floatRem (x y : Float) : Float :=
  if x.isNaN || y.isNaN || x.isInf || y == 0 then 0 / 0
  else if y.isInf then x
  else ((Binary.ofFloat x).rem (Binary.ofFloat y)).toFloat

/-- The remainder that belongs to the rounded-down quotient: the truncated
remainder, moved by the divisor where the signs differ. -/
def floatMod (x y : Float) : Float :=
  let r := floatRem x y
  if r != 0 && decide (r < 0) != decide (y < 0) then r + y else r

end LexicalLisp
