import LexicalLisp.Number.Binary

/-!
# The fewest digits that read back

Of the decimals that round to a given float, the shortest one is written. The
numbers that round to `m * 2 ^ q` form an interval, from halfway to the float
below to halfway to the float above, ends included when `m` is even. Decimals
with a given last place form a grid, and on each grid only the two neighbours
of the value itself can be the nearest point of the interval. So grids are tried
from the coarsest one on; on the first that has a point in the interval the
nearer neighbour is taken, and the upper one of two equally near.
-/

namespace LexicalLisp.Shortest

/-- A positive float and the ends of its rounding interval, as numerators over
the common denominator `4 * 2 ^ (-exponent)` or, for large exponents, `4`. -/
structure Interval where
  low : Nat
  value : Nat
  high : Nat
  denominator : Nat
  closed : Bool

/-- Below a power of two the floats lie twice as close, unless they are subnormal there. -/
def narrowBelow (x : Binary) : Bool := x.mantissa = Nat.pow 2 52 && x.exponent ≠ -1074

def Interval.of (x : Binary) : Interval where
  low := (4 * x.mantissa - if narrowBelow x then 1 else 2) * Nat.pow 2 x.exponent.toNat
  value := 4 * x.mantissa * Nat.pow 2 x.exponent.toNat
  high := (4 * x.mantissa + 2) * Nat.pow 2 x.exponent.toNat
  denominator := 4 * Nat.pow 2 (-x.exponent).toNat
  closed := x.mantissa % 2 = 0

namespace Interval

/-- The same interval in units of `10 ^ e`. -/
def scale (i : Interval) (e : Int) : Interval :=
  let up := Nat.pow 10 (-e).toNat
  ⟨i.low * up, i.value * up, i.high * up, i.denominator * Nat.pow 10 e.toNat, i.closed⟩

def contains (i : Interval) (n : Nat) : Bool :=
  let point := n * i.denominator
  (i.low < point && point < i.high) || (i.closed && (point = i.low || point = i.high))

/-- The whole number in the interval nearest to the value, the upper one of two
equally near; `none` if neither neighbour of the value lies in it. -/
def nearest? (i : Interval) : Option Nat :=
  let below := i.value / i.denominator
  let lowerIsNearer := 2 * i.value < (2 * below + 1) * i.denominator
  match i.contains below, i.contains (below + 1) with
  | true, true => some (if lowerIsNearer then below else below + 1)
  | true, false => some below
  | false, true => some (below + 1)
  | false, false => none

end Interval

/-- The least `k` such that the value lies below `10 ^ k`. The binary logarithm
gives it up to one, since `1233 / 4096` is close to the logarithm of two. -/
def decimalScale (x : Binary) : Int :=
  let i := Interval.of x
  let guess := ((x.mantissa.log2 : Int) + x.exponent) * 1233 / 4096 - 1
  let below (k : Int) : Bool := (i.scale k).value < (i.scale k).denominator
  ((List.range 4).map fun (n : Nat) => guess + n).find? below |>.getD (guess + 4)

/-- Moves trailing zeros of the digits into the exponent, at most `fuel` of them. -/
def stripZeros : Nat → Decimal → Decimal
  | 0, d => d
  | fuel + 1, d =>
    if d.digits ≠ 0 ∧ d.digits % 10 = 0 then stripZeros fuel ⟨d.digits / 10, d.exponent + 1⟩ else d

/-- The shortest decimal that rounds to a positive float. Seventeen digits
always suffice; beyond them the exact value stands in. -/
def ofBinary (x : Binary) : Decimal :=
  let k := decimalScale x
  let onGrid (n : Nat) : Option Decimal :=
    let e := k - (n + 1)
    ((Interval.of x).scale e).nearest?.map fun digits => ⟨digits, e⟩
  stripZeros 20 (((List.range 17).findSome? onGrid).getD x.toDecimal)

end LexicalLisp.Shortest
