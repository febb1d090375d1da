import LexicalLisp.Number.Shortest

/-!
# The text of a float

A finite float is written with the shortest digits that identify it. Numbers
from `10 ^ (-4)` up to, but not including, `10 ^ 16` are written positionally
and always show a point; all others have one digit before the point, no point
after a single digit, and an exponent without a plus sign. Zero keeps its sign,
and a value that is not a number never shows one.
-/

namespace LexicalLisp.FloatText

/-- Exponents of the leading digit from this one on are written positionally … -/
def positionalFrom : Int := -4

/-- … and up to, but not including, this one. -/
def positionalBelow : Int := 16

def zeros (n : Nat) : List Char := List.replicate n '0'

/-- Digits with the point after the first `n` of them; a missing part is written as zero. -/
def insertPoint (digits : List Char) (n : Nat) : List Char :=
  let whole := digits.take n ++ zeros (n - digits.length)
  let fraction := digits.drop n
  whole ++ '.' :: (if fraction.isEmpty then ['0'] else fraction)

/-- Lays out a decimal whose digits do not end in zero. -/
def ofDecimal (d : Decimal) : List Char :=
  let digits := Nat.toDigits 10 d.digits
  let lead := d.exponent + digits.length - 1
  if positionalFrom ≤ lead ∧ lead < positionalBelow then
    if 0 ≤ lead then insertPoint digits (lead.toNat + 1)
    else '0' :: '.' :: zeros (-lead - 1).toNat ++ digits
  else
    let significand :=
      match digits with
      | [] => []
      | [digit] => [digit]
      | digit :: rest => digit :: '.' :: rest
    let sign := if lead < 0 then ['-'] else []
    significand ++ 'e' :: sign ++ Nat.toDigits 10 lead.natAbs

end LexicalLisp.FloatText

namespace LexicalLisp

def floatText (x : Float) : String :=
  if x.isNaN then "NaN"
  else
    let b := Binary.ofFloat x
    let magnitude :=
      if x.isInf then "inf".toList
      else if b.mantissa = 0 then "0.0".toList
      else FloatText.ofDecimal (Shortest.ofBinary b)
    String.ofList (if b.negative then '-' :: magnitude else magnitude)

end LexicalLisp
