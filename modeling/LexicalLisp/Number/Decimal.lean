/-!
# Decimal numerals

A decimal is a natural number of units of a power of ten. Numerals are read
from lists of characters: an integer is an optional sign and one or more ASCII
digits; a real has an optional sign, digits with an optional point, of which at
least one must be present, and an optional exponent, or it is one of the words
for infinity and for "not a number" in any letter case.
-/

namespace LexicalLisp

/-- The number `digits * 10 ^ exponent`. -/
structure Decimal where
  digits : Nat
  exponent : Int
  deriving DecidableEq, Repr

namespace Decimal

/-- The float nearest to a decimal, ties to even. Decimals of `10 ^ 310` and
above, and those below `10 ^ (-330)`, lie far outside the range of floats, so
their exponent is never expanded. -/
def toFloat (d : Decimal) : Float :=
  if d.digits = 0 then 0
  else
    let top := (Nat.toDigits 10 d.digits).length + d.exponent
    if 310 < top then 1 / 0
    else if top < -330 then 0
    else Float.ofScientific d.digits (d.exponent < 0) d.exponent.natAbs

end Decimal

namespace Numeral

/-- The value of a string of ASCII digits, most significant first. -/
def natOfDigits (digits : List Char) : Nat :=
  digits.foldl (fun n c => 10 * n + (c.toNat - '0'.toNat)) 0

/-- Reads one or more digits and nothing else. -/
def nat? (cs : List Char) : Option Nat :=
  if !cs.isEmpty && cs.all Char.isDigit then some (natOfDigits cs) else none

/-- Takes a sign off the front: whether it is a minus, and the rest. -/
def splitSign : List Char → Bool × List Char
  | '-' :: cs => (true, cs)
  | '+' :: cs => (false, cs)
  | cs => (false, cs)

/-- Reads an optional sign and one or more digits. -/
def int? (cs : List Char) : Option Int :=
  (nat? (splitSign cs).2).map fun n => if (splitSign cs).1 then -(n : Int) else n

/-- Reads the part of a real numeral after its digits: nothing, or an exponent. -/
def exponent? : List Char → Option Int
  | [] => some 0
  | c :: cs => if c = 'e' || c = 'E' then int? cs else none

/-- Splits what follows the whole digits into the digits after a point and the rest. -/
def splitFraction : List Char → List Char × List Char
  | '.' :: cs => (cs.takeWhile Char.isDigit, cs.dropWhile Char.isDigit)
  | cs => ([], cs)

/-- Reads an unsigned real numeral: digits with an optional point, and an optional exponent. -/
def decimal? (cs : List Char) : Option Decimal :=
  let whole := cs.takeWhile Char.isDigit
  let tail := splitFraction (cs.dropWhile Char.isDigit)
  if whole.isEmpty && tail.1.isEmpty then none
  else (exponent? tail.2).map fun e => ⟨natOfDigits (whole ++ tail.1), e - tail.1.length⟩

/-- Reads an unsigned real: a numeral, or a word for a special value in any letter case. -/
def magnitude? (cs : List Char) : Option Float :=
  match decimal? cs with
  | some d => some d.toFloat
  | none =>
    let word := cs.map Char.toLower
    if word = "inf".toList || word = "infinity".toList then some (1 / 0)
    else if word = "nan".toList then some (0 / 0)
    else none

def float? (cs : List Char) : Option Float :=
  (magnitude? (splitSign cs).2).map fun x => if (splitSign cs).1 then -x else x

end Numeral
end LexicalLisp
