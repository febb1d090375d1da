/-!
# Signed words of 64 bits

Arithmetic that never wraps: a sum, difference or product is taken over the
integers and refused when it does not fit. The quotient and the remainder go
toward minus infinity; both correct the machine's truncated division, whose
remainder has the sign of the dividend.
-/

namespace LexicalLisp.Word

/-- Does the integer fit a signed word of 64 bits? -/
def Fits (n : Int) : Prop := Int64.minValue.toInt ≤ n ∧ n ≤ Int64.maxValue.toInt

instance (n : Int) : Decidable (Fits n) := inferInstanceAs (Decidable (_ ∧ _))

def ofInt? (n : Int) : Option Int64 := if Fits n then some (Int64.ofInt n) else none

theorem fits_toInt (a : Int64) : Fits a.toInt := ⟨a.minValue_le_toInt, a.toInt_le⟩

theorem toInt_ofInt_of_fits {n : Int} (h : Fits n) : (Int64.ofInt n).toInt = n :=
  Int64.toInt_ofInt_of_le h.1 (Int.lt_of_le_of_lt h.2 (by decide))

theorem ofInt?_eq_some_iff {n : Int} {a : Int64} : ofInt? n = some a ↔ a.toInt = n := by
  unfold ofInt?
  split
  · rename_i h
    rw [Option.some.injEq]
    exact ⟨fun e => e ▸ toInt_ofInt_of_fits h, fun e => by rw [← e, Int64.ofInt_toInt]⟩
  · rename_i h
    refine ⟨by simp, fun e => absurd (fits_toInt a) (e ▸ h)⟩

@[simp] theorem ofInt?_toInt (a : Int64) : ofInt? a.toInt = some a :=
  ofInt?_eq_some_iff.mpr rfl

def add? (a b : Int64) : Option Int64 := ofInt? (a.toInt + b.toInt)

def sub? (a b : Int64) : Option Int64 := ofInt? (a.toInt - b.toInt)

def mul? (a b : Int64) : Option Int64 := ofInt? (a.toInt * b.toInt)

/-- The quotient rounded toward minus infinity; `none` if it does not exist or
does not fit. The truncated quotient is one too large exactly when the division
leaves a remainder and the signs differ. -/
def floorDiv? (a b : Int64) : Option Int64 :=
  if b = 0 ∨ (a = Int64.minValue ∧ b = -1) then none
  else if a % b ≠ 0 ∧ decide (a < 0) ≠ decide (b < 0) then some (a / b - 1)
  else some (a / b)

/-- The remainder that belongs to the rounded-down quotient: it has the sign of
the divisor; `none` for the divisor zero. Every word is a multiple of `-1`. -/
def floorMod? (a b : Int64) : Option Int64 :=
  if b = 0 then none
  else if b = -1 then some 0
  else if a % b ≠ 0 ∧ decide (a % b < 0) ≠ decide (b < 0) then some (a % b + b)
  else some (a % b)

/-- The nearest float, ties to even. -/
def toFloat (a : Int64) : Float := Float.ofInt a.toInt

end LexicalLisp.Word
