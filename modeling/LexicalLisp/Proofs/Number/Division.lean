import Mathlib.Algebra.Ring.Int.Defs
import LexicalLisp.Number.Word

/-!
# Division rounded down

The machine truncates: its remainder has the sign of the dividend. Where a remainder is left and
the signs of dividend and divisor differ, the quotient is lowered by one and the divisor is added
to the remainder. That gives the only quotient and remainder such that the remainder lies between
zero and the divisor.

On words one division alone has a quotient that does not fit. The corrections are not checked, and
they need no check: a machine that stopped at each operation whose result does not fit would
compute the same.
-/

namespace LexicalLisp

/-- The quotient and the remainder of a division that is rounded down. -/
structure FlooredDivision (a b q m : Int) : Prop where
  sum_eq : a = q * b + m
  of_pos : 0 < b → 0 ≤ m ∧ m < b
  of_neg : b < 0 → b < m ∧ m ≤ 0

namespace FlooredDivision

variable {a b q m : Int}

theorem eq_fdiv_and_eq_fmod (h : FlooredDivision a b q m) (hb : b ≠ 0) :
    a.fdiv b = q ∧ a.fmod b = m := by
  have hsum : m + b * q = a := by rw [h.sum_eq, Int.mul_comm, Int.add_comm]
  rcases Int.lt_or_gt_of_ne hb with hneg | hpos
  · exact (Int.fdiv_fmod_unique' hneg).mpr ⟨hsum, h.of_neg hneg⟩
  · exact (Int.fdiv_fmod_unique hpos).mpr ⟨hsum, h.of_pos hpos⟩

theorem of_fdiv (a b : Int) : FlooredDivision a b (a.fdiv b) (a.fmod b) where
  sum_eq := (Int.fdiv_mul_add_fmod a b).symm
  of_pos hpos := ((Int.fdiv_fmod_unique hpos).mp ⟨rfl, rfl⟩).2
  of_neg hneg := ((Int.fdiv_fmod_unique' hneg).mp ⟨rfl, rfl⟩).2

theorem natAbs_tmod_lt (a : Int) (hb : b ≠ 0) : (a.tmod b).natAbs < b.natAbs := by
  rw [Int.natAbs_tmod]
  exact Nat.mod_lt _ (Int.natAbs_pos.mpr hb)

/-- The remainder that is left has the sign of the dividend. -/
theorem tmod_sign (a b : Int) : (0 ≤ a → 0 ≤ a.tmod b) ∧ (a ≤ 0 → a.tmod b ≤ 0) := by
  refine ⟨Int.tmod_nonneg b, fun ha => ?_⟩
  have hneg : 0 ≤ (-a).tmod b := Int.tmod_nonneg b (by omega)
  rw [Int.neg_tmod] at hneg
  omega

/-- Truncation has not rounded down: a remainder is left, and the signs differ. -/
def IsTooHigh (a b : Int) : Prop := a.tmod b ≠ 0 ∧ ¬(a < 0 ↔ b < 0)

theorem of_truncated (hb : b ≠ 0) (h : ¬IsTooHigh a b) :
    FlooredDivision a b (a.tdiv b) (a.tmod b) := by
  have hlt := natAbs_tmod_lt a hb
  have hsign := tmod_sign a b
  unfold IsTooHigh at h
  exact ⟨(Int.tdiv_mul_add_tmod a b).symm, by omega, by omega⟩

theorem of_corrected (hb : b ≠ 0) (h : IsTooHigh a b) :
    FlooredDivision a b (a.tdiv b - 1) (a.tmod b + b) := by
  have hlt := natAbs_tmod_lt a hb
  have hsign := tmod_sign a b
  have hsum := Int.tdiv_mul_add_tmod a b
  unfold IsTooHigh at h
  refine ⟨?_, by omega, by omega⟩
  rw [Int.sub_mul]
  omega

/-- Either the dividend or the remainder can be compared with the divisor. -/
theorem isTooHigh_iff : IsTooHigh a b ↔ a.tmod b ≠ 0 ∧ ¬(a.tmod b < 0 ↔ b < 0) := by
  have hsign := tmod_sign a b
  unfold IsTooHigh
  omega

end FlooredDivision

open FlooredDivision (IsTooHigh)

namespace Word

variable {a b : Int64}

theorem fits_iff {n : Int} : Fits n ↔ -2 ^ 63 ≤ n ∧ n ≤ 2 ^ 63 - 1 := by
  rw [Fits, Int64.toInt_minValue, Int64.toInt_maxValue]

theorem ofInt?_eq_none_iff {n : Int} : ofInt? n = none ↔ ¬Fits n := by
  simp [ofInt?]

theorem toInt_ne_zero (h : b ≠ 0) : b.toInt ≠ 0 := fun hzero => h (Int64.toInt_inj.mp hzero)

theorem toInt_div (h : ¬(a = Int64.minValue ∧ b = -1)) : (a / b).toInt = a.toInt.tdiv b.toInt := by
  by_cases ha : a = Int64.minValue
  · exact Int64.toInt_div_of_ne_right a b fun hb => h ⟨ha, hb⟩
  · exact Int64.toInt_div_of_ne_left a b ha

theorem toInt_add_of_fits (h : Fits (a.toInt + b.toInt)) : (a + b).toInt = a.toInt + b.toInt := by
  rw [fits_iff] at h
  rw [Int64.toInt_add]
  exact Int.bmod_eq_of_le (by omega) (by omega)

theorem toInt_sub_of_fits (h : Fits (a.toInt - b.toInt)) : (a - b).toInt = a.toInt - b.toInt := by
  rw [fits_iff] at h
  rw [Int64.toInt_sub]
  exact Int.bmod_eq_of_le (by omega) (by omega)

theorem quotient_isTooHigh_iff :
    (a % b ≠ 0 ∧ decide (a < 0) ≠ decide (b < 0)) ↔ IsTooHigh a.toInt b.toInt := by
  simp [IsTooHigh, ← Int64.toInt_inj, Int64.toInt_mod, Int64.lt_iff_toInt_lt]

theorem remainder_isTooHigh_iff :
    (a % b ≠ 0 ∧ decide (a % b < 0) ≠ decide (b < 0)) ↔ IsTooHigh a.toInt b.toInt := by
  rw [FlooredDivision.isTooHigh_iff]
  simp [← Int64.toInt_inj, Int64.toInt_mod, Int64.lt_iff_toInt_lt]

/-- The quotient is lowered only where it is at most half of the dividend. -/
theorem fits_tdiv_sub_one (hb : b ≠ 0) (h : IsTooHigh a.toInt b.toInt) :
    Fits (a.toInt.tdiv b.toInt - 1) := by
  have hlt := FlooredDivision.natAbs_tmod_lt a.toInt (toInt_ne_zero hb)
  have hrest := h.1
  have hhalf : (a.toInt.tdiv b.toInt).natAbs ≤ a.toInt.natAbs / 2 := by
    rw [Int.natAbs_tdiv]
    exact Nat.div_le_div_left (by omega) (by decide)
  have hlow := a.le_toInt
  have hhigh := a.toInt_lt
  rw [fits_iff]
  omega

theorem fits_tmod_add (hb : b ≠ 0) (h : IsTooHigh a.toInt b.toInt) :
    Fits (a.toInt.tmod b.toInt + b.toInt) := by
  have hlt := FlooredDivision.natAbs_tmod_lt a.toInt (toInt_ne_zero hb)
  have hsigns := (FlooredDivision.isTooHigh_iff.mp h).2
  have hlow := b.le_toInt
  have hhigh := b.toInt_lt
  rw [fits_iff]
  omega

theorem toInt_div_sub_one (hb : b ≠ 0) (h : IsTooHigh a.toInt b.toInt) :
    (a / b - 1).toInt = a.toInt.tdiv b.toInt - 1 := by
  have hdiv : (a / b).toInt = a.toInt.tdiv b.toInt := by
    apply toInt_div
    rintro ⟨rfl, rfl⟩
    exact h.1 rfl
  have hfits := fits_tdiv_sub_one hb h
  rw [← hdiv] at hfits ⊢
  exact toInt_sub_of_fits (b := 1) hfits

theorem toInt_mod_add (hb : b ≠ 0) (h : IsTooHigh a.toInt b.toInt) :
    (a % b + b).toInt = a.toInt.tmod b.toInt + b.toInt := by
  have hfits := fits_tmod_add hb h
  rw [← Int64.toInt_mod] at hfits ⊢
  exact toInt_add_of_fits hfits

/-- On words the quotient is rounded down, unless that one does not fit. -/
theorem floorDiv?_eq (hb : b ≠ 0) : floorDiv? a b = ofInt? (a.toInt.fdiv b.toInt) := by
  have hb' := toInt_ne_zero hb
  by_cases hover : a = Int64.minValue ∧ b = -1
  · obtain ⟨rfl, rfl⟩ := hover
    decide
  · symm
    rw [floorDiv?, if_neg (not_or.mpr ⟨hb, hover⟩)]
    by_cases hhigh : IsTooHigh a.toInt b.toInt
    · rw [if_pos (quotient_isTooHigh_iff.mpr hhigh), ofInt?_eq_some_iff, toInt_div_sub_one hb hhigh]
      exact ((FlooredDivision.of_corrected hb' hhigh).eq_fdiv_and_eq_fmod hb').1.symm
    · rw [if_neg (mt quotient_isTooHigh_iff.mp hhigh), ofInt?_eq_some_iff, toInt_div hover]
      exact ((FlooredDivision.of_truncated hb' hhigh).eq_fdiv_and_eq_fmod hb').1.symm

theorem floorMod?_eq (hb : b ≠ 0) : floorMod? a b = ofInt? (a.toInt.fmod b.toInt) := by
  have hb' := toInt_ne_zero hb
  symm
  rw [floorMod?, if_neg hb]
  by_cases hminus : b = -1
  · subst hminus
    have hrange := (FlooredDivision.of_fdiv a.toInt (-1)).of_neg (by decide)
    have hzero : 0 = a.toInt.fmod (-1) := by omega
    rw [if_pos rfl, ofInt?_eq_some_iff]
    exact hzero
  · rw [if_neg hminus]
    by_cases hhigh : IsTooHigh a.toInt b.toInt
    · rw [if_pos (remainder_isTooHigh_iff.mpr hhigh), ofInt?_eq_some_iff, toInt_mod_add hb hhigh]
      exact ((FlooredDivision.of_corrected hb' hhigh).eq_fdiv_and_eq_fmod hb').2.symm
    · rw [if_neg (mt remainder_isTooHigh_iff.mp hhigh), ofInt?_eq_some_iff, Int64.toInt_mod]
      exact ((FlooredDivision.of_truncated hb' hhigh).eq_fdiv_and_eq_fmod hb').2.symm

theorem floorDiv?_eq_none_iff : floorDiv? a b = none ↔ b = 0 ∨ (a = Int64.minValue ∧ b = -1) := by
  unfold floorDiv?
  split
  · rename_i hchecked
    exact iff_of_true rfl hchecked
  · rename_i hchecked
    refine iff_of_false ?_ hchecked
    split <;> simp

theorem floorMod?_eq_none_iff : floorMod? a b = none ↔ b = 0 := by
  unfold floorMod?
  split
  · rename_i hzero
    exact iff_of_true rfl hzero
  · rename_i hzero
    refine iff_of_false ?_ hzero
    split
    · simp
    · split <;> simp

theorem exists_floorDiv?_eq (hb : b ≠ 0) (hover : ¬(a = Int64.minValue ∧ b = -1)) :
    ∃ q, floorDiv? a b = some q ∧ q.toInt = a.toInt.fdiv b.toInt := by
  have hsome : floorDiv? a b ≠ none := mt floorDiv?_eq_none_iff.mp (not_or.mpr ⟨hb, hover⟩)
  obtain ⟨q, hq⟩ := Option.ne_none_iff_exists'.mp hsome
  exact ⟨q, hq, ofInt?_eq_some_iff.mp ((floorDiv?_eq hb).symm.trans hq)⟩

theorem exists_floorMod?_eq (a : Int64) (hb : b ≠ 0) :
    ∃ m, floorMod? a b = some m ∧ m.toInt = a.toInt.fmod b.toInt := by
  obtain ⟨m, hm⟩ := Option.ne_none_iff_exists'.mp (mt floorMod?_eq_none_iff.mp hb)
  exact ⟨m, hm, ofInt?_eq_some_iff.mp ((floorMod?_eq hb).symm.trans hm)⟩

theorem eq_minValue_and_iff :
    (a = Int64.minValue ∧ b = -1) ↔ (a.toInt = -2 ^ 63 ∧ b.toInt = -1) := by
  rw [← Int64.toInt_inj, ← Int64.toInt_inj, Int64.toInt_minValue]
  rfl

end Word

/-- Why a machine stops at an operation. -/
inductive Trap where
  | zeroDivisor
  | doesNotFit
  deriving DecidableEq, Repr

namespace Trapping

variable {a b : Int64}

/-- The word for the exact result of an operation; the machine stops if there is none. -/
def fitted (n : Int) : Except Trap Int64 :=
  match Word.ofInt? n with
  | some a => .ok a
  | none => .error .doesNotFit

def quotient (a b : Int64) : Except Trap Int64 :=
  if b = 0 then .error .zeroDivisor else fitted (a.toInt.tdiv b.toInt)

/-- The remainder is found along with the quotient, hence not if that one does not fit. -/
def remainder (a b : Int64) : Except Trap Int64 := do
  let _ ← quotient a b
  fitted (a.toInt.tmod b.toInt)

/-- The quotient rounded down. Only the first step is checked. -/
def floorDiv? (a b : Int64) : Except Trap (Option Int64) :=
  match quotient a b with
  | .error _ => .ok none
  | .ok q => do
    let r ← remainder a b
    if r ≠ 0 ∧ decide (a < 0) ≠ decide (b < 0) then return some (← fitted (q.toInt - 1))
    else return some q

/-- The remainder that goes with it. Again only the first step is checked. -/
def floorMod? (a b : Int64) : Except Trap (Option Int64) :=
  if b = -1 then .ok (some 0)
  else match remainder a b with
    | .error _ => .ok none
    | .ok r => do
      if r ≠ 0 ∧ decide (r < 0) ≠ decide (b < 0) then return some (← fitted (r.toInt + b.toInt))
      else return some r

theorem fitted_eq_ok_iff {n : Int} : fitted n = .ok a ↔ a.toInt = n := by
  rw [← Word.ofInt?_eq_some_iff, fitted]
  cases Word.ofInt? n <;> simp

theorem quotient_eq (hb : b ≠ 0) (hover : ¬(a = Int64.minValue ∧ b = -1)) :
    quotient a b = .ok (a / b) := by
  rw [quotient, if_neg hb, fitted_eq_ok_iff]
  exact Word.toInt_div hover

theorem exists_quotient_eq_error (h : b = 0 ∨ (a = Int64.minValue ∧ b = -1)) :
    ∃ trap, quotient a b = .error trap := by
  rcases h with rfl | ⟨rfl, rfl⟩
  · exact ⟨_, rfl⟩
  · exact ⟨.doesNotFit, rfl⟩

theorem remainder_eq (hb : b ≠ 0) (hover : ¬(a = Int64.minValue ∧ b = -1)) :
    remainder a b = .ok (a % b) := by
  rw [remainder, quotient_eq hb hover]
  exact fitted_eq_ok_iff.mpr (Int64.toInt_mod a b)

/-- The machine does not stop before it has the quotient. -/
theorem floorDiv?_eq (a b : Int64) : floorDiv? a b = .ok (Word.floorDiv? a b) := by
  by_cases hchecked : b = 0 ∨ (a = Int64.minValue ∧ b = -1)
  · obtain ⟨trap, htrap⟩ := exists_quotient_eq_error hchecked
    rw [floorDiv?, htrap, Word.floorDiv?_eq_none_iff.mpr hchecked]
  · obtain ⟨hb, hover⟩ := not_or.mp hchecked
    rw [floorDiv?, quotient_eq hb hover, remainder_eq hb hover, Word.floorDiv?, if_neg hchecked]
    by_cases hhigh : a % b ≠ 0 ∧ decide (a < 0) ≠ decide (b < 0)
    · have hlower : fitted ((a / b).toInt - 1) = .ok (a / b - 1) := by
        rw [fitted_eq_ok_iff, Word.toInt_div hover]
        exact Word.toInt_div_sub_one hb (Word.quotient_isTooHigh_iff.mp hhigh)
      simp only [bind, Except.bind, if_pos hhigh, hlower]
      rfl
    · simp only [bind, Except.bind, if_neg hhigh]
      rfl

theorem floorMod?_eq (a b : Int64) : floorMod? a b = .ok (Word.floorMod? a b) := by
  by_cases hminus : b = -1
  · subst hminus
    rfl
  · have hover : ¬(a = Int64.minValue ∧ b = -1) := fun h => hminus h.2
    rw [floorMod?, if_neg hminus, Word.floorMod?, if_neg hminus]
    by_cases hb : b = 0
    · subst hb
      rfl
    · rw [remainder_eq hb hover, if_neg hb]
      by_cases hhigh : a % b ≠ 0 ∧ decide (a % b < 0) ≠ decide (b < 0)
      · have hmove : fitted ((a % b).toInt + b.toInt) = .ok (a % b + b) := by
          rw [fitted_eq_ok_iff, Int64.toInt_mod]
          exact Word.toInt_mod_add hb (Word.remainder_isTooHigh_iff.mp hhigh)
        simp only [bind, Except.bind, if_pos hhigh, hmove]
        rfl
      · simp only [if_neg hhigh]
        rfl

end Trapping

end LexicalLisp
