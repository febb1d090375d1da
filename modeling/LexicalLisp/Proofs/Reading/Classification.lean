import LexicalLisp.Proofs.Number.Division
import LexicalLisp.Proofs.Number.Numeral

/-!
# What an atom stands for

An atom is an integer, provided that it has the form of one and that its value fits, or else a
float, a literal or a symbol. Whatever has the form of an integer has that of a real as well, with
the same value, so an integer that does not fit is the float nearest to it and never a symbol.
-/

namespace LexicalLisp

namespace Numeral

variable {cs : List Char} {n : Int}

/-- The float nearest to an integer, ties to even. -/
def nearestFloat (n : Int) : Float :=
  if n < 0 then -Decimal.toFloat ⟨n.natAbs, 0⟩ else Decimal.toFloat ⟨n.natAbs, 0⟩

theorem nearestFloat_signed (negative : Bool) {k : Nat} (hk : k ≠ 0) :
    nearestFloat (if negative then -(k : Int) else k) =
      if negative then -Decimal.toFloat ⟨k, 0⟩ else Decimal.toFloat ⟨k, 0⟩ := by
  unfold nearestFloat
  cases negative with
  | true =>
    have hneg : -(k : Int) < 0 := by omega
    simp only [if_true, if_pos hneg, Int.natAbs_neg, Int.natAbs_natCast]
  | false =>
    have hnonneg : ¬(k : Int) < 0 := by omega
    simp only [Bool.false_eq_true, if_false, if_neg hnonneg, Int.natAbs_natCast]

/-- An integer is a real. Of zero there are two floats, one for each sign. -/
theorem IsInteger.exists_isReal (h : IsInteger cs n) :
    ∃ x, IsReal cs x ∧ (n ≠ 0 → x = nearestFloat n) := by
  obtain @⟨sign, digits, negative, hsign, hdigits, hne⟩ := h
  have hmagnitude := Magnitude.decimal (.whole hdigits hne) .none
  rw [List.append_nil] at hmagnitude
  refine ⟨_, .mk hsign hmagnitude, fun hn => ?_⟩
  have hvalue : Nat.ofDigitChars 10 digits 0 ≠ 0 := by
    intro hzero
    rw [hzero] at hn
    exact hn (by cases negative <;> rfl)
  rw [nearestFloat_signed negative hvalue]
  rfl

theorem IsInteger.eq {m : Int} (h : IsInteger cs m) (h' : IsInteger cs n) : m = n := by
  have hm := int?_eq_some_iff.mpr h
  rw [int?_eq_some_iff.mpr h'] at hm
  exact (Option.some.inj hm).symm

theorem word?_eq_some_iff {w : Int64} : word? cs = some w ↔ IsInteger cs w.toInt := by
  unfold word?
  rw [Option.bind_eq_some_iff]
  constructor
  · rintro ⟨n, hn, hw⟩
    rw [Word.ofInt?_eq_some_iff.mp hw]
    exact int?_eq_some_iff.mp hn
  · intro h
    exact ⟨w.toInt, int?_eq_some_iff.mpr h, Word.ofInt?_toInt w⟩

theorem word?_eq_none_iff : word? cs = none ↔ ∀ n, IsInteger cs n → ¬Word.Fits n := by
  constructor
  · intro hnone n hn hfits
    rw [← Word.toInt_ofInt_of_fits hfits, ← word?_eq_some_iff, hnone] at hn
    cases hn
  · intro h
    rw [Option.eq_none_iff_forall_ne_some]
    exact fun w hw => h w.toInt (word?_eq_some_iff.mp hw) (Word.fits_toInt w)

theorem float?_eq_none_iff : float? cs = none ↔ ∀ x, ¬IsReal cs x := by
  simp only [Option.eq_none_iff_forall_ne_some, ne_eq, float?_eq_some_iff]

theorem word?_of_float? (h : float? cs = none) : word? cs = none := by
  rw [word?_eq_none_iff]
  intro n hn
  obtain ⟨x, hx, -⟩ := hn.exists_isReal
  exact absurd hx (float?_eq_none_iff.mp h x)

end Numeral

namespace Expr

open Numeral (IsInteger IsReal nearestFloat)

/-- The expression that an atom stands for, by the form of the atom. -/
inductive Denotes (atom : String) : Expr → Prop
  | integer {n : Int64} : IsInteger atom.toList n.toInt → Denotes atom (integer n)
  | float {x : Float} : IsReal atom.toList x → (∀ n, IsInteger atom.toList n → ¬Word.Fits n) →
    Denotes atom (float x)
  | boolean {b : Bool} : atom = booleanText b → Denotes atom (boolean b)
  | null : atom = "null" → Denotes atom null
  | symbol : (∀ x, ¬IsReal atom.toList x) → atom ∉ ["#t", "#f", "null"] → Denotes atom (symbol atom)

variable {atom : String} {e : Expr}

theorem denotes_ofAtom (atom : String) : Denotes atom (ofAtom atom) := by
  unfold ofAtom
  split
  · rename_i hword
    exact .integer (Numeral.word?_eq_some_iff.mp hword)
  · rename_i hword
    split
    · rename_i hfloat
      exact .float (Numeral.float?_eq_some_iff.mp hfloat) (Numeral.word?_eq_none_iff.mp hword)
    · rename_i hfloat
      split
      · rename_i htrue
        exact .boolean htrue
      · split
        · rename_i hfalse
          exact .boolean hfalse
        · split
          · rename_i hnull
            exact .null hnull
          · rename_i htrue hfalse hnull
            exact .symbol (Numeral.float?_eq_none_iff.mp hfloat) (by simp [htrue, hfalse, hnull])

theorem Denotes.ofAtom_eq (h : Denotes atom e) : ofAtom atom = e := by
  cases h with
  | integer h =>
    unfold ofAtom
    rw [Numeral.word?_eq_some_iff.mpr h]
  | float h hword =>
    unfold ofAtom
    rw [Numeral.word?_eq_none_iff.mpr hword, Numeral.float?_eq_some_iff.mpr h]
  | @boolean b h =>
    subst h
    exact (readsBack_boolean b).ofAtom_text
  | null h =>
    subst h
    exact readsBack_null.ofAtom_text
  | symbol hfloat hliteral =>
    simp only [List.mem_cons, List.not_mem_nil, or_false, not_or] at hliteral
    obtain ⟨htrue, hfalse, hnull⟩ := hliteral
    have hnone := Numeral.float?_eq_none_iff.mpr hfloat
    unfold ofAtom
    rw [Numeral.word?_of_float? hnone, hnone]
    simp only [if_neg htrue, if_neg hfalse, if_neg hnull]

theorem ofAtom_eq_iff : ofAtom atom = e ↔ Denotes atom e := by
  constructor
  · rintro rfl
    exact denotes_ofAtom atom
  · exact Denotes.ofAtom_eq

theorem denotes_integer_iff {n : Int} :
    (∃ w : Int64, Denotes atom (integer w) ∧ w.toInt = n) ↔
      IsInteger atom.toList n ∧ Word.Fits n := by
  constructor
  · rintro ⟨w, ⟨h⟩, rfl⟩
    exact ⟨h, Word.fits_toInt w⟩
  · rintro ⟨h, hfits⟩
    have hvalue := Word.toInt_ofInt_of_fits hfits
    exact ⟨Int64.ofInt n, .integer (hvalue.symm ▸ h), hvalue⟩

theorem denotes_float_iff {x : Float} : Denotes atom (float x) ↔
    IsReal atom.toList x ∧ ∀ n, IsInteger atom.toList n → ¬Word.Fits n := by
  constructor
  · rintro (_ | ⟨hreal, hword⟩)
    exact ⟨hreal, hword⟩
  · exact fun h => .float h.1 h.2

theorem denotes_boolean_iff {b : Bool} : Denotes atom (boolean b) ↔ atom = booleanText b := by
  constructor
  · rintro (_ | _ | h)
    exact h
  · exact .boolean

theorem denotes_null_iff : Denotes atom null ↔ atom = "null" := by
  constructor
  · rintro (_ | _ | _ | h)
    exact h
  · exact .null

theorem denotes_symbol_iff {name : String} : Denotes atom (symbol name) ↔
    name = atom ∧ (∀ x, ¬IsReal atom.toList x) ∧ atom ∉ ["#t", "#f", "null"] := by
  constructor
  · intro h
    cases h with
    | symbol hreal hliteral => exact ⟨rfl, hreal, hliteral⟩
  · rintro ⟨rfl, hreal, hliteral⟩
    exact .symbol hreal hliteral

theorem denotes_nearestFloat {n : Int} (h : IsInteger atom.toList n) (hfits : ¬Word.Fits n) :
    Denotes atom (float (nearestFloat n)) := by
  obtain ⟨x, hreal, hx⟩ := h.exists_isReal
  have hne : n ≠ 0 := by
    rintro rfl
    exact hfits (by decide)
  rw [← hx hne]
  refine .float hreal fun m hm => ?_
  rwa [hm.eq h]

end Expr

open Numeral (IsInteger IsReal nearestFloat)

/-- An atom stands for an integer exactly if it has the form of one and the value fits 64 bits, for
a float if it has the form of a real and does not stand for an integer, for a boolean or `null` if
it is written so, and for the symbol of the same name in all other cases. So an integer that does
not fit is the float nearest to it. The text of an integer stands for that integer. -/
theorem atoms_are_classified (atom : String) :
    (∀ n : Int, (∃ w : Int64, Expr.ofAtom atom = .integer w ∧ w.toInt = n) ↔
      IsInteger atom.toList n ∧ -2 ^ 63 ≤ n ∧ n ≤ 2 ^ 63 - 1) ∧
    (∀ x, Expr.ofAtom atom = .float x ↔ IsReal atom.toList x ∧
      ∀ n, IsInteger atom.toList n → ¬(-2 ^ 63 ≤ n ∧ n ≤ 2 ^ 63 - 1)) ∧
    (∀ n, IsInteger atom.toList n → ¬(-2 ^ 63 ≤ n ∧ n ≤ 2 ^ 63 - 1) →
      Expr.ofAtom atom = .float (nearestFloat n)) ∧
    (∀ b, Expr.ofAtom atom = .boolean b ↔ atom = if b then "#t" else "#f") ∧
    (Expr.ofAtom atom = .null ↔ atom = "null") ∧
    (∀ name, Expr.ofAtom atom = .symbol name ↔
      name = atom ∧ (∀ x, ¬IsReal atom.toList x) ∧ atom ∉ ["#t", "#f", "null"]) ∧
    ∀ n : Int64, Expr.ofAtom (Expr.integer n).text = .integer n := by
  simp only [← Word.fits_iff, Expr.ofAtom_eq_iff]
  exact ⟨fun _ => Expr.denotes_integer_iff, fun _ => Expr.denotes_float_iff,
    fun _ => Expr.denotes_nearestFloat, fun _ => Expr.denotes_boolean_iff, Expr.denotes_null_iff,
    fun _ => Expr.denotes_symbol_iff,
    fun n => Expr.ofAtom_eq_iff.mp (Expr.readsBack_integer n).ofAtom_text⟩

/-- The atoms lie next to the limits of integers, or they lack a digit that a numeral has. -/
theorem atoms_beside_the_limits :
    (∃ w : Int64, Expr.ofAtom "-9223372036854775808" = .integer w ∧
      w.toInt = -9223372036854775808) ∧
    (IsInteger "+09223372036854775808".toList 9223372036854775808 ∧
      Expr.ofAtom "+09223372036854775808" = .float 9223372036854775808) ∧
    ∀ name ∈ ["+", "-", ".", "1e", "1e+", "-e5", "infin", "+#t"],
      Expr.ofAtom name = .symbol name := by
  obtain ⟨hintegers, -⟩ := atoms_are_classified "-9223372036854775808"
  obtain ⟨-, -, hwide, -⟩ := atoms_are_classified "+09223372036854775808"
  have hlowest : IsInteger "-9223372036854775808".toList (-9223372036854775808) :=
    Numeral.int?_eq_some_iff.mp (by decide)
  have habove : IsInteger "+09223372036854775808".toList 9223372036854775808 :=
    Numeral.int?_eq_some_iff.mp (by decide)
  have hnearest : nearestFloat 9223372036854775808 = 9223372036854775808 := by decide +kernel
  have hnames : ∀ name ∈ ["+", "-", ".", "1e", "1e+", "-e5", "infin", "+#t"],
      Numeral.float? name.toList = none ∧ name ∉ ["#t", "#f", "null"] := by decide +kernel
  refine ⟨(hintegers _).mpr ⟨hlowest, by decide⟩,
    ⟨habove, hnearest ▸ hwide _ habove (by decide)⟩, fun name hname => ?_⟩
  obtain ⟨-, -, -, -, -, hsymbols, -⟩ := atoms_are_classified name
  obtain ⟨hnone, hliteral⟩ := hnames name hname
  exact (hsymbols name).mpr ⟨rfl, Numeral.float?_eq_none_iff.mp hnone, hliteral⟩

end LexicalLisp
