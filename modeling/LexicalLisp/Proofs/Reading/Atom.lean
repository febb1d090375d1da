import LexicalLisp.Reading.Form
import LexicalLisp.Proofs.Reading.Shape

/-!
# Atoms read back

The text of an atom is a run of atom characters, and read as an atom it stands for the same
expression again: digits are read back as the number they were written for, and the text of
a float always has a character that no integer has. Symbols are what is left over of the
atoms, so their names are no numerals and no literals.
-/

namespace LexicalLisp

open Lexeme (IsRun)
open Text (isAtomChar isTokenBlank)

section Characters

variable {c : Char}

theorem Text.isAtomChar_of_isDigit (h : c.isDigit) : isAtomChar c := by
  have hblank : isTokenBlank c = false := by
    apply Bool.eq_false_iff.mpr
    intro hc
    simp only [isTokenBlank, Bool.or_eq_true, decide_eq_true_eq] at hc
    rcases hc with ((((rfl | rfl) | rfl) | rfl) | rfl) | rfl <;> revert h <;> decide
  have hopen : c ≠ '(' := by
    rintro rfl
    revert h
    decide
  have hclose : c ≠ ')' := by
    rintro rfl
    revert h
    decide
  simp [isAtomChar, hblank, hopen, hclose]

theorem Text.isRun_of_digits {cs : List Char} (h : ∀ c ∈ cs, c.isDigit) (hne : cs ≠ []) :
    IsRun cs := ⟨hne, fun c hc => isAtomChar_of_isDigit (h c hc)⟩

theorem isDigit_of_mem_digits {n : Nat} (h : c ∈ Nat.toDigits 10 n) : c.isDigit :=
  Nat.isDigit_of_mem_toDigits (by decide) (by decide) h

end Characters

namespace Numeral

theorem splitSign_of_digits {cs : List Char} (h : ∀ c ∈ cs, c.isDigit) :
    splitSign cs = (false, cs) := by
  unfold splitSign
  split
  · exact absurd (h '-' (by simp)) (by decide)
  · exact absurd (h '+' (by simp)) (by decide)
  · rfl

theorem nat?_toDigits (n : Nat) : nat? (Nat.toDigits 10 n) = some n := by
  have hall : (Nat.toDigits 10 n).all Char.isDigit :=
    List.all_eq_true.mpr fun _ => isDigit_of_mem_digits
  have hne : (Nat.toDigits 10 n).isEmpty = false := by simp [Nat.toDigits_ne_nil]
  have hvalue : natOfDigits (Nat.toDigits 10 n) = n := Nat.ofDigitChars_ten_toDigits
  simp [nat?, hall, hne, hvalue]

theorem toList_negSucc (n : Nat) :
    (toString (Int.negSucc n)).toList = '-' :: Nat.toDigits 10 (n + 1) := by
  show ("-" ++ (n + 1).repr).toList = _
  rw [String.toList_append, Nat.toList_repr]
  rfl

theorem int?_toString (n : Int) : int? (toString n).toList = some n := by
  unfold int?
  cases n with
  | ofNat n =>
    have htext : (toString (Int.ofNat n)).toList = Nat.toDigits 10 n := Nat.toList_repr
    rw [htext, splitSign_of_digits fun _ => isDigit_of_mem_digits, nat?_toDigits]
    rfl
  | negSucc n =>
    rw [toList_negSucc, splitSign, nat?_toDigits]
    rfl

/-- A character that is neither a digit nor a sign does not stand in an integer. -/
theorem int?_eq_none {c : Char} {cs : List Char} (hc : c ∈ cs) (hdigit : c.isDigit = false)
    (hminus : c ≠ '-') (hplus : c ≠ '+') : int? cs = none := by
  have hmem : c ∈ (splitSign cs).2 := by
    unfold splitSign
    split
    · exact (List.mem_cons.mp hc).resolve_left hminus
    · exact (List.mem_cons.mp hc).resolve_left hplus
    · exact hc
  have hall : (splitSign cs).2.all Char.isDigit = false := by
    apply List.all_eq_false.mpr
    exact ⟨c, hmem, by simp [hdigit]⟩
  simp [int?, nat?, hall]

end Numeral

namespace FloatText

variable {c : Char} {d : Decimal}

theorem mem_insertPoint {digits : List Char} {n : Nat} (h : c ∈ insertPoint digits n) :
    c ∈ digits ∨ c = '0' ∨ c = '.' := by
  simp only [insertPoint, zeros, List.mem_append, List.mem_cons] at h
  rcases h with (h | h) | rfl | h
  · exact .inl (List.mem_of_mem_take h)
  · exact .inr (.inl (List.eq_of_mem_replicate h))
  · exact .inr (.inr rfl)
  · split at h
    · exact .inr (.inl (List.mem_singleton.mp h))
    · exact .inl (List.mem_of_mem_drop h)

theorem mem_ofDecimal (h : c ∈ ofDecimal d) : c.isDigit ∨ c ∈ ['.', 'e', '-'] := by
  have hdigits : c ∈ Nat.toDigits 10 d.digits → c.isDigit ∨ c ∈ ['.', 'e', '-'] :=
    fun hc => .inl (isDigit_of_mem_digits hc)
  have hzero : c = '0' → c.isDigit ∨ c ∈ ['.', 'e', '-'] := by
    rintro rfl
    exact .inl (by decide)
  have hpoint : c = '.' → c.isDigit ∨ c ∈ ['.', 'e', '-'] := by
    rintro rfl
    exact .inr (by simp)
  unfold ofDecimal at h
  simp only at h
  split at h
  · split at h
    · rcases mem_insertPoint h with h | h | h
      · exact hdigits h
      · exact hzero h
      · exact hpoint h
    · simp only [zeros, List.cons_append, List.mem_cons, List.mem_append] at h
      rcases h with h | h | h | h
      · exact hzero h
      · exact hpoint h
      · exact hzero (List.eq_of_mem_replicate h)
      · exact hdigits h
  · rcases List.mem_append.mp h with h | h
    · rcases List.mem_append.mp h with h | h
      · split at h
        · cases h
        · rename_i heq
          rw [← heq] at h
          exact hdigits h
        · rename_i digit rest _ heq
          rcases List.mem_cons.mp h with rfl | h
          · exact hdigits (by simp [heq])
          · rcases List.mem_cons.mp h with h | h
            · exact hpoint h
            · exact hdigits (by simp [heq, h])
      · rcases List.mem_cons.mp h with rfl | h
        · exact .inr (by simp)
        · split at h
          · exact .inr (by simp [List.mem_singleton.mp h])
          · cases h
    · exact .inl (isDigit_of_mem_digits h)

theorem point_or_exponent (d : Decimal) : '.' ∈ ofDecimal d ∨ 'e' ∈ ofDecimal d := by
  unfold ofDecimal insertPoint
  simp only
  split
  · split <;> simp
  · simp

end FloatText

namespace FloatText

/-- What is written of a float besides its sign. -/
def magnitude (x : Float) : List Char :=
  if x.isInf then "inf".toList
  else if (Binary.ofFloat x).mantissa = 0 then "0.0".toList
  else ofDecimal (Shortest.ofBinary (Binary.ofFloat x))

theorem floatText_eq (x : Float) :
    (floatText x).toList =
      if x.isNaN then "NaN".toList
      else if (Binary.ofFloat x).negative then '-' :: magnitude x else magnitude x := by
  unfold floatText magnitude
  split
  · rfl
  · rw [String.toList_ofList]

def marks : List Char := ['.', 'e', '-', 'N', 'a', 'i', 'n', 'f']

theorem mem_magnitude {x : Float} {c : Char} (h : c ∈ magnitude x) : c.isDigit ∨ c ∈ marks := by
  unfold magnitude at h
  split at h
  · have hall : ∀ c ∈ "inf".toList, c ∈ marks := by simp [marks]
    exact .inr (hall c h)
  · split at h
    · have hall : ∀ c ∈ "0.0".toList, c.isDigit ∨ c ∈ marks := by simp [marks]
      exact hall c h
    · have hsome : ∀ c ∈ ['.', 'e', '-'], c ∈ marks := by simp [marks]
      exact (mem_ofDecimal h).imp_right (hsome c)

theorem mem_floatText {x : Float} {c : Char} (h : c ∈ (floatText x).toList) :
    c.isDigit ∨ c ∈ marks := by
  rw [floatText_eq] at h
  split at h
  · have hall : ∀ c ∈ "NaN".toList, c ∈ marks := by simp [marks]
    exact .inr (hall c h)
  · split at h
    · rcases List.mem_cons.mp h with rfl | h
      · exact .inr (by simp [marks])
      · exact mem_magnitude h
    · exact mem_magnitude h

theorem exists_mark (x : Float) : ∃ c ∈ (floatText x).toList, c ∈ ['.', 'e', 'N', 'i'] := by
  have hmagnitude : ∃ c ∈ magnitude x, c ∈ ['.', 'e', 'N', 'i'] := by
    unfold magnitude
    split
    · exact ⟨'i', by simp, by simp⟩
    · split
      · exact ⟨'.', by simp, by simp⟩
      · rcases point_or_exponent (Shortest.ofBinary (Binary.ofFloat x)) with h | h
        · exact ⟨'.', h, by simp⟩
        · exact ⟨'e', h, by simp⟩
  obtain ⟨c, hc, hmark⟩ := hmagnitude
  rw [floatText_eq]
  split
  · exact ⟨'N', by simp, by simp⟩
  · split
    · exact ⟨c, List.mem_cons_of_mem _ hc, hmark⟩
    · exact ⟨c, hc, hmark⟩

end FloatText

theorem floatText_isRun (x : Float) : IsRun (floatText x).toList where
  ne_nil := by
    obtain ⟨c, hc, -⟩ := FloatText.exists_mark x
    exact List.ne_nil_of_mem hc
  atomChars c hc := by
    have hmarks : ∀ c ∈ FloatText.marks, isAtomChar c := by
      simp [FloatText.marks, isAtomChar, isTokenBlank]
    rcases FloatText.mem_floatText hc with hdigit | hmark
    · exact Text.isAtomChar_of_isDigit hdigit
    · exact hmarks c hmark

theorem word?_floatText (x : Float) : Numeral.word? (floatText x).toList = none := by
  have hmarks : ∀ c ∈ ['.', 'e', 'N', 'i'], c.isDigit = false ∧ c ≠ '-' ∧ c ≠ '+' := by
    simp
  obtain ⟨c, hc, hmark⟩ := FloatText.exists_mark x
  obtain ⟨hdigit, hminus, hplus⟩ := hmarks c hmark
  simp [Numeral.word?, Numeral.int?_eq_none hc hdigit hminus hplus]

theorem integerText_isRun (n : Int64) : IsRun (integerText n).toList := by
  have hdigits (k : Nat) : IsRun (Nat.toDigits 10 k) :=
    Text.isRun_of_digits (fun _ => isDigit_of_mem_digits) Nat.toDigits_ne_nil
  unfold integerText
  cases n.toInt with
  | ofNat k =>
    have htext : (toString (Int.ofNat k)).toList = Nat.toDigits 10 k := Nat.toList_repr
    rw [htext]
    exact hdigits k
  | negSucc k =>
    rw [Numeral.toList_negSucc]
    refine ⟨by simp, fun c hc => ?_⟩
    rcases List.mem_cons.mp hc with rfl | hc
    · decide
    · exact (hdigits (k + 1)).atomChars c hc

theorem word?_integerText (n : Int64) : Numeral.word? (integerText n).toList = some n := by
  unfold Numeral.word? integerText
  rw [Numeral.int?_toString]
  exact Word.ofInt?_toInt n

namespace Expr

/-- The text of the expression is one atom, and it stands for the expression. -/
structure ReadsBack (e : Expr) : Prop where
  isRun : IsRun e.text.toList
  ofAtom_text : ofAtom e.text = e

theorem readsBack_integer (n : Int64) : (integer n).ReadsBack where
  isRun := integerText_isRun n
  ofAtom_text := by
    unfold text ofAtom
    rw [word?_integerText]

theorem readsBack_float {x : Float} (h : Numeral.float? (floatText x).toList = some x) :
    (float x).ReadsBack where
  isRun := floatText_isRun x
  ofAtom_text := by
    unfold text ofAtom
    rw [word?_floatText, h]

theorem readsBack_boolean (b : Bool) : (boolean b).ReadsBack where
  isRun := by
    unfold text booleanText
    cases b with
    | true => exact ⟨by simp, by simp [isAtomChar, isTokenBlank]⟩
    | false => exact ⟨by simp, by simp [isAtomChar, isTokenBlank]⟩
  ofAtom_text := by cases b <;> rfl

theorem readsBack_null : null.ReadsBack where
  isRun := by
    unfold text
    exact ⟨by simp, by simp [isAtomChar, isTokenBlank]⟩
  ofAtom_text := rfl

variable {atom : String}

theorem ofAtom_cases (atom : String) :
    (∃ n, ofAtom atom = integer n) ∨ (∃ x, ofAtom atom = float x) ∨
      (∃ b, ofAtom atom = boolean b) ∨ ofAtom atom = null ∨ ofAtom atom = symbol atom := by
  unfold ofAtom
  split
  · exact .inl ⟨_, rfl⟩
  · split
    · exact .inr (.inl ⟨_, rfl⟩)
    · split
      · exact .inr (.inr (.inl ⟨_, rfl⟩))
      · split
        · exact .inr (.inr (.inl ⟨_, rfl⟩))
        · split
          · exact .inr (.inr (.inr (.inl rfl)))
          · exact .inr (.inr (.inr (.inr rfl)))

theorem ofAtom_ne_list (atom : String) (es : List Expr) : ofAtom atom ≠ list es := by
  rcases ofAtom_cases atom with ⟨n, h⟩ | ⟨x, h⟩ | ⟨b, h⟩ | h | h
  all_goals
    rw [h]
    exact nofun

theorem readsBack_ofAtom (hatom : IsRun atom.toList)
    (hfloat : ∀ x, ofAtom atom = float x → Numeral.float? (floatText x).toList = some x) :
    (ofAtom atom).ReadsBack := by
  rcases ofAtom_cases atom with ⟨n, h⟩ | ⟨x, h⟩ | ⟨b, h⟩ | h | h
  · rw [h]
    exact readsBack_integer n
  · rw [h]
    exact readsBack_float (hfloat x h)
  · rw [h]
    exact readsBack_boolean b
  · rw [h]
    exact readsBack_null
  · rw [h]
    exact ⟨hatom, h⟩

end Expr

end LexicalLisp
