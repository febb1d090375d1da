import Mathlib.Data.List.TakeWhile
import LexicalLisp.Proofs.Reading.Atom

/-!
# Which texts are numerals

The grammars of integers and of reals, with the numbers that their texts denote, and that exactly
these texts are read, as these numbers. An integer has an optional sign and one or more digits. A
real has an optional sign before digits with an optional point, of which at least one is there, and
an optional exponent, or before a word for infinity or for what is not a number, in any letter case.
-/

namespace LexicalLisp.Numeral

/-- An optional sign, and whether it is a minus. -/
inductive Sign : List Char → Bool → Prop
  | none : Sign [] false
  | plus : Sign ['+'] false
  | minus : Sign ['-'] true

/-- A text is an integer, with the number that it denotes. -/
inductive IsInteger : List Char → Int → Prop
  | mk {sign digits : List Char} {negative : Bool} : Sign sign negative →
    (∀ c ∈ digits, c.isDigit) → digits ≠ [] →
      IsInteger (sign ++ digits)
        (if negative then -(Nat.ofDigitChars 10 digits 0 : Int) else Nat.ofDigitChars 10 digits 0)

/-- Digits with an optional point, the same digits without it, and how many of them are after it. -/
inductive Significand : List Char → List Char → Nat → Prop
  | whole {digits : List Char} : (∀ c ∈ digits, c.isDigit) → digits ≠ [] →
    Significand digits digits 0
  | point {whole fraction : List Char} : (∀ c ∈ whole, c.isDigit) → (∀ c ∈ fraction, c.isDigit) →
    whole ++ fraction ≠ [] →
      Significand (whole ++ '.' :: fraction) (whole ++ fraction) fraction.length

/-- An optional exponent, and the number that it denotes. -/
inductive Exponent : List Char → Int → Prop
  | none : Exponent [] 0
  | some {mark : Char} {cs : List Char} {e : Int} : mark = 'e' ∨ mark = 'E' → IsInteger cs e →
    Exponent (mark :: cs) e

/-- A text is a real without a sign, with the float nearest to the number that it denotes. -/
inductive Magnitude : List Char → Float → Prop
  | decimal {cs digits es : List Char} {places : Nat} {e : Int} :
    Significand cs digits places → Exponent es e →
      Magnitude (cs ++ es) (Decimal.toFloat ⟨Nat.ofDigitChars 10 digits 0, e - places⟩)
  | infinity {cs : List Char} :
    cs.map Char.toLower = "inf".toList ∨ cs.map Char.toLower = "infinity".toList →
      Magnitude cs (1 / 0)
  | notANumber {cs : List Char} : cs.map Char.toLower = "nan".toList → Magnitude cs (0 / 0)

/-- A text is a real, with the float nearest to the number that it denotes. -/
inductive IsReal : List Char → Float → Prop
  | mk {sign cs : List Char} {negative : Bool} {x : Float} : Sign sign negative → Magnitude cs x →
    IsReal (sign ++ cs) (if negative then -x else x)

variable {c : Char} {cs ds : List Char}

section Integers

variable {n : Int}

theorem exists_sign (cs : List Char) :
    ∃ sign, Sign sign (splitSign cs).1 ∧ cs = sign ++ (splitSign cs).2 := by
  unfold splitSign
  split
  · exact ⟨_, .minus, rfl⟩
  · exact ⟨_, .plus, rfl⟩
  · exact ⟨_, .none, rfl⟩

/-- A sign is taken off, provided that there is no other behind it. -/
theorem splitSign_append {sign : List Char} {negative : Bool} (h : Sign sign negative)
    (hcs : splitSign cs = (false, cs)) : splitSign (sign ++ cs) = (negative, cs) := by
  cases h with
  | none => exact hcs
  | plus => rfl
  | minus => rfl

theorem nat?_eq_some_iff {n : Nat} : nat? cs = some n ↔
    ((∀ c ∈ cs, c.isDigit) ∧ cs ≠ []) ∧ Nat.ofDigitChars 10 cs 0 = n := by
  have hvalue : natOfDigits cs = Nat.ofDigitChars 10 cs 0 := rfl
  unfold nat?
  simp only [Bool.and_eq_true, Bool.not_eq_true', List.isEmpty_eq_false_iff, List.all_eq_true]
  split
  · rename_i h
    rw [Option.some.injEq, hvalue]
    exact ⟨fun hn => ⟨⟨h.2, h.1⟩, hn⟩, And.right⟩
  · rename_i h
    exact ⟨nofun, fun h' => absurd h'.1.symm h⟩

theorem int?_eq (cs : List Char) :
    int? cs = (nat? (splitSign cs).2).map fun k : Nat =>
      if (splitSign cs).1 then -(k : Int) else (k : Int) := by
  unfold int?
  cases nat? (splitSign cs).2 <;> rfl

theorem int?_eq_some_iff : int? cs = some n ↔ IsInteger cs n := by
  rw [int?_eq]
  constructor
  · intro h
    obtain ⟨k, hk, rfl⟩ := Option.map_eq_some_iff.mp h
    obtain ⟨⟨hdigits, hne⟩, rfl⟩ := nat?_eq_some_iff.mp hk
    obtain ⟨sign, hsign, hcs⟩ := exists_sign cs
    have hinteger := IsInteger.mk hsign hdigits hne
    rwa [← hcs] at hinteger
  · rintro ⟨hsign, hdigits, hne⟩
    rw [splitSign_append hsign (splitSign_of_digits hdigits),
      nat?_eq_some_iff.mpr ⟨⟨hdigits, hne⟩, rfl⟩]
    rfl

end Integers

section Reals

variable {e : Int} {x : Float}

theorem exponent?_cons (mark : Char) (cs : List Char) :
    exponent? (mark :: cs) = if mark = 'e' ∨ mark = 'E' then int? cs else none := by
  simp [exponent?]

theorem exponent?_eq_some_iff : exponent? cs = some e ↔ Exponent cs e := by
  constructor
  · intro h
    cases cs with
    | nil =>
      cases h
      exact .none
    | cons mark cs =>
      rw [exponent?_cons] at h
      split at h
      · rename_i hmark
        exact .some hmark (int?_eq_some_iff.mp h)
      · cases h
  · intro h
    cases h with
    | none => rfl
    | some hmark h => rw [exponent?_cons, if_pos hmark, int?_eq_some_iff.mpr h]

theorem Exponent.head_ne (h : Exponent cs e) : ∀ c ∈ cs.head?, c.isDigit = false ∧ c ≠ '.' := by
  cases h with
  | none => exact nofun
  | some hmark _ =>
    rintro c ⟨⟩
    rcases hmark with rfl | rfl <;> decide

theorem span_digits (hds : ∀ c ∈ ds, c.isDigit) (hcs : ∀ c ∈ cs.head?, c.isDigit = false) :
    (ds ++ cs).takeWhile Char.isDigit = ds ∧ (ds ++ cs).dropWhile Char.isDigit = cs := by
  rw [List.takeWhile_append_of_pos hds, List.dropWhile_append_of_pos hds]
  cases cs with
  | nil => exact ⟨List.append_nil ds, rfl⟩
  | cons c cs => simp [hcs c rfl]

theorem splitFraction_of_ne (h : ∀ c ∈ cs.head?, c ≠ '.') : splitFraction cs = ([], cs) := by
  unfold splitFraction
  split
  · exact absurd rfl (h _ rfl)
  · rfl

theorem decimal?_eq {whole fraction rest : List Char} (hwhole : cs.takeWhile Char.isDigit = whole)
    (hrest : splitFraction (cs.dropWhile Char.isDigit) = (fraction, rest)) :
    decimal? cs = if whole ++ fraction = [] then none
      else (exponent? rest).map fun e =>
        ⟨Nat.ofDigitChars 10 (whole ++ fraction) 0, e - fraction.length⟩ := by
  unfold decimal?
  rw [hwhole, hrest]
  cases whole <;> cases fraction <;> rfl

theorem decimal?_of_significand {digits es : List Char} {places : Nat}
    (h : Significand cs digits places) (hes : Exponent es e) :
    decimal? (cs ++ es) = some ⟨Nat.ofDigitChars 10 digits 0, e - places⟩ := by
  have hhead := hes.head_ne
  have hexponent := exponent?_eq_some_iff.mpr hes
  cases h with
  | whole hdigits hne =>
    obtain ⟨htake, hdrop⟩ := span_digits hdigits fun c hc => (hhead c hc).1
    have hsplit := splitFraction_of_ne fun c hc => (hhead c hc).2
    rw [decimal?_eq htake (by rw [hdrop, hsplit]), List.append_nil, if_neg hne, hexponent]
    rfl
  | @point whole fraction hwhole hfraction hne =>
    have hpoint : ∀ c ∈ ('.' :: (fraction ++ es)).head?, c.isDigit = false := by
      rintro c ⟨⟩
      rfl
    obtain ⟨htake, hdrop⟩ := span_digits hwhole hpoint
    obtain ⟨htake', hdrop'⟩ := span_digits hfraction fun c hc => (hhead c hc).1
    have hsplit : splitFraction ('.' :: (fraction ++ es)) = (fraction, es) :=
      Prod.ext htake' hdrop'
    rw [List.append_assoc, List.cons_append, decimal?_eq htake (by rw [hdrop, hsplit]),
      if_neg hne, hexponent]
    rfl

/-- Conversely, a decimal is read from digits with an optional point and an optional exponent. -/
theorem magnitude_of_decimal? {d : Decimal} (h : decimal? cs = some d) :
    Magnitude cs d.toFloat := by
  have hcs : cs.takeWhile Char.isDigit ++ cs.dropWhile Char.isDigit = cs :=
    List.takeWhile_append_dropWhile
  have hwhole : ∀ c ∈ cs.takeWhile Char.isDigit, c.isDigit := fun c => List.mem_takeWhile_imp
  cases hsplit : splitFraction (cs.dropWhile Char.isDigit) with
  | mk fraction rest =>
    rw [decimal?_eq rfl hsplit] at h
    split at h
    · cases h
    · rename_i hne
      obtain ⟨e, he, rfl⟩ := Option.map_eq_some_iff.mp h
      have hexponent := exponent?_eq_some_iff.mp he
      -- From here on the text is nothing but the whole digits with what follows them.
      generalize cs.takeWhile Char.isDigit = whole, cs.dropWhile Char.isDigit = tail at *
      subst hcs
      unfold splitFraction at hsplit
      split at hsplit
      · rename_i after
        obtain ⟨rfl, rfl⟩ := Prod.mk.inj hsplit
        have hfraction : ∀ c ∈ after.takeWhile Char.isDigit, c.isDigit :=
          fun c => List.mem_takeWhile_imp
        have hpoint := Magnitude.decimal (.point hwhole hfraction hne) hexponent
        rwa [List.append_assoc, List.cons_append, List.takeWhile_append_dropWhile] at hpoint
      · obtain ⟨rfl, rfl⟩ := Prod.mk.inj hsplit
        rw [List.append_nil] at hne ⊢
        exact Magnitude.decimal (.whole hwhole hne) hexponent

theorem decimal?_cons (hdigit : c.isDigit = false) (hpoint : c ≠ '.') :
    decimal? (c :: cs) = none := by
  have htake : (c :: cs).takeWhile Char.isDigit = [] :=
    List.takeWhile_cons_of_neg (by simp [hdigit])
  have hdrop : (c :: cs).dropWhile Char.isDigit = c :: cs :=
    List.dropWhile_cons_of_neg (by simp [hdigit])
  have hsplit : splitFraction (c :: cs) = ([], c :: cs) :=
    splitFraction_of_ne (by simpa using hpoint)
  rw [decimal?_eq htake (by rw [hdrop, hsplit])]
  rfl

theorem toLower_of_lt (h : c.toNat < 65) : c.toLower = c := by
  refine dif_neg ?_
  rintro ⟨hle, -⟩
  have hlarge : 65 ≤ c.toNat := hle
  omega

/-- Before the letters there is no character that becomes one in the other case. -/
theorem exists_head_of_word {w : Char} {ws : List Char} (hw : 65 ≤ w.toNat)
    (h : cs.map Char.toLower = w :: ws) : ∃ c rest, cs = c :: rest ∧ 65 ≤ c.toNat := by
  obtain ⟨c, rest, rfl, hc, -⟩ := List.map_eq_cons_iff.mp h
  refine ⟨c, rest, rfl, ?_⟩
  by_contra hlt
  rw [toLower_of_lt (Nat.not_le.mp hlt)] at hc
  rw [hc] at hlt
  exact hlt hw

theorem decimal?_of_word {w : Char} {ws : List Char} (hw : 65 ≤ w.toNat)
    (h : cs.map Char.toLower = w :: ws) : decimal? cs = none := by
  obtain ⟨c, rest, rfl, hc⟩ := exists_head_of_word hw h
  refine decimal?_cons (Bool.eq_false_iff.mpr fun hdigit => ?_) ?_
  · have hsmall : c.toNat ≤ 57 := (Char.isDigit_iff_toNat.mp hdigit).2
    omega
  · rintro rfl
    revert hc
    decide

theorem magnitude?_of_decimal? (h : decimal? cs = none) : magnitude? cs =
    if cs.map Char.toLower = "inf".toList ∨ cs.map Char.toLower = "infinity".toList then
      some (1 / 0)
    else if cs.map Char.toLower = "nan".toList then some (0 / 0)
    else none := by
  unfold magnitude?
  rw [h]
  simp only [Bool.or_eq_true, decide_eq_true_eq]

theorem magnitude?_eq_some_iff : magnitude? cs = some x ↔ Magnitude cs x := by
  constructor
  · intro h
    cases hd : decimal? cs with
    | some d =>
      rw [magnitude?, hd] at h
      cases h
      exact magnitude_of_decimal? hd
    | none =>
      rw [magnitude?_of_decimal? hd] at h
      split at h
      · rename_i hword
        cases h
        exact .infinity hword
      · split at h
        · rename_i hword
          cases h
          exact .notANumber hword
        · cases h
  · rintro (⟨hcs, hes⟩ | hword | hword)
    · rw [magnitude?, decimal?_of_significand hcs hes]
    · have hnone : decimal? cs = none :=
        hword.elim (decimal?_of_word (by decide)) (decimal?_of_word (by decide))
      rw [magnitude?_of_decimal? hnone, if_pos hword]
    · rw [magnitude?_of_decimal? (decimal?_of_word (by decide) hword), hword, if_neg (by decide),
        if_pos rfl]

theorem not_magnitude_cons (hdigit : c.isDigit = false) (hpoint : c ≠ '.')
    (hletter : c.toNat < 65) : ¬Magnitude (c :: cs) x := by
  intro h
  have hword : ∀ {w ws}, 65 ≤ w.toNat → (c :: cs).map Char.toLower ≠ w :: ws := by
    intro w ws hw hcs
    obtain ⟨_, _, hcons, hle⟩ := exists_head_of_word hw hcs
    rw [← (List.cons.inj hcons).1] at hle
    omega
  -- Cases on the form of a text need the text as a variable.
  generalize htext : c :: cs = text at h hword
  cases h with
  | decimal hcs hes =>
    have hread := decimal?_of_significand hcs hes
    rw [← htext, decimal?_cons hdigit hpoint] at hread
    cases hread
  | infinity hcs => exact hcs.elim (hword (by decide)) (hword (by decide))
  | notANumber hcs => exact hword (by decide) hcs

theorem Magnitude.splitSign_eq (h : Magnitude cs x) : splitSign cs = (false, cs) := by
  unfold splitSign
  split
  · exact absurd h (not_magnitude_cons (by decide) (by decide) (by decide))
  · exact absurd h (not_magnitude_cons (by decide) (by decide) (by decide))
  · rfl

theorem float?_eq_some_iff : float? cs = some x ↔ IsReal cs x := by
  constructor
  · intro h
    obtain ⟨y, hy, rfl⟩ := Option.map_eq_some_iff.mp h
    obtain ⟨sign, hsign, hcs⟩ := exists_sign cs
    have hreal := IsReal.mk hsign (magnitude?_eq_some_iff.mp hy)
    rwa [← hcs] at hreal
  · rintro ⟨hsign, hmagnitude⟩
    rw [float?, splitSign_append hsign hmagnitude.splitSign_eq,
      magnitude?_eq_some_iff.mpr hmagnitude]
    rfl

end Reals

end LexicalLisp.Numeral
