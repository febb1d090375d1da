import Mathlib.Data.List.TakeWhile
import LexicalLisp.Proofs.Reading.Atom
import LexicalLisp.Proofs.Reading.Placement
import LexicalLisp.Proofs.Reading.Tree

/-!
# Characters beyond ASCII

Parentheses, the blanks between tokens, numerals and literals are written in ASCII. So a character
beyond ASCII always is part of an atom, and this atom is a name. Hence reading a text keeps all
such characters: the names in what is read have them in the order in which they stand in the text.
-/

namespace LexicalLisp

open Text (isTokenBlank shapes)

namespace Text

/-- Is the character outside ASCII? -/
def isWide (c : Char) : Bool := 128 ≤ c.toNat

section Wide

variable {c : Char}

theorem isWide_iff : isWide c ↔ 128 ≤ c.toNat := decide_eq_true_iff

/-- A wide character is none of the ASCII characters that one can name. -/
theorem ne_of_isWide {d : Char} (hc : isWide c) (hd : isWide d = false) : c ≠ d := by
  rintro rfl
  rw [hc] at hd
  cases hd

theorem isTokenBlank_eq_false_of_isWide (h : isWide c) : isTokenBlank c = false := by
  apply Bool.eq_false_iff.mpr
  intro hc
  simp only [isTokenBlank, Bool.or_eq_true, decide_eq_true_eq] at hc
  rcases hc with ((((hc | hc) | hc) | hc) | hc) | hc <;> exact ne_of_isWide h (by decide) hc

theorem isDigit_eq_false_of_isWide (h : isWide c) : c.isDigit = false := by
  apply Bool.eq_false_iff.mpr
  intro hc
  have hlarge := isWide_iff.mp h
  have hsmall : c.toNat ≤ 57 := (Char.isDigit_iff_toNat.mp hc).2
  omega

theorem toLower_of_isWide (h : isWide c) : c.toLower = c := by
  have hlarge := isWide_iff.mp h
  have hnot : ¬(c.val ≥ 'A'.val ∧ c.val ≤ 'Z'.val) := by
    rintro ⟨-, hle⟩
    have hsmall : c.toNat ≤ 90 := hle
    omega
  exact dif_neg hnot

theorem isTokenBlank_of_isBlank (h : isBlank c) (hc : isWide c = false) : isTokenBlank c := by
  have hsmall : c.toNat < 128 := by
    rw [← Nat.not_le, ← isWide_iff, hc]
    exact Bool.false_ne_true
  have hall : ∀ n < 128, isBlank (Char.ofNat n) → isTokenBlank (Char.ofNat n) := by decide
  have hblank := hall c.toNat hsmall
  rw [Char.ofNat_toNat] at hblank
  exact hblank h

end Wide

end Text

open Text (isWide)

section Numerals

variable {c : Char} {cs : List Char}

namespace Numeral

theorem int?_of_isWide (h : isWide c) (hc : c ∈ cs) : int? cs = none :=
  int?_eq_none hc (Text.isDigit_eq_false_of_isWide h) (Text.ne_of_isWide h (by decide))
    (Text.ne_of_isWide h (by decide))

theorem mem_dropWhile_of_isWide (h : isWide c) (hc : c ∈ cs) : c ∈ cs.dropWhile Char.isDigit := by
  rw [← List.takeWhile_append_dropWhile (p := Char.isDigit) (l := cs)] at hc
  refine (List.mem_append.mp hc).resolve_left fun hdigits => ?_
  have hdigit := List.mem_takeWhile_imp hdigits
  rw [Text.isDigit_eq_false_of_isWide h] at hdigit
  cases hdigit

theorem mem_splitFraction_of_isWide (h : isWide c) (hc : c ∈ cs) : c ∈ (splitFraction cs).2 := by
  unfold splitFraction
  split
  · have hne : c ≠ '.' := Text.ne_of_isWide h (by decide)
    exact mem_dropWhile_of_isWide h ((List.mem_cons.mp hc).resolve_left hne)
  · exact hc

theorem mem_splitSign_of_isWide (h : isWide c) (hc : c ∈ cs) : c ∈ (splitSign cs).2 := by
  unfold splitSign
  split
  · exact (List.mem_cons.mp hc).resolve_left (Text.ne_of_isWide h (by decide))
  · exact (List.mem_cons.mp hc).resolve_left (Text.ne_of_isWide h (by decide))
  · exact hc

theorem exponent?_of_isWide (h : isWide c) (hc : c ∈ cs) : exponent? cs = none := by
  unfold exponent?
  split
  · cases hc
  · rename_i mark rest
    split
    · rename_i hmark
      have hne : c ≠ mark := by
        simp only [Bool.or_eq_true, decide_eq_true_eq] at hmark
        rcases hmark with rfl | rfl <;> exact Text.ne_of_isWide h (by decide)
      exact int?_of_isWide h ((List.mem_cons.mp hc).resolve_left hne)
    · rfl

theorem decimal?_of_isWide (h : isWide c) (hc : c ∈ cs) : decimal? cs = none := by
  have htail := mem_splitFraction_of_isWide h (mem_dropWhile_of_isWide h hc)
  simp only [decimal?, exponent?_of_isWide h htail, Option.map_none, ite_self]

theorem magnitude?_of_isWide (h : isWide c) (hc : c ∈ cs) : magnitude? cs = none := by
  have hword : ∀ word : List Char, word.all (fun d => !isWide d) → cs.map Char.toLower ≠ word := by
    rintro word hall rfl
    have hmem : c ∈ cs.map Char.toLower :=
      List.mem_map.mpr ⟨c, hc, Text.toLower_of_isWide h⟩
    simpa [h] using List.all_eq_true.mp hall c hmem
  have hinf := hword "inf".toList (by decide)
  have hinfinity := hword "infinity".toList (by decide)
  have hnan := hword "nan".toList (by decide)
  simp only [magnitude?, decimal?_of_isWide h hc, hinf, hinfinity, hnan, decide_false,
    Bool.or_self, Bool.false_eq_true, if_false]

theorem word?_of_isWide (h : isWide c) (hc : c ∈ cs) : word? cs = none := by
  simp [word?, int?_of_isWide h hc]

theorem float?_of_isWide (h : isWide c) (hc : c ∈ cs) : float? cs = none := by
  simp [float?, magnitude?_of_isWide h (mem_splitSign_of_isWide h hc)]

end Numeral

theorem Expr.ofAtom_of_isWide {atom : String} (h : isWide c) (hc : c ∈ atom.toList) :
    ofAtom atom = symbol atom := by
  have hliteral : ∀ literal : String, literal.toList.all (fun d => !isWide d) → atom ≠ literal := by
    rintro literal hall rfl
    simpa [h] using List.all_eq_true.mp hall c hc
  have htrue := hliteral "#t" (by decide)
  have hfalse := hliteral "#f" (by decide)
  have hnull := hliteral "null" (by decide)
  simp [ofAtom, Numeral.word?_of_isWide h hc, Numeral.float?_of_isWide h hc, htrue, hfalse, hnull]

end Numerals

namespace Expr

mutual

def wideChars : Expr → List Char
  | symbol name => name.toList.filter isWide
  | list elements => wideCharsAll elements
  | _ => []

def wideCharsAll : List Expr → List Char
  | [] => []
  | e :: es => wideChars e ++ wideCharsAll es

end

theorem wideChars_ofAtom (atom : String) :
    (ofAtom atom).wideChars = atom.toList.filter isWide := by
  by_cases h : ∃ c ∈ atom.toList, isWide c
  · obtain ⟨c, hc, hwide⟩ := h
    rw [ofAtom_of_isWide hwide hc, wideChars]
  · have hnone : atom.toList.filter isWide = [] :=
      List.filter_eq_nil_iff.mpr fun c hc hwide => h ⟨c, hc, hwide⟩
    rcases ofAtom_cases atom with ⟨n, he⟩ | ⟨x, he⟩ | ⟨b, he⟩ | he | he
    · rw [he, hnone, wideChars] <;> nofun
    · rw [he, hnone, wideChars] <;> nofun
    · rw [he, hnone, wideChars] <;> nofun
    · rw [he, hnone, wideChars] <;> nofun
    · rw [he, wideChars]

end Expr

section Reading

variable {text : String} {es : List Expr}

/-- The wide characters of an atom. A parenthesis has none. -/
def Shape.wideChars (shape : Shape) : List Char :=
  if shape.1 = .atom then shape.2.filter isWide else []

theorem Shape.wideChars_of_atom {shape : Shape} (h : shape.1 = .atom) :
    shape.wideChars = shape.2.filter isWide := if_pos h

theorem Shape.wideChars_of_ne {shape : Shape} (h : shape.1 ≠ .atom) : shape.wideChars = [] :=
  if_neg h

theorem Lexeme.wideChars_join (offset : Nat) (c : Char) (ls : List Lexeme) :
    (join offset c ls).flatMap (fun l => l.shape.wideChars) =
      [c].filter isWide ++ ls.flatMap fun l => l.shape.wideChars := by
  unfold join
  split
  · rfl
  · rename_i next rest
    split
    · rename_i hnext
      have hlonger : (c :: next.chars).filter isWide =
          [c].filter isWide ++ next.chars.filter isWide := List.filter_append [c] next.chars
      have hnext' : next.shape.wideChars = next.chars.filter isWide :=
        Shape.wideChars_of_atom hnext.1
      rw [List.flatMap_cons, List.flatMap_cons, hnext', ← List.append_assoc]
      exact congrArg (· ++ _) hlonger
    · rfl

theorem Lexeme.wideChars_scan (offset : Nat) (cs : List Char) :
    (scan offset cs).flatMap (fun l => l.shape.wideChars) = cs.filter isWide := by
  induction cs generalizing offset with
  | nil => rfl
  | cons c cs ih =>
    have hskip : isWide c = false → (c :: cs).filter isWide = cs.filter isWide := by
      intro hc
      exact List.filter_cons_of_neg (by simp [hc])
    rcases char_cases c with hblank | rfl | rfl | hc
    · rw [scan_blank hblank, ih, hskip]
      exact Bool.eq_false_iff.mpr fun hwide =>
        absurd hblank (by simp [Text.isTokenBlank_eq_false_of_isWide hwide])
    · rw [scan_opening, List.flatMap_cons, ih, hskip (by decide)]
      rfl
    · rw [scan_closing, List.flatMap_cons, ih, hskip (by decide)]
      rfl
    · rw [scan_atomChar hc, wideChars_join, ih]
      exact (List.filter_append [c] cs).symm

mutual

theorem Tree.wideChars_expr (tree : Tree) :
    tree.expr.wideChars = tree.tokens.flatMap fun t => t.shape.wideChars := by
  match tree with
  | leaf atom =>
    rw [expr, Expr.wideChars_ofAtom, tokens_leaf, List.flatMap_singleton,
      Shape.wideChars_of_atom atom.property]
    rfl
  | node opening children closing =>
    have hopening : opening.val.kind ≠ .atom := by simp [opening.property]
    have hclosing : closing.val.kind ≠ .atom := by simp [closing.property]
    rw [expr, Expr.wideChars, wideChars_exprs children, tokens_node, List.flatMap_cons,
      List.flatMap_append, List.flatMap_singleton, Shape.wideChars_of_ne hopening,
      Shape.wideChars_of_ne hclosing, List.nil_append, List.append_nil]

theorem Tree.wideChars_exprs (forest : List Tree) :
    Expr.wideCharsAll (exprs forest) = (flatten forest).flatMap fun t => t.shape.wideChars := by
  match forest with
  | [] => rfl
  | tree :: forest =>
    rw [exprs, Expr.wideCharsAll, wideChars_expr tree, wideChars_exprs forest, flatten_cons,
      List.flatMap_append]

end

/-- The names in what a text is read as have the wide characters of the text, in order. -/
theorem wideChars_of_parse (h : parse text = .ok es) :
    Expr.wideCharsAll es = text.toList.filter isWide := by
  obtain ⟨forest, hforest, rfl⟩ := Tree.exists_forest_of_parseTokens h
  have hshapes : (Token.ofLines 0 (Text.lines text)).flatMap (fun t => t.shape.wideChars) =
      (shapes text.toList).flatMap Shape.wideChars := by
    rw [← Token.shapes_ofText, List.flatMap_map]
  rw [Tree.wideChars_exprs, hforest, hshapes, shapes, List.flatMap_map]
  exact Lexeme.wideChars_scan 0 text.toList

end Reading

end LexicalLisp
