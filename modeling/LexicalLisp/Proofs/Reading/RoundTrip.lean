import LexicalLisp.Proofs.Reading.Atom
import LexicalLisp.Proofs.Reading.Placement
import LexicalLisp.Proofs.Reading.Tree
import LexicalLisp.Proofs.Scoping.Occurrence

/-!
# What is written can be read again

Expressions that come from a text are written as texts from which they can be read again.
Their atoms are written as single atoms that stand for them, and the parentheses and spaces
of lists keep the atoms apart. So it suffices to look at the shapes of the tokens: tokens
that have the shapes of an expression are those of a tree that stands for it, wherever they
stand.
-/

namespace LexicalLisp

open Lexeme (IsRun IsBorder)
open Text (shapes isTokenBlank)

namespace Text

/-- Texts one after the other, each but the last followed by its separator. -/
def separated (separator : Nat → String) : List String → String
  | [] => ""
  | [text] => text
  | text :: next :: rest =>
    text ++ separator 0 ++ separated (fun n => separator (n + 1)) (next :: rest)

/-- A separator consists of one or more spaces, line breaks or other blanks. -/
structure IsSeparator (s : String) : Prop where
  blank : ∀ c ∈ s.toList, isTokenBlank c
  ne_nil : s.toList ≠ []

theorem isSeparator_space : IsSeparator " " := ⟨by simp [isTokenBlank], by simp⟩

theorem intercalate_eq_separated (s : String) (items : List String) :
    s.intercalate items = separated (fun _ => s) items := by
  induction items with
  | nil => rfl
  | cons item items ih =>
    cases items with
    | nil => exact String.intercalate_singleton
    | cons next rest => rw [String.intercalate_cons_cons, ih, separated]

end Text

namespace Expr

section Equality

mutual

/-- Equality of expressions in which a float that is not a number equals itself. -/
def same : Expr → Expr → Bool
  | integer a, integer b => a = b
  | float a, float b => a = b
  | boolean a, boolean b => a = b
  | symbol a, symbol b => a = b
  | null, null => true
  | list as, list bs => sameAll as bs
  | _, _ => false

def sameAll : List Expr → List Expr → Bool
  | [], [] => true
  | a :: as, b :: bs => same a b && sameAll as bs
  | _, _ => false

end

mutual

theorem same_iff (a b : Expr) : same a b = true ↔ a = b := by
  cases a with
  | list as => cases b <;> simp [same, sameAll_iff as]
  | _ => cases b <;> simp [same]

theorem sameAll_iff (as bs : List Expr) : sameAll as bs = true ↔ as = bs := by
  match as, bs with
  | a :: as, b :: bs => simp [sameAll, same_iff a, sameAll_iff as]
  | [], [] => simp [sameAll]
  | [], _ :: _ => simp [sameAll]
  | _ :: _, [] => simp [sameAll]

end

/-- Unlike the comparison of expressions as numbers, this is plain equality. -/
instance : DecidableEq Expr := fun a b => decidable_of_iff _ (same_iff a b)

end Equality

mutual

def tokenShapes : Expr → List Shape
  | list es => (.opening, ['(']) :: (tokenShapesAll es ++ [(.closing, [')'])])
  | e => [(.atom, e.text.toList)]

def tokenShapesAll : List Expr → List Shape
  | [] => []
  | e :: es => tokenShapes e ++ tokenShapesAll es

end

/-- Each atom of the expression is read back from its text. -/
inductive Legible : Expr → Prop
  | atom {e : Expr} : e.ReadsBack → Legible e
  | list {es : List Expr} : (∀ e ∈ es, Legible e) → Legible (list es)

def FloatsReadBack (e : Expr) : Prop :=
  ∀ x, (float x).OccursIn e → Numeral.float? (floatText x).toList = some x

variable {e : Expr} {es : List Expr}

theorem ReadsBack.tokenShapes_eq (h : e.ReadsBack) : e.tokenShapes = [(.atom, e.text.toList)] := by
  cases e with
  | list es => exact absurd h.ofAtom_text (ofAtom_ne_list _ es)
  | integer n => rfl
  | float x => rfl
  | boolean b => rfl
  | symbol name => rfl
  | null => rfl

theorem legible_of_parse {source : String} (h : parse source = .ok es) :
    ∀ e ∈ es, e.FloatsReadBack → e.Legible := by
  refine forall_mem_of_parse h (fun atom hatom hfloats => ?_) (fun es ih hfloats => ?_)
  · refine .atom (readsBack_ofAtom hatom fun x hx => hfloats x ?_)
    rw [hx]
    exact .here
  · exact .list fun e he => ih e he fun x hx => hfloats x (.inside he hx)

theorem shapes_separated {separator : Nat → String} (hsep : ∀ n, Text.IsSeparator (separator n))
    (h : ∀ e ∈ es, shapes e.text.toList = e.tokenShapes) :
    shapes (Text.separated separator (texts es)).toList = tokenShapesAll es := by
  induction es generalizing separator with
  | nil => rfl
  | cons e es ih =>
    obtain ⟨hfirst, hrest⟩ := List.forall_mem_cons.mp h
    cases es with
    | nil => simpa [texts, Text.separated, tokenShapesAll] using hfirst
    | cons next rest =>
      have hlater := ih (fun n => hsep (n + 1)) hrest
      unfold texts at hlater
      unfold texts texts Text.separated tokenShapesAll
      rw [String.toList_append, String.toList_append, List.append_assoc,
        Text.shapes_append_blanks (hsep 0).blank (hsep 0).ne_nil, hfirst, hlater]

theorem shapes_sequenceText (h : ∀ e ∈ es, shapes e.text.toList = e.tokenShapes) :
    shapes (sequenceText (texts es)).toList = (list es).tokenShapes := by
  have hitems := shapes_separated (fun _ => Text.isSeparator_space) h
  have hclosing : IsBorder [')'] := by
    rintro c ⟨⟩
    decide
  have htext : (sequenceText (texts es)).toList =
      '(' :: ((Text.separated (fun _ => " ") (texts es)).toList ++ [')']) := by
    rw [sequenceText, Text.intercalate_eq_separated, String.toList_append, String.toList_append]
    rfl
  rw [htext, Text.shapes_opening, Text.shapes_append hclosing, hitems]
  rfl

theorem Legible.shapes_text (h : e.Legible) : shapes e.text.toList = e.tokenShapes := by
  induction h with
  | atom h => rw [Text.shapes_run h.isRun, h.tokenShapes_eq]
  | list _ ih => exact shapes_sequenceText ih

end Expr

section Reading

variable {e : Expr} {es : List Expr} {tokens : List Token}

/-- Tokens with the shapes of the expression are those of a tree that stands for it. -/
def Expr.WrittenAsTree (e : Expr) : Prop :=
  ∀ tokens : List Token, tokens.map Token.shape = e.tokenShapes →
    ∃ tree : Tree, tree.tokens = tokens ∧ tree.expr = e

theorem Expr.ReadsBack.writtenAsTree (h : e.ReadsBack) : e.WrittenAsTree := by
  intro tokens hshapes
  rw [h.tokenShapes_eq] at hshapes
  obtain ⟨token, rfl, hshape⟩ := List.map_eq_singleton_iff.mp hshapes
  obtain ⟨hkind, htext⟩ := Prod.mk.inj hshape
  have htoken : token.text = e.text := String.toList_inj.mp htext
  refine ⟨.leaf ⟨token, hkind⟩, rfl, ?_⟩
  rw [Tree.expr, htoken, h.ofAtom_text]

theorem exists_forest_of_shapes (h : ∀ e ∈ es, e.WrittenAsTree)
    (hshapes : tokens.map Token.shape = Expr.tokenShapesAll es) :
    ∃ forest, Tree.flatten forest = tokens ∧ Tree.exprs forest = es := by
  induction es generalizing tokens with
  | nil =>
    obtain rfl := List.map_eq_nil_iff.mp hshapes
    exact ⟨[], rfl, rfl⟩
  | cons e es ih =>
    obtain ⟨hfirst, hlater⟩ := List.forall_mem_cons.mp h
    obtain ⟨ts, us, rfl, hts, hus⟩ := List.map_eq_append_iff.mp hshapes
    obtain ⟨tree, rfl, rfl⟩ := hfirst ts hts
    obtain ⟨forest, rfl, rfl⟩ := ih hlater hus
    exact ⟨tree :: forest, rfl, rfl⟩

theorem writtenAsTree_list (h : ∀ e ∈ es, e.WrittenAsTree) : (Expr.list es).WrittenAsTree := by
  intro tokens hshapes
  obtain ⟨opening, ts, rfl, hopening, hts⟩ := List.map_eq_cons_iff.mp hshapes
  obtain ⟨inner, closings, rfl, hinner, hclosings⟩ := List.map_eq_append_iff.mp hts
  obtain ⟨closing, rfl, hclosing⟩ := List.map_eq_singleton_iff.mp hclosings
  have hopen : opening.kind = .opening := congrArg Prod.fst hopening
  have hclose : closing.kind = .closing := congrArg Prod.fst hclosing
  obtain ⟨children, rfl, rfl⟩ := exists_forest_of_shapes h hinner
  exact ⟨.node ⟨opening, hopen⟩ children ⟨closing, hclose⟩, rfl, rfl⟩

theorem Expr.Legible.writtenAsTree (h : e.Legible) : e.WrittenAsTree := by
  induction h with
  | atom h => exact h.writtenAsTree
  | list _ ih => exact writtenAsTree_list ih

/-- Legible expressions are read back from their texts, whatever separates these. -/
theorem parse_separated_of_legible (h : ∀ e ∈ es, e.Legible) {separator : Nat → String}
    (hsep : ∀ n, Text.IsSeparator (separator n)) :
    parse (Text.separated separator (Expr.texts es)) = .ok es := by
  have hshapes := Token.shapes_ofText (Text.separated separator (Expr.texts es))
  rw [Expr.shapes_separated hsep fun e he => (h e he).shapes_text] at hshapes
  obtain ⟨forest, hforest, rfl⟩ :=
    exists_forest_of_shapes (fun e he => (h e he).writtenAsTree) hshapes
  unfold parse parseLines
  rw [← hforest, Tree.parseTokens_flatten]

end Reading

/-- Expressions that were read from a text are read again from their own texts, separated by
any spaces and line breaks: the same integers, floats, booleans, symbols and lists, with
`null` and the empty list apart. Of the texts of floats it is assumed that those which occur
are read back as the same floats. There is only one float that is not a number, so equality
is plain equality for that one as well. -/
theorem printed_expressions_read_back {source : String} {es : List Expr}
    (hparse : parse source = .ok es) (hfloats : ∀ e ∈ es, e.FloatsReadBack)
    {separator : Nat → String} (hsep : ∀ n, Text.IsSeparator (separator n)) :
    parse (Text.separated separator (Expr.texts es)) = .ok es := by
  refine parse_separated_of_legible (fun e he => ?_) hsep
  exact Expr.legible_of_parse hparse e he (hfloats e he)

/-- Some of the forms hold floats, one of which is not a number, and the separators differ. -/
theorem printed_forms_read_back :
    let source := "(f 2.50 (1e300 NaN) -7)\n null ( )"
    let es := [Expr.list [.symbol "f", .float 2.5, .list [.float 1e300, .float (0 / 0)],
      .integer (-7)], .null, .list []]
    let separator := fun n => if n = 0 then "\r\n" else " \n "
    parse source = .ok es ∧ (∀ e ∈ es, e.FloatsReadBack) ∧
      (∀ n, Text.IsSeparator (separator n)) ∧
      Text.separated separator (Expr.texts es) = "(f 2.5 (1e300 NaN) -7)\r\nnull \n ()" ∧
      parse (Text.separated separator (Expr.texts es)) = .ok es := by
  intro source es separator
  have hparse : parse source = .ok es := by decide +kernel
  have hreads : ∀ x ∈ [2.5, 1e300, (0 / 0 : Float)],
      Numeral.float? (floatText x).toList = some x := by decide +kernel
  have hfloats : ∀ e ∈ es, e.FloatsReadBack := by
    intro e he x hx
    apply hreads
    simp only [es, List.mem_cons, List.not_mem_nil, or_false] at he
    rcases he with rfl | rfl | rfl
    · simpa [Expr.occursIn_list_iff] using hx
    · simp at hx
    · simp [Expr.occursIn_list_iff] at hx
  have hsep : ∀ n, Text.IsSeparator (separator n) := by
    intro n
    unfold separator
    split
    · exact ⟨by simp [isTokenBlank], by simp⟩
    · exact ⟨by simp [isTokenBlank], by simp⟩
  refine ⟨hparse, hfloats, hsep, by decide +kernel, ?_⟩
  exact printed_expressions_read_back hparse hfloats hsep

end LexicalLisp
