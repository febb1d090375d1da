import LexicalLisp.Number.FloatText
import LexicalLisp.Number.Word

/-!
# Expressions

An expression is an atom or a list of expressions. The empty list literal
`null` is an atom of its own, apart from the empty form `()`.
-/

namespace LexicalLisp

inductive Expr where
  | integer (value : Int64)
  | float (value : Float)
  | boolean (value : Bool)
  | symbol (name : String)
  | null
  | list (elements : List Expr)
  deriving Inhabited

/-- Texts in parentheses with single spaces between them. -/
def sequenceText (items : List String) : String :=
  "(" ++ " ".intercalate items ++ ")"

def integerText (n : Int64) : String := toString n.toInt

def booleanText (b : Bool) : String := if b then "#t" else "#f"

namespace Expr

mutual

/-- The text of an expression, from which it can be read again. -/
def text : Expr → String
  | integer n => integerText n
  | float x => floatText x
  | boolean b => booleanText b
  | symbol name => name
  | null => "null"
  | list elements => sequenceText (texts elements)

def texts : List Expr → List String
  | [] => []
  | e :: es => text e :: texts es

end

theorem texts_eq_map (es : List Expr) : texts es = es.map text := by
  induction es with
  | nil => rfl
  | cons e es ih => simp [texts, ih]

mutual

/-- Equality of expressions. Floats are compared as numbers, so that an
expression that holds a value that is not a number differs from itself. -/
def beq : Expr → Expr → Bool
  | integer a, integer b => a == b
  | float a, float b => a == b
  | boolean a, boolean b => a == b
  | symbol a, symbol b => a == b
  | null, null => true
  | list a, list b => beqAll a b
  | _, _ => false

def beqAll : List Expr → List Expr → Bool
  | [], [] => true
  | a :: as, b :: bs => beq a b && beqAll as bs
  | _, _ => false

end

instance : BEq Expr := ⟨beq⟩

def symbolName? : Expr → Option String
  | symbol name => some name
  | _ => none

end Expr

/-- The 64-bit integer that a text denotes: an optional sign, digits, and a value in range. -/
def Numeral.word? (cs : List Char) : Option Int64 := (Numeral.int? cs).bind Word.ofInt?

/-- The expression that an atom stands for: an integer if it can be one, else a
float, a boolean or `null`, and otherwise the symbol of that name. Integers out
of range are floats. -/
def Expr.ofAtom (atom : String) : Expr :=
  match Numeral.word? atom.toList with
  | some n => integer n
  | none =>
    match Numeral.float? atom.toList with
    | some x => float x
    | none =>
      if atom = "#t" then boolean true
      else if atom = "#f" then boolean false
      else if atom = "null" then null
      else symbol atom

end LexicalLisp
