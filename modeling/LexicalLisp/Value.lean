import LexicalLisp.Reading.Expr

/-!
# Values

Values are what expressions evaluate to. A closure is a procedure made by a
`lambda` form: its parameters and body, the frame it was made in, and a number
of its own, by which it is recognised. Only `#f` counts as false.

There are two equalities. `Value.beq` keeps integers and floats apart;
`Value.equal`, the one of the language, compares an integer and a float as
numbers, at every depth of lists.
-/

namespace LexicalLisp

/-- Frames are numbered in the order in which they are created. -/
abbrev FrameId := Nat

/-- Closures are numbered in the order in which they are created. -/
abbrev ClosureId := Nat

structure Closure where
  id : ClosureId
  params : List String
  body : Expr
  frame : FrameId
  deriving Inhabited

inductive Value where
  | integer (value : Int64)
  | float (value : Float)
  | boolean (value : Bool)
  | string (value : String)
  | list (items : List Value)
  | closure (closure : Closure)
  | void
  deriving Inhabited

/-- The kinds of values that messages tell apart. -/
inductive Kind where
  | integer
  | float
  | boolean
  | string
  | list
  | closure
  | void
  deriving DecidableEq, Repr

def Kind.name : Kind → String
  | integer => "integer"
  | float => "float"
  | boolean => "boolean"
  | string => "string"
  | list => "list"
  | closure => "closure"
  | void => "void"

namespace Value

def kind : Value → Kind
  | integer _ => .integer
  | float _ => .float
  | boolean _ => .boolean
  | string _ => .string
  | list _ => .list
  | closure _ => .closure
  | void => .void

/-- Everything but `#f` counts as true. -/
def isTruthy : Value → Bool
  | boolean b => b
  | _ => true

mutual

/-- The text of a value. Strings appear bare, the void value as nothing. -/
def text : Value → String
  | integer n => integerText n
  | float x => floatText x
  | boolean b => booleanText b
  | string s => s
  | list items => sequenceText (texts items)
  | closure c => "#<closure " ++ sequenceText c.params ++ ">"
  | void => ""

def texts : List Value → List String
  | [] => []
  | v :: vs => text v :: texts vs

end

theorem texts_eq_map (vs : List Value) : texts vs = vs.map text := by
  induction vs with
  | nil => rfl
  | cons v vs ih => simp [texts, ih]

mutual

/-- Equality of values: kinds are kept apart, and closures are equal only to themselves. -/
def beq : Value → Value → Bool
  | integer a, integer b => a == b
  | float a, float b => a == b
  | boolean a, boolean b => a == b
  | string a, string b => a == b
  | list a, list b => beqAll a b
  | closure a, closure b => a.id == b.id
  | void, void => true
  | _, _ => false

def beqAll : List Value → List Value → Bool
  | [], [] => true
  | a :: as, b :: bs => beq a b && beqAll as bs
  | _, _ => false

end

instance : BEq Value := ⟨beq⟩

mutual

/-- The equality of the language: like `beq`, except that an integer equals the
float that is nearest to it, inside lists as well. -/
def equal : Value → Value → Bool
  | integer a, float b => Word.toFloat a == b
  | float a, integer b => Word.toFloat b == a
  | list a, list b => equalAll a b
  | a, b => beq a b

def equalAll : List Value → List Value → Bool
  | [], [] => true
  | a :: as, b :: bs => equal a b && equalAll as bs
  | _, _ => false

end

end Value
end LexicalLisp
