/-!
# Operators

The operators are a fixed set of names with a meaning of their own at the head
of a form. They are no values: no definition and no parameter can shadow them.
-/

namespace LexicalLisp

inductive Arithmetic where
  | add
  | sub
  | mul
  | div
  deriving DecidableEq, Repr

inductive Comparison where
  | less
  | greater
  | greaterEq
  | lessEq
  deriving DecidableEq, Repr

inductive Operator where
  | arithmetic (op : Arithmetic)
  | comparison (op : Comparison)
  | equal
  | modulo
  | list
  | cons
  | car
  | cdr
  | isNull
  | not
  | and
  | or
  deriving DecidableEq, Repr

/-- How many operands an operator takes. -/
inductive Arity where
  | exactly (n : Nat)
  | atLeast (n : Nat)
  | any
  deriving DecidableEq, Repr

namespace Arity

def accepts : Arity → Nat → Bool
  | exactly n, count => count == n
  | atLeast n, count => n ≤ count
  | any, _ => true

def describe : Arity → String
  | exactly n => "exactly " ++ toString n
  | atLeast n => "at least " ++ toString n
  | any => "any number of"

end Arity

namespace Operator

def name : Operator → String
  | arithmetic .add => "+"
  | arithmetic .sub => "-"
  | arithmetic .mul => "*"
  | arithmetic .div => "/"
  | comparison .less => "<"
  | comparison .greater => ">"
  | comparison .greaterEq => ">="
  | comparison .lessEq => "<="
  | equal => "="
  | modulo => "modulo"
  | list => "list"
  | cons => "cons"
  | car => "car"
  | cdr => "cdr"
  | isNull => "null?"
  | not => "not"
  | and => "and"
  | or => "or"

def all : List Operator :=
  [arithmetic .add, arithmetic .sub, arithmetic .mul, arithmetic .div,
   comparison .less, comparison .greater, comparison .greaterEq, comparison .lessEq,
   equal, modulo, list, cons, car, cdr, isNull, not, and, or]

def ofName? (s : String) : Option Operator := all.find? fun op => op.name == s

theorem mem_all (op : Operator) : op ∈ all := by
  cases op <;> (try rename_i kind; cases kind) <;> decide

@[simp] theorem ofName?_name (op : Operator) : ofName? op.name = some op := by
  cases op <;> (try rename_i kind; cases kind) <;> decide

theorem name_of_ofName? {s : String} {op : Operator} (h : ofName? s = some op) : op.name = s := by
  simpa using List.find?_some h

def arity : Operator → Arity
  | arithmetic _ => .atLeast 1
  | list | and | or => .any
  | comparison _ | equal | modulo | cons => .exactly 2
  | car | cdr | isNull | not => .exactly 1

/-- The operators whose operands are evaluated one at a time, as far as needed. -/
def isLazy : Operator → Bool
  | and | or => true
  | _ => false

end Operator
end LexicalLisp
