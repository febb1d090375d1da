import LexicalLisp.Operator

/-!
# Keywords and reserved names

Keywords are the heads of the special forms, which decide for themselves which
of their operands are evaluated and when. Keywords, operators and two literals
are reserved: at the head of a form they are never looked up.
-/

namespace LexicalLisp

inductive Keyword where
  | ifElse
  | cond
  | letIn
  | define
  | lambda
  | set
  | begin
  | display
  | writeLine
  | readLine
  deriving DecidableEq, Repr

namespace Keyword

def name : Keyword → String
  | ifElse => "if"
  | cond => "cond"
  | letIn => "let"
  | define => "define"
  | lambda => "lambda"
  | set => "set!"
  | begin => "begin"
  | display => "display"
  | writeLine => "write-line"
  | readLine => "read-line"

def all : List Keyword :=
  [ifElse, cond, letIn, define, lambda, set, begin, display, writeLine, readLine]

def ofName? (s : String) : Option Keyword := all.find? fun k => k.name == s

@[simp] theorem ofName?_name (k : Keyword) : ofName? k.name = some k := by
  cases k <;> decide

theorem name_of_ofName? {s : String} {k : Keyword} (h : ofName? s = some k) : k.name = s := by
  simpa using List.find?_some h

end Keyword

/-- The names that have a meaning of their own: keywords, operators, the empty
list `null`, and `else`, which is true wherever it stands. -/
def reservedNames : List String :=
  Keyword.all.map Keyword.name ++ Operator.all.map Operator.name ++ ["null", "else"]

end LexicalLisp
