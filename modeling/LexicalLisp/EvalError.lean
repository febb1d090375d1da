import LexicalLisp.Operator
import LexicalLisp.Value

/-!
# What can go wrong in an evaluation

Each error is a cause with the data that its message needs. The texts of all
messages are in this module.
-/

namespace LexicalLisp

/-- A name that is not bound anywhere, or that is bound already where it may not be. -/
inductive NameError where
  | unbound (name : String)
  | alreadyDefined (name : String)
  deriving DecidableEq, Repr

namespace NameError

def name : NameError → String
  | unbound name => name
  | alreadyDefined name => name

def message : NameError → String
  | unbound name => "Unknown variable \"" ++ name ++ "\""
  | alreadyDefined name => "Variable \"" ++ name ++ "\" is already defined in this scope"

end NameError

/-- The ways in which a form can be malformed. -/
inductive Malformed where
  | emptyForm
  | ifShape
  | condClause
  | condWithoutElse
  | letShape
  | letBinding
  | defineShape
  | lambdaShape
  | lambdaParameter
  | duplicateParameter (name : String)
  | setShape
  | outputShape
  | readLineOperands
  deriving DecidableEq, Repr

def Malformed.message : Malformed → String
  | emptyForm => "cannot evaluate an empty form ()"
  | ifShape => "if expects a condition, a consequent and an alternate"
  | condClause => "cond clauses must be (predicate result) pairs"
  | condWithoutElse => "cond statement without else branch"
  | letShape => "let expects a binding list and a body"
  | letBinding => "let bindings must be (name value) pairs"
  | defineShape => "define expects a symbol and a value"
  | lambdaShape => "lambda expects a parameter list and a body"
  | lambdaParameter => "lambda parameters must be symbols"
  | duplicateParameter name => "duplicate lambda parameter '" ++ name ++ "'"
  | setShape => "set! expects a symbol and a value"
  | outputShape => "display and write-line expect exactly one operand"
  | readLineOperands => "read-line takes no operands"

/-- Why a terminal does not do what is asked of it. -/
inductive Refusal where
  | write
  | read
  | notUtf8
  deriving DecidableEq, Repr

def Refusal.message : Refusal → String
  | write => "write refused"
  | read => "read refused"
  | notUtf8 => "stream did not contain valid UTF-8"

/-- What an operator wants of an operand. -/
inductive Expected where
  | number
  | list
  deriving DecidableEq, Repr

def Expected.name : Expected → String
  | number => "number"
  | list => "list"

/-- A coarse classification of errors. -/
inductive ErrorClass where
  | form
  | name
  | runtime
  deriving DecidableEq, Repr

inductive EvalError where
  | name (error : NameError)
  | malformed (cause : Malformed)
  /-- A closure was called with the wrong number of operands. -/
  | argumentCount (expected found : Nat)
  /-- The head of a form has a value that cannot be called. -/
  | notProcedure (kind : Kind) (value : String) (head : String)
  /-- An operator was given the wrong number of operands. -/
  | operandCount (op : Operator) (found : Nat)
  | mismatch (op : Operator) (expected : Expected) (found : Kind)
  | emptyList (op : Operator)
  | divisionByZero
  | overflow (op : Operator)
  | endOfInput
  | refused (refusal : Refusal)
  /-- An operator that evaluates its operands lazily was applied to values. -/
  | lazyOperator (op : Operator)
  /-- An operator that is none of arithmetic was to combine two numbers. -/
  | notArithmetic (op : Operator)
  deriving DecidableEq, Repr

namespace EvalError

def message : EvalError → String
  | name error => error.message
  | malformed cause => "Syntax Error: " ++ cause.message
  | argumentCount expected found =>
    "Procedure expects " ++ toString expected ++ " arguments, got " ++ toString found
  | notProcedure kind value head =>
    "Expected a procedure, but got " ++ kind.name ++ " '" ++ value ++ "' in " ++ head
  | operandCount op found =>
    "Invalid arguments - '" ++ op.name ++ "' expects " ++ op.arity.describe ++
      " arguments, got " ++ toString found
  | mismatch op expected found =>
    "'" ++ op.name ++ "' expects a " ++ expected.name ++ ", but got a " ++ found.name
  | emptyList op => "'" ++ op.name ++ "' of an empty list"
  | divisionByZero => "Division by zero"
  | overflow op => "Integer overflow in '" ++ op.name ++ "'"
  | endOfInput => "read-line: no more input"
  | refused refusal => "I/O error: " ++ refusal.message
  | lazyOperator op => "Unexpected Error: '" ++ op.name ++ "' must be evaluated lazily"
  | notArithmetic op => "Unexpected Error: '" ++ op.name ++ "' is not an arithmetic operator"

def errorClass : EvalError → ErrorClass
  | malformed _ => .form
  | name _ | argumentCount _ _ => .name
  | _ => .runtime

end EvalError
end LexicalLisp
