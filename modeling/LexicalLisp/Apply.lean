import LexicalLisp.EvalError

/-!
# Applying operators to values

Arithmetic folds its operands from the left. Integers stay integers until a
float shows up; results that do not fit are errors, and so is a zero divisor of
either kind. Two numbers are compared as integers if both are, else as floats,
and nothing is in order with a value that is not a number.
-/

namespace LexicalLisp

inductive Number where
  | whole (value : Int64)
  | real (value : Float)

namespace Number

def toFloat : Number → Float
  | whole n => Word.toFloat n
  | real x => x

def toValue : Number → Value
  | whole n => .integer n
  | real x => .float x

/-- The number that a value is; other values are refused in the name of the operator. -/
def ofValue (op : Operator) : Value → Except EvalError Number
  | .integer n => .ok (whole n)
  | .float x => .ok (real x)
  | v => .error (.mismatch op .number v.kind)

/-- How two numbers compare; there is no answer for a value that is not a number. -/
def compare? : Number → Number → Option Ordering
  | whole a, whole b => some (compare a.toInt b.toInt)
  | a, b =>
    let x := a.toFloat
    let y := b.toFloat
    if x < y then some .lt else if x == y then some .eq else if y < x then some .gt else none

end Number

namespace Arithmetic

/-- The operation on words: `none` if the result does not fit. -/
def onWords? : Arithmetic → Int64 → Int64 → Option Int64
  | add, a, b => Word.add? a b
  | sub, a, b => Word.sub? a b
  | mul, a, b => Word.mul? a b
  | div, a, b => Word.floorDiv? a b

def onFloats : Arithmetic → Float → Float → Float
  | add, x, y => x + y
  | sub, x, y => x - y
  | mul, x, y => x * y
  | div, x, y => x / y

/-- One step of arithmetic. Division asks for a non-zero divisor before anything else. -/
def combine (op : Arithmetic) : Number → Number → Except EvalError Number
  | .whole a, .whole b =>
    if op = .div ∧ b = 0 then .error .divisionByZero
    else match op.onWords? a b with
      | some n => .ok (.whole n)
      | none => .error (.overflow (.arithmetic op))
  | a, b =>
    if op = .div && b.toFloat == 0 then .error .divisionByZero
    else .ok (.real (op.onFloats a.toFloat b.toFloat))

end Arithmetic

def Comparison.accepts : Comparison → Ordering → Bool
  | less, o => o == .lt
  | greater, o => o == .gt
  | greaterEq, o => o != .lt
  | lessEq, o => o != .gt

namespace Operator

/-- One step of arithmetic in the name of an operator, which has to be an arithmetic one. -/
def combine (op : Operator) (a b : Number) : Except EvalError Number :=
  match op with
  | arithmetic kind => kind.combine a b
  | op => .error (.notArithmetic op)

/-- The left fold of an operator over the operands. Each operand is checked
when its turn comes, so the first failure from the left is the one reported. -/
def foldFrom (op : Operator) (acc : Number) : List Value → Except EvalError Number
  | [] => .ok acc
  | v :: vs => do
    let n ← Number.ofValue op v
    let acc' ← op.combine acc n
    foldFrom op acc' vs

def compareValues (op : Comparison) (a b : Value) : Except EvalError Value := do
  let x ← Number.ofValue (.comparison op) a
  let y ← Number.ofValue (.comparison op) b
  return .boolean ((x.compare? y).any op.accepts)

def moduloValues (a b : Value) : Except EvalError Value := do
  let x ← Number.ofValue .modulo a
  let y ← Number.ofValue .modulo b
  match x, y with
  | _, .whole 0 => .error .divisionByZero
  | .whole m, .whole n =>
    match Word.floorMod? m n with
    | some r => .ok (.integer r)
    | none => .error (.overflow .modulo)
  | x, y =>
    if y.toFloat == 0 then .error .divisionByZero
    else .ok (.float (floatMod x.toFloat y.toFloat))

def consValues (head : Value) : Value → Except EvalError Value
  | .list items => .ok (.list (head :: items))
  | tail => .error (.mismatch .cons .list tail.kind)

def splitList (op : Operator) : Value → Except EvalError (Value × List Value)
  | .list (head :: tail) => .ok (head, tail)
  | .list [] => .error (.emptyList op)
  | v => .error (.mismatch op .list v.kind)

def checkCount (op : Operator) (count : Nat) : Except EvalError Unit :=
  if op.arity.accepts count then .ok () else .error (.operandCount op count)

def apply (op : Operator) (args : List Value) : Except EvalError Value := do
  op.checkCount args.length
  match op, args with
  | arithmetic kind, first :: rest =>
    let acc ← Number.ofValue (arithmetic kind) first
    return (← (arithmetic kind).foldFrom acc rest).toValue
  | comparison op, [a, b] => compareValues op a b
  | equal, [a, b] => return .boolean (a.equal b)
  | modulo, [a, b] => moduloValues a b
  | list, items => return .list items
  | cons, [head, tail] => consValues head tail
  | car, [v] => return (← splitList .car v).1
  | cdr, [v] => return .list (← splitList .cdr v).2
  | isNull, [v] => return .boolean (v matches .list [])
  | not, [v] => return .boolean !v.isTruthy
  | and, _ | or, _ => .error (.lazyOperator op)
  | op, args => .error (.operandCount op args.length)

end Operator
end LexicalLisp
