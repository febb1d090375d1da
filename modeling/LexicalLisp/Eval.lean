import LexicalLisp.Apply
import LexicalLisp.Keyword
import LexicalLisp.Machine

/-!
# Evaluation

Each form has a rule, stated for any evaluator of its parts. `step` combines the
rules into one level of evaluation, and `eval` iterates it, so that evaluation
to depth `n + 1` is one step over evaluation to depth `n`. A property that every
rule hands on from the parts to the form thus holds at every depth.

Operands are evaluated from left to right, and the shape of a special form is
checked before any of its parts is evaluated; only the clauses of `cond` and the
bindings of `let` are checked one by one as they are reached.
-/

namespace LexicalLisp

/-- Evaluates an expression in a frame. -/
abbrev Evaluator := Expr → FrameId → Run EvalError Value

namespace Eval

variable (ev : Evaluator) (f : FrameId)

def operands : List Expr → Run EvalError (List Value)
  | [] => pure []
  | e :: es => do
    let v ← ev e f
    let vs ← operands es
    return v :: vs

/-- Evaluates expressions in order for the value of the last; `last` is the
value before the first of them. -/
def inOrder (last : Value) : List Expr → Run EvalError Value
  | [] => pure last
  | e :: es => do
    let v ← ev e f
    inOrder v es

/-- Stops at the first false operand; else the last value is the result. -/
def conjunction (last : Value) : List Expr → Run EvalError Value
  | [] => pure last
  | e :: es => do
    let v ← ev e f
    if v.isTruthy then conjunction v es else return .boolean false

/-- Stops at the first true operand, whose value is the result. -/
def disjunction : List Expr → Run EvalError Value
  | [] => pure (.boolean false)
  | e :: es => do
    let v ← ev e f
    if v.isTruthy then return v else disjunction es

def operator (op : Operator) (es : List Expr) : Run EvalError Value :=
  match op with
  | .and => conjunction ev f (.boolean true) es
  | .or => disjunction ev f es
  | op => do
    let args ← operands ev f es
    Run.ofExcept (op.apply args)

def ifElse : List Expr → Run EvalError Value
  | [condition, consequent, alternate] => do
    let v ← ev condition f
    if v.isTruthy then ev consequent f else ev alternate f
  | _ => Run.fail (.malformed .ifShape)

def cond : List Expr → Run EvalError Value
  | [] => Run.fail (.malformed .condWithoutElse)
  | .list [predicate, result] :: clauses => do
    let v ← ev predicate f
    if v.isTruthy then ev result f else cond clauses
  | _ :: _ => Run.fail (.malformed .condClause)

/-- The names of a binding list with the values of its expressions, each of
which is evaluated in the frame around the form. -/
def bindings : List Expr → Run EvalError (List (String × Value))
  | [] => pure []
  | .list [.symbol name, e] :: rest => do
    let v ← ev e f
    let pairs ← bindings rest
    return (name, v) :: pairs
  | _ :: _ => Run.fail (.malformed .letBinding)

def letIn : List Expr → Run EvalError Value
  | [.list binders, body] => do
    let pairs ← bindings ev f binders
    let inner ← Run.pushFrame f pairs
    ev body inner
  | _ => Run.fail (.malformed .letShape)

def define : List Expr → Run EvalError Value
  | [.symbol name, e] => do
    let v ← ev e f
    Run.define f name v
    return .void
  | _ => Run.fail (.malformed .defineShape)

def set : List Expr → Run EvalError Value
  | [.symbol name, e] => do
    let v ← ev e f
    Run.assign f name v
    return .void
  | _ => Run.fail (.malformed .setShape)

/-- The parameter names of a `lambda` form, after those that were seen already. -/
def params (seen : List String) : List Expr → Except Malformed (List String)
  | [] => .ok seen
  | .symbol name :: rest =>
    if name ∈ seen then .error (.duplicateParameter name) else params (seen ++ [name]) rest
  | _ :: _ => .error .lambdaParameter

def lambda : List Expr → Run EvalError Value
  | [.list parameters, body] =>
    match params [] parameters with
    | .ok names => do
      let c ← Run.makeClosure names body f
      return .closure c
    | .error cause => Run.fail (.malformed cause)
  | _ => Run.fail (.malformed .lambdaShape)

/-- Writes the text of a value with something after it, in one go. -/
def output (ending : String) : List Expr → Run EvalError Value
  | [e] => do
    let v ← ev e f
    Run.write (v.text ++ ending)
    return .void
  | _ => Run.fail (.malformed .outputShape)

def readLine : List Expr → Run EvalError Value
  | [] => do
    let line ← Run.readLine
    return .string line
  | _ => Run.fail (.malformed .readLineOperands)

def keyword : Keyword → List Expr → Run EvalError Value
  | .ifElse => ifElse ev f
  | .cond => cond ev f
  | .letIn => letIn ev f
  | .define => define ev f
  | .lambda => lambda f
  | .set => set ev f
  | .begin => inOrder ev f .void
  | .display => output ev f ""
  | .writeLine => output ev f "\n"
  | .readLine => readLine

/-- Runs the body of a closure in the frame of the call. A head that is a plain
name is bound to the closure there, so that the body can call itself. -/
def enter (c : Closure) (head : Expr) (args : List Value) : Run EvalError Value := do
  let inner ← Run.pushCall c head.symbolName? args
  ev c.body inner

/-- Calls what the head evaluates to. Anything but a closure is refused before
the operands are evaluated. -/
def call (head : Expr) (es : List Expr) : Run EvalError Value := do
  match ← ev head f with
  | .closure c =>
    let args ← operands ev f es
    if args.length = c.params.length then enter ev c head args
    else Run.fail (.argumentCount c.params.length args.length)
  | v => Run.fail (.notProcedure v.kind v.text head.text)

/-- A form: the head is an operator or a keyword by its name, or it is called. -/
def form (head : Expr) (es : List Expr) : Run EvalError Value :=
  match head with
  | .symbol name =>
    match Operator.ofName? name with
    | some op => operator ev f op es
    | none =>
      match Keyword.ofName? name with
      | some k => keyword ev f k es
      | none => call ev f head es
  | _ => call ev f head es

/-- One level of evaluation, with the given evaluator for the parts. -/
def step : Evaluator
  | .integer n, _ => pure (.integer n)
  | .float x, _ => pure (.float x)
  | .boolean b, _ => pure (.boolean b)
  | .null, _ => pure (.list [])
  | .symbol name, f => if name = "else" then pure (.boolean true) else Run.lookup f name
  | .list [], _ => Run.fail (.malformed .emptyForm)
  | .list (head :: es), f => form ev f head es

end Eval

/-- Evaluation up to a depth of nesting. -/
def eval : Nat → Evaluator
  | 0 => fun _ _ => Run.outOfFuel
  | n + 1 => Eval.step (eval n)

end LexicalLisp
