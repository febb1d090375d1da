import LexicalLisp.Eval
import LexicalLisp.Reading.Form

/-!
# Running programs and submitted inputs

A program is a list of expressions, evaluated in order up to the first error. A
text is read as a whole before any of it runs. An input submitted at a prompt is
a unit: if it fails, the frame it ran in gets back the bindings it had before,
while everything the run did to other frames and to the terminal stays.
-/

namespace LexicalLisp

inductive RunError where
  | read (error : ReadError)
  | eval (error : EvalError)
  deriving DecidableEq, Repr

def RunError.message : RunError → String
  | read error => error.message
  | eval error => error.message

namespace Session

/-- Evaluates the expressions of a program in order; the value of the last is the result. -/
def run (depth : Nat) (program : List Expr) (f : FrameId) : Run EvalError Value :=
  Eval.inOrder (eval depth) f .void program

/-- Reads lines and runs them as one program. -/
def runLines (depth : Nat) (lines : List String) (f : FrameId) : Run RunError Value :=
  match parseLines lines with
  | .error e => Run.fail (.read e)
  | .ok program => (run depth program f).mapError .eval

def runText (depth : Nat) (text : String) (f : FrameId) : Run RunError Value :=
  runLines depth (Text.lines text) f

/-- Runs something as a unit with respect to one frame: if it fails, the frame's
own bindings are put back. -/
def protect {ε α : Type} (f : FrameId) (x : Run ε α) : Run ε α := fun m =>
  let before := m.store.bindingsOf f
  match x m with
  | .error e m' => .error e { m' with store := m'.store.setBindings f before }
  | outcome => outcome

/-- Reads and runs one input submitted at a prompt. -/
def submit (depth : Nat) (text : String) (f : FrameId) : Run RunError Value :=
  match parse text with
  | .error e => Run.fail (.read e)
  | .ok program => protect f ((run depth program f).mapError .eval)

/-- A machine with one empty frame, number zero, and the given terminal. -/
def start (terminal : Terminal) : Machine := ⟨(Store.empty.push none []).2, terminal⟩

end Session
end LexicalLisp
