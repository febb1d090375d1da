import LexicalLisp.Prompt.Dialogue

/-!
# The commands

`lis` runs the program in a file, or the one on standard input if no file is
named; a failed run is diagnosed and gives exit code one. The dialogue is the
second command. Both are functions from what they read to what they produce.
-/

namespace LexicalLisp

/-- What a command leaves behind. -/
structure Report where
  exitCode : Nat
  output : String
  diagnoses : List Diagnosis
  /-- What else goes to standard error. -/
  messages : String
  deriving DecidableEq, Repr

/-- Why a file cannot be read. -/
inductive FileError where
  | notFound
  | isDirectory
  | notDirectory
  | other (text : String)
  deriving DecidableEq, Repr

def FileError.message : FileError → String
  | notFound => "No such file or directory (os error 2)"
  | isDirectory => "Is a directory (os error 21)"
  | notDirectory => "Not a directory (os error 20)"
  | other text => text

/-- What the arguments ask for. -/
inductive Invocation where
  | help
  | file (path : String)
  | standardInput
  deriving DecidableEq, Repr

namespace Invocation

/-- Only the first argument counts. -/
def ofArgs : List String → Invocation
  | [] => standardInput
  | arg :: _ => if arg = "-h" ∨ arg = "--help" then help else file arg

end Invocation

namespace Command

def usage : String :=
  "usage: lis FILE\n       lis < FILE\n\nRuns a lis program. A program read from standard " ++
    "input has no input left\nfor (read-line); use `repl` for interactive sessions."

def unreadable (source reason : String) : Report :=
  ⟨1, "", [], "Error: cannot read " ++ source ++ ": " ++ reason⟩

def runProgram? (depth : Nat) (name text : String) (input : Stream) : Option Report :=
  match Session.runText depth text 0 (Session.start (.ofStream input)) with
  | .result _ m => some ⟨0, m.terminal.output, [], ""⟩
  | .error e m => some ⟨1, m.terminal.output, [e.diagnose name text], ""⟩
  | .outOfFuel => none

/-- The command `lis`, given what its arguments ask for, the contents of the
file they name, and standard input. There is no report of a run that goes
deeper than allowed. -/
def lis? (depth : Nat) (invocation : Invocation) (contents : Except FileError Stream)
    (input : Stream) : Option Report :=
  match invocation with
  | .help => some ⟨0, usage ++ "\n", [], ""⟩
  | .file path =>
    match contents with
    | .error e => some (unreadable ("'" ++ path ++ "'") e.message)
    | .ok bytes =>
      match bytes.text? with
      | none => some (unreadable ("'" ++ path ++ "'") Refusal.notUtf8.message)
      | some text => runProgram? depth path text input
  | .standardInput =>
    match input.text? with
    | none => some (unreadable "standard input" Refusal.notUtf8.message)
    | some text => runProgram? depth "<stdin>" text ⟨[], false⟩

def dialogue? (depth : Nat) (input : String) : Option Report :=
  (Dialogue.run? depth input).map fun d =>
    ⟨0, d.machine.terminal.output, d.diagnoses, d.complaints⟩

/-- The depth of nesting that the commands allow. It exceeds what any stack can hold. -/
def depthLimit : Nat := 1000000

end Command
end LexicalLisp
