import LexicalLisp.Diagnosis
import LexicalLisp.Prompt.Verdict
import LexicalLisp.Text.Blank

/-!
# A dialogue with its user

At the prompt, lines are gathered until the text so far is valid; it is then
submitted as one input. The line breaks inside an incomplete text belong to it.
An invalid text is complained about and kept, so that nothing can be submitted
after it. A program that reads a line takes it from the same stream.

The dialogue ends at the end of the stream, where an unfinished text is
dropped, or with the word `exit` in any letter case.
-/

namespace LexicalLisp

/-- What comes of gathering lines for one input. -/
structure Entry where
  complaints : String
  /-- The text to submit; `none` at the end of the stream. -/
  text? : Option String
  /-- The characters that have not been read. -/
  rest : List Char
  deriving DecidableEq, Repr

namespace Entry

/-- Gathers lines after a text that cannot be submitted yet. -/
def gather (pending : List Char) : List Char → Entry
  | [] => ⟨"", none, []⟩
  | c :: cs =>
    let piece := (Text.splitPiece (c :: cs)).1
    let rest := (Text.splitPiece (c :: cs)).2
    let body := Text.dropLineBreak (pending ++ piece)
    match Verdict.scan 0 0 body with
    | .valid => ⟨"", some (String.ofList body), rest⟩
    | .incomplete => gather (pending ++ piece) rest
    | .invalid position =>
      let entry := gather body rest
      { entry with complaints := Verdict.complaint position ++ entry.complaints }
termination_by text => text.length
decreasing_by all_goals exact Text.length_splitPiece_lt c cs

end Entry

/-- How far a dialogue has come. -/
structure Dialogue where
  machine : Machine
  /-- The texts submitted so far, as they were typed. -/
  submitted : List String
  diagnoses : List Diagnosis
  complaints : String

namespace Dialogue

def greeting : String :=
  "lis REPL v0.1.0\nType 'exit' or press Ctrl-D to quit.\nNo previous history.\n"

def farewell : String := "\nLeaving lis.\n"

def unread (d : Dialogue) : List Char :=
  match d.machine.terminal.input with
  | .stream s => s.text
  | .lines _ => []

def leave (d : Dialogue) (rest : List Char) : Dialogue :=
  { d with machine.terminal.input := .stream ⟨rest, false⟩ }

def say (d : Dialogue) (text : String) : Dialogue :=
  { d with machine.terminal := (d.machine.terminal.write text).2 }

/-- The value of an input is shown, unless there is nothing to show. -/
def answer (d : Dialogue) : Value → Dialogue
  | .void => d
  | v => d.say (v.text ++ "\n")

/-- Takes at most `turns` entries from the stream and runs them in frame zero. -/
def continue? (depth : Nat) : Nat → Dialogue → Option Dialogue
  | 0, d => some d
  | turns + 1, d =>
    let entry := Entry.gather [] d.unread
    let d := { d.leave entry.rest with complaints := d.complaints ++ entry.complaints }
    match entry.text? with
    | none => some (d.say farewell)
    | some line =>
      let d := { d with submitted := d.submitted ++ [line] }
      let input := Text.trim line
      if input = "" then continue? depth turns d
      else if input.toLower = "exit" then some d
      else
        match Session.submit depth input 0 d.machine with
        | .result v m => continue? depth turns ({ d with machine := m }.answer v)
        | .error e m =>
          continue? depth turns
            { d with machine := m, diagnoses := d.diagnoses ++ [e.diagnose "REPL" input] }
        | .outOfFuel => none

/-- The dialogue over a whole stream. Every entry takes at least one character,
so the number of characters bounds the number of entries. -/
def run? (depth : Nat) (input : String) : Option Dialogue :=
  let machine := Session.start (.ofStream (.ofText input))
  let d : Dialogue := ⟨machine, [], [], ""⟩
  continue? depth (input.length + 1) (d.say greeting)

end Dialogue
end LexicalLisp
