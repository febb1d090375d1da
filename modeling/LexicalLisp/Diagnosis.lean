import LexicalLisp.Session

/-!
# Diagnoses

A failed run is shown to its user as a headline, a label and a place. A reading
error is placed at the parenthesis at fault. An evaluation error has no place in
the text, so the whole text is marked, from its beginning on.
-/

namespace LexicalLisp

structure Diagnosis where
  headline : String
  label : String
  /-- What the text is called, with line and column. -/
  location : String
  deriving DecidableEq, Repr

namespace ReadError

def headline : ReadError → String
  | unexpectedClose _ => "Syntax Error: unexpected \")\""
  | unclosed _ => "Syntax Error: unexpected end of input"

def label : ReadError → String
  | unexpectedClose _ => "This parenthesis does not close anything"
  | unclosed _ => "This parenthesis is never closed"

end ReadError

def ErrorClass.headline : ErrorClass → String
  | form => "Syntax Error"
  | name => "Name Error"
  | runtime => "Runtime Error"

def NameError.label : NameError → String
  | unbound name => "`" ++ name ++ "` is not defined in any enclosing scope"
  | alreadyDefined name =>
    "`" ++ name ++ "` is already defined in this scope; use set! to change it"

def EvalError.label : EvalError → String
  | name error => error.label
  | error => error.message

namespace RunError

def headline : RunError → String
  | read error => error.headline
  | eval error => error.errorClass.headline

def label : RunError → String
  | read error => error.label
  | eval error => error.label

def offset (text : String) : RunError → Nat
  | read error => (error.span.range text).1
  | eval _ => 0

def place (text : String) (error : RunError) : Text.Place :=
  Text.placeOf text (error.offset text)

def diagnose (textName text : String) (error : RunError) : Diagnosis where
  headline := error.headline
  label := error.label
  location :=
    textName ++ ":" ++ toString (error.place text).line ++ ":" ++
      toString (error.place text).column

end RunError
end LexicalLisp
