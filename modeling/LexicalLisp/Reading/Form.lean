import LexicalLisp.Reading.Expr
import LexicalLisp.Reading.TokenStream

/-!
# Expressions from tokens

The reader keeps the forms whose closing parenthesis has not come yet, the
innermost first. Each token opens a form, closes the innermost one or adds an
atom to it; a form that closes with no other around it is complete, as is an
atom outside all forms. Two things can go wrong: a closing parenthesis that no
open form waits for, and an end of input inside a form, for which the innermost
open parenthesis is blamed.

`parseTokens` reads a whole list and stops at the first error; `readForm` reads
one expression from a stream, taking no more tokens than it needs, and can go
on after an error.
-/

namespace LexicalLisp

inductive ReadError where
  | unexpectedClose (paren : Span)
  | unclosed (paren : Span)
  deriving DecidableEq, Repr

namespace ReadError

/-- The parenthesis at fault. -/
def span : ReadError → Span
  | unexpectedClose paren => paren
  | unclosed paren => paren

def message : ReadError → String
  | unexpectedClose paren => "Syntax Error [" ++ paren.describe ++ "]: Unexpected \")\""
  | unclosed paren =>
    "Syntax Error [" ++ paren.describe ++ "]: Unexpected end of input, \"(\" is never closed"

end ReadError

/-- A form whose closing parenthesis has not come yet. -/
structure OpenForm where
  paren : Span
  /-- The elements so far, the latest first. -/
  elements : List Expr

/-- The open forms around a place, the innermost first. -/
abbrev Nesting := List OpenForm

/-- What one more token leads to. -/
inductive Progress where
  | within (nesting : Nesting)
  | complete (e : Expr)
  | stray (paren : Span)

namespace Nesting

/-- An expression goes into the innermost open form, or is complete outside all of them. -/
def place (e : Expr) : Nesting → Progress
  | [] => .complete e
  | form :: outer => .within ({ form with elements := e :: form.elements } :: outer)

def advance (nesting : Nesting) (token : Token) : Progress :=
  match token.kind, nesting with
  | .opening, _ => .within (⟨token.span, []⟩ :: nesting)
  | .closing, [] => .stray token.span
  | .closing, form :: outer => place (.list form.elements.reverse) outer
  | .atom, _ => place (.ofAtom token.text) nesting

end Nesting

/-- Reads all tokens, beginning inside the given open forms. -/
def parseFrom (nesting : Nesting) : List Token → Except ReadError (List Expr)
  | [] =>
    match nesting with
    | [] => .ok []
    | form :: _ => .error (.unclosed form.paren)
  | token :: tokens =>
    match nesting.advance token with
    | .within nesting' => parseFrom nesting' tokens
    | .complete e => (parseFrom [] tokens).map (e :: ·)
    | .stray paren => .error (.unexpectedClose paren)

def parseTokens (tokens : List Token) : Except ReadError (List Expr) := parseFrom [] tokens

def parseLines (lines : List String) : Except ReadError (List Expr) :=
  parseTokens (Token.ofLines 0 lines)

def parse (text : String) : Except ReadError (List Expr) := parseLines (Text.lines text)

namespace TokenStream

/-- Reads to the end of the current expression, beginning inside the given open
forms; `none` if no token is left and no form is open. -/
def readFrom (nesting : Nesting) (s : TokenStream) :
    Option (Except ReadError Expr) × TokenStream :=
  match _h : s.next with
  | (none, s') => (nesting.head?.map fun form => .error (.unclosed form.paren), s')
  | (some token, s') =>
    match nesting.advance token with
    | .within nesting' => readFrom nesting' s'
    | .complete e => (some (.ok e), s')
    | .stray paren => (some (.error (.unexpectedClose paren)), s')
termination_by s.toList.length
decreasing_by simp [toList_of_next_some _h]

def readForm (s : TokenStream) : Option (Except ReadError Expr) × TokenStream := s.readFrom []

/-- Reading takes at least one token, unless none is left. -/
theorem length_readFrom_le (nesting : Nesting) (s : TokenStream) :
    (s.readFrom nesting).2.toList.length ≤ s.toList.length - 1 := by
  fun_induction readFrom nesting s with
  | case1 nesting s s' h => simp [toList_of_next_none h]
  | case2 nesting s token s' h nesting' _ ih => simp [toList_of_next_some h]; omega
  | case3 nesting s token s' h e _ => simp [toList_of_next_some h]
  | case4 nesting s token s' h paren _ => simp [toList_of_next_some h]

theorem length_lt_of_readForm {s s' : TokenStream} {r : Except ReadError Expr}
    (h : s.readForm = (some r, s')) : s'.toList.length < s.toList.length := by
  have hle := length_readFrom_le [] s
  unfold readForm at h
  rw [h] at hle
  unfold readFrom at h
  split at h
  · simp at h
  · rename_i hnext
    simp only [toList_of_next_some hnext, List.length_cons] at hle ⊢
    omega

/-- Reads expressions until no token is left, going on after errors. Each result
comes with the number of lines taken when it was known; the stream at the end is
returned as well. -/
def readSteps (s : TokenStream) : List (Except ReadError Expr × Nat) × TokenStream :=
  match _h : s.readForm with
  | (none, s') => ([], s')
  | (some r, s') =>
    let (steps, s'') := readSteps s'
    ((r, s'.taken) :: steps, s'')
termination_by s.toList.length
decreasing_by all_goals exact length_lt_of_readForm _h

end TokenStream
end LexicalLisp
