import LexicalLisp.Text.Blank
import LexicalLisp.Reading.Span

/-!
# Tokens

A line falls into parentheses and atoms, where an atom is a longest run of
characters that are neither blank nor parentheses. So every line has a token
list, and nothing but blanks lies between the tokens.

The scan goes from the right: a character that may stand in an atom joins the
atom that begins right after it, if there is one.
-/

namespace LexicalLisp

inductive TokenKind where
  | opening
  | closing
  | atom
  deriving DecidableEq, Repr

/-- Part of a line: its kind, the byte at which it starts, its characters. -/
structure Lexeme where
  kind : TokenKind
  start : Nat
  chars : List Char
  deriving DecidableEq, Repr

structure Token where
  kind : TokenKind
  text : String
  span : Span
  deriving DecidableEq, Repr

namespace Lexeme

/-- Puts the atom character `c`, which starts at `offset`, in front of the lexemes after it. -/
def join (offset : Nat) (c : Char) : List Lexeme → List Lexeme
  | [] => [⟨.atom, offset, [c]⟩]
  | next :: rest =>
    if next.kind = .atom ∧ next.start = offset + c.utf8Size then
      ⟨.atom, offset, c :: next.chars⟩ :: rest
    else ⟨.atom, offset, [c]⟩ :: next :: rest

/-- The lexemes of a list of characters that starts at the given byte. -/
def scan (offset : Nat) : List Char → List Lexeme
  | [] => []
  | c :: cs =>
    let rest := scan (offset + c.utf8Size) cs
    if Text.isTokenBlank c then rest
    else if c = '(' then ⟨.opening, offset, [c]⟩ :: rest
    else if c = ')' then ⟨.closing, offset, [c]⟩ :: rest
    else join offset c rest

def stop (l : Lexeme) : Nat := l.start + Text.byteLength l.chars

def toToken (line : Nat) (l : Lexeme) : Token :=
  ⟨l.kind, String.ofList l.chars, ⟨line, l.start, l.stop⟩⟩

end Lexeme

namespace Token

def ofLine (number : Nat) (line : String) : List Token :=
  (Lexeme.scan 0 line.toList).map (Lexeme.toToken number)

/-- The tokens of successive lines, the first of which has the given number. -/
def ofLines (number : Nat) : List String → List Token
  | [] => []
  | line :: rest => ofLine number line ++ ofLines (number + 1) rest

end Token
end LexicalLisp
