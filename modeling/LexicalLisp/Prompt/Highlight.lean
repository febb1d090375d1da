import LexicalLisp.Text.Line

/-!
# Highlighting parentheses

A line is repeated with some of its parentheses coloured: closing ones without a
partner in red, and the pair next to the cursor in blue. The cursor is next to a
pair when it stands right after one of its two parentheses.

One pass suffices. It keeps the output and, for each open parenthesis, its offset
in the line and its offset in the output, so that it can be replaced there by a
coloured one when its partner turns up.
-/

namespace LexicalLisp

namespace Text

/-- Replaces the character that starts at a byte offset by a text. -/
def replaceAt (offset : Nat) (text : String) (cs : List Char) : String :=
  let before := takeBytes offset cs
  String.ofList before ++ text ++ String.ofList (cs.drop (before.length + 1))

end Text

namespace Highlight

def red (text : String) : String := "\x1b[31m" ++ text ++ "\x1b[0m"

def blue (text : String) : String := "\x1b[34m" ++ text ++ "\x1b[0m"

def boldBlue (text : String) : String := "\x1b[1;34m" ++ text ++ "\x1b[0m"

/-- An opening parenthesis without a partner so far. -/
structure Opening where
  /-- The byte of the line at which it stands. -/
  offset : Nat
  /-- The byte of the output at which it stands. -/
  place : Nat

/-- The output for a line: what has been put out for the characters before the given
offset, continued by the remaining characters. -/
def paint (cursor offset : Nat) (stack : List Opening) (done : String) : List Char → String
  | [] => done
  | c :: cs =>
    let next := offset + c.utf8Size
    if c = '(' then paint cursor next (⟨offset, done.utf8ByteSize⟩ :: stack) (done.push c) cs
    else if c = ')' then
      match stack with
      | [] => paint cursor next [] (done ++ red ")") cs
      | opening :: outer =>
        if cursor = offset + 1 ∨ cursor = opening.offset + 1 then
          paint cursor next outer
            (Text.replaceAt opening.place (boldBlue "(") (done ++ blue ")").toList) cs
        else paint cursor next outer (done.push c) cs
    else paint cursor next stack (done.push c) cs

def line (text : String) (cursor : Nat) : String := paint cursor 0 [] "" text.toList

end Highlight
end LexicalLisp
