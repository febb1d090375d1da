/-!
# Is an input complete?

While a text is typed, its parentheses tell whether it can be submitted: it is
valid when all of them are matched, incomplete when some are still open at the
end, and invalid from the first closing parenthesis on that has no partner.
-/

namespace LexicalLisp

inductive Verdict where
  | valid
  | incomplete
  /-- The closing parenthesis at this position, in characters, has no partner. -/
  | invalid (position : Nat)
  deriving DecidableEq, Repr

namespace Verdict

/-- The verdict on the rest of a text, given how many parentheses are open and
how many characters came before. -/
def scan (depth position : Nat) : List Char → Verdict
  | [] => if depth = 0 then valid else incomplete
  | c :: cs =>
    if c = '(' then scan (depth + 1) (position + 1) cs
    else if c = ')' then
      match depth with
      | 0 => invalid position
      | outer + 1 => scan outer (position + 1) cs
    else scan depth (position + 1) cs

def of (text : String) : Verdict := scan 0 0 text.toList

def complaint (position : Nat) : String :=
  "  - Unmatched ')' at position " ++ toString position

end Verdict
end LexicalLisp
