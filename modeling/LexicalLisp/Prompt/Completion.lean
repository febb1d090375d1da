import LexicalLisp.Keyword
import LexicalLisp.Reading.Token
import LexicalLisp.Store

/-!
# Completing names

The atom that ends right at the cursor is completed to the names that begin with
it: those visible in a frame and the reserved ones. A candidate is what is still
missing of such a name, and it goes in at the cursor.
-/

namespace LexicalLisp.Completion

/-- What is left of a list after an initial part; `none` if it does not begin with it. -/
def remainder? (initial : List Char) (cs : List Char) : Option (List Char) :=
  match initial, cs with
  | [], rest => some rest
  | a :: initial, c :: cs => if a = c then remainder? initial cs else none
  | _ :: _, [] => none

/-- The last of the lexemes, if it is an atom and the characters end with it. -/
def atomBefore? (before : List Char) : Option (List Char) :=
  match (Lexeme.scan 0 before).getLast? with
  | some l => if l.kind = .atom ∧ l.chars <:+ before then some l.chars else none
  | none => none

def suffix? (atom : List Char) (name : String) : Option String :=
  match remainder? atom name.toList with
  | some (c :: cs) => some (String.ofList (c :: cs))
  | _ => none

/-- The candidates at a byte offset of a line, sorted, each once. -/
def candidates (s : Store) (f : FrameId) (line : String) (cursor : Nat) : List String :=
  match atomBefore? (Text.takeBytes cursor line.toList) with
  | none => []
  | some atom => Text.sortNames ((s.visibleNames f ++ reservedNames).filterMap (suffix? atom))

/-- The byte offset at which a candidate goes in, and the candidates. -/
def complete (s : Store) (f : FrameId) (line : String) (cursor : Nat) : Nat × List String :=
  (cursor, candidates s f line cursor)

end LexicalLisp.Completion
