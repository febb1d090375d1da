/-!
# Lines of a text

A text falls into pieces, each of which ends with its line feed; only the last
piece may lack one. A line is a piece without its line break, and a line break
is a line feed together with the carriage return right before it, if any. A
carriage return elsewhere is an ordinary character of its line.

Offsets count bytes of the UTF-8 encoding throughout, hence the measure
`byteLength` on lists of characters.
-/

namespace LexicalLisp.Text

/-- The number of bytes that the characters occupy in UTF-8. -/
def byteLength : List Char → Nat
  | [] => 0
  | c :: cs => c.utf8Size + byteLength cs

@[simp] theorem byteLength_nil : byteLength [] = 0 := rfl

@[simp] theorem byteLength_cons (c : Char) (cs : List Char) :
    byteLength (c :: cs) = c.utf8Size + byteLength cs := rfl

@[simp] theorem byteLength_append (cs ds : List Char) :
    byteLength (cs ++ ds) = byteLength cs + byteLength ds := by
  induction cs with
  | nil => simp
  | cons c cs ih => simp [ih, Nat.add_assoc]

/-- The pieces of a text: each runs up to and including a line feed, the last
one to the end of the text. -/
def pieces : List Char → List (List Char)
  | [] => []
  | c :: cs =>
    if c = '\n' then [c] :: pieces cs
    else match pieces cs with
      | [] => [[c]]
      | piece :: rest => (c :: piece) :: rest

theorem flatten_pieces (text : List Char) : (pieces text).flatten = text := by
  induction text with
  | nil => rfl
  | cons c cs ih =>
    simp only [pieces]
    split
    · simp [ih]
    · split <;> simp_all

/-- Removes a final line break: a line feed, and a carriage return right before it. -/
def dropLineBreak : List Char → List Char
  | [] => []
  | ['\n'] => []
  | ['\r', '\n'] => []
  | c :: cs => c :: dropLineBreak cs

/-- The lines of a text, without their line breaks. No line follows a final line feed. -/
def lines (text : String) : List String :=
  (pieces text.toList).map fun piece => String.ofList (dropLineBreak piece)

/-- The first piece of a text and what follows it. -/
def splitPiece : List Char → List Char × List Char
  | [] => ([], [])
  | c :: cs =>
    if c = '\n' then ([c], cs)
    else
      let (piece, rest) := splitPiece cs
      (c :: piece, rest)

theorem splitPiece_append (text : List Char) :
    (splitPiece text).1 ++ (splitPiece text).2 = text := by
  induction text with
  | nil => rfl
  | cons c cs ih =>
    simp only [splitPiece]
    split <;> simp_all

theorem length_splitPiece_lt (c : Char) (cs : List Char) :
    (splitPiece (c :: cs)).2.length < (c :: cs).length := by
  simp only [splitPiece]
  split
  · simp
  · have h := congrArg List.length (splitPiece_append cs)
    simp only [List.length_append, List.length_cons] at h ⊢
    omega

/-- The longest initial segment of the characters that fits into the given number of bytes. -/
def takeBytes : Nat → List Char → List Char
  | _, [] => []
  | n, c :: cs => if c.utf8Size ≤ n then c :: takeBytes (n - c.utf8Size) cs else []

/-- A place in a text, counted from one; columns count characters. -/
structure Place where
  line : Nat
  column : Nat
  deriving DecidableEq, Repr

/-- The place of the character that starts at a byte offset. -/
def placeFrom (offset : Nat) (place : Place) : List Char → Place
  | [] => place
  | c :: cs =>
    if offset = 0 then place
    else placeFrom (offset - c.utf8Size)
      (if c = '\n' then ⟨place.line + 1, 1⟩ else ⟨place.line, place.column + 1⟩) cs

/-- The place of a byte offset in a text; lines end at line feeds. -/
def placeOf (text : String) (offset : Nat) : Place :=
  placeFrom offset ⟨1, 1⟩ text.toList

end LexicalLisp.Text
