import LexicalLisp.EvalError
import LexicalLisp.Text.Line

/-!
# Terminals

A terminal takes texts to be written and gives lines of input. Its input is
either a list of lines or a stream of characters, of which a line is the part up
to the next line break. A terminal may refuse to write more than a certain
number of texts, and may refuse to be read; a refused write leaves no output.
-/

namespace LexicalLisp

/-- The characters that a stream of bytes still holds, and whether bytes that
are no UTF-8 come after them. -/
structure Stream where
  text : List Char
  garbled : Bool
  deriving DecidableEq, Repr

namespace Stream

def ofText (text : String) : Stream := ⟨text.toList, false⟩

/-- Decodes bytes from an offset on, up to the first that is no part of a character. -/
def decodeFrom (bytes : ByteArray) (offset : Nat) : Stream :=
  if _h : offset < bytes.size then
    match bytes.utf8DecodeChar? offset with
    | some c =>
      let rest := decodeFrom bytes (offset + c.utf8Size)
      ⟨c :: rest.text, rest.garbled⟩
    | none => ⟨[], true⟩
  else ⟨[], false⟩
termination_by bytes.size - offset
decreasing_by have := c.utf8Size_pos; omega

def ofBytes (bytes : ByteArray) : Stream := decodeFrom bytes 0

/-- The whole text of a stream, if all of it can be decoded. -/
def text? (s : Stream) : Option String :=
  if s.garbled then none else some (String.ofList s.text)

/-- Takes one line, without its line break; there is none at the end of the stream. -/
def readLine (s : Stream) : Except Refusal (Option String) × Stream :=
  let (piece, rest) := Text.splitPiece s.text
  if s.garbled && !piece.contains '\n' then (.error .notUtf8, s)
  else if piece.isEmpty then (.ok none, s)
  else (.ok (some (String.ofList (Text.dropLineBreak piece))), { s with text := rest })

end Stream

inductive Input where
  | lines (pending : List String)
  | stream (s : Stream)
  deriving DecidableEq, Repr

structure Terminal where
  input : Input
  /-- Whether lines may be read. -/
  readable : Bool := true
  /-- How many more texts are taken; without a bound if `none`. -/
  room : Option Nat := none
  /-- The texts written so far. -/
  writes : Array String := #[]
  /-- How many writes have been refused. -/
  refusedWrites : Nat := 0
  deriving DecidableEq, Repr

namespace Terminal

def ofLines (lines : List String) : Terminal := { input := .lines lines }

def ofStream (s : Stream) : Terminal := { input := .stream s }

def output (t : Terminal) : String := String.join t.writes.toList

def write (text : String) (t : Terminal) : Except Refusal Unit × Terminal :=
  match t.room with
  | none => (.ok (), { t with writes := t.writes.push text })
  | some (n + 1) => (.ok (), { t with writes := t.writes.push text, room := some n })
  | some 0 => (.error .write, { t with refusedWrites := t.refusedWrites + 1 })

def readLine (t : Terminal) : Except Refusal (Option String) × Terminal :=
  if t.readable then
    match t.input with
    | .lines [] => (.ok none, t)
    | .lines (line :: rest) => (.ok (some line), { t with input := .lines rest })
    | .stream s => (s.readLine.1, { t with input := .stream s.readLine.2 })
  else (.error .read, t)

end Terminal
end LexicalLisp
