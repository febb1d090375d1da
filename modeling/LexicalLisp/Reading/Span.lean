import LexicalLisp.Text.Line

/-!
# Spans

A span is a stretch of one line of a text, in bytes from the start of the line.
Lines and bytes are counted from zero and shown counted from one.
-/

namespace LexicalLisp

structure Span where
  line : Nat
  start : Nat
  stop : Nat
  deriving DecidableEq, Repr, Inhabited

namespace Span

/-- The position at which the span starts, for a reader of messages. -/
def describe (s : Span) : String :=
  "line " ++ toString (s.line + 1) ++ ", column " ++ toString (s.start + 1)

/-- The offset at which a line of a text starts; past the last line, the end of the text. -/
def lineOffset (text : String) (line : Nat) : Nat :=
  Text.byteLength ((Text.pieces text.toList).take line).flatten

/-- The first and the last offset of the span in the whole text, the latter exclusive. -/
def range (s : Span) (text : String) : Nat × Nat :=
  (lineOffset text s.line + s.start, lineOffset text s.line + s.stop)

end Span
end LexicalLisp
