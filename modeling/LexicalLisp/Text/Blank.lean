/-!
# Blank characters

Two sets of blanks are in use. Tokens are separated by six ASCII characters
only, so that every other space of Unicode may be part of a name. Text typed at
a prompt is trimmed by the Unicode property `White_Space`, which holds for 25
characters and contains those six.
-/

namespace LexicalLisp.Text

/-- The characters that separate tokens: space, tab, line feed, vertical tab,
form feed and carriage return. -/
def isTokenBlank (c : Char) : Bool :=
  c = ' ' || c = '\t' || c = '\n' || c = '\x0b' || c = '\x0c' || c = '\r'

/-- The closed ranges of code points with the Unicode property `White_Space`, in order. -/
def whiteSpaceRanges : List (Nat × Nat) :=
  [(0x0009, 0x000d), (0x0020, 0x0020), (0x0085, 0x0085), (0x00a0, 0x00a0),
   (0x1680, 0x1680), (0x2000, 0x200a), (0x2028, 0x2029), (0x202f, 0x202f),
   (0x205f, 0x205f), (0x3000, 0x3000)]

/-- Does the character have the Unicode property `White_Space`? -/
def isBlank (c : Char) : Bool :=
  whiteSpaceRanges.any fun range => range.1 ≤ c.toNat && c.toNat ≤ range.2

theorem isBlank_of_isTokenBlank {c : Char} (h : isTokenBlank c = true) : isBlank c = true := by
  simp only [isTokenBlank, Bool.or_eq_true, decide_eq_true_eq] at h
  rcases h with ((((h | h) | h) | h) | h) | h <;> subst h <;> decide

def trim (text : String) : String :=
  String.ofList ((text.toList.dropWhile isBlank).reverse.dropWhile isBlank).reverse

end LexicalLisp.Text
