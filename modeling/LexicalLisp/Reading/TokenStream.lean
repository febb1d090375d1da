import LexicalLisp.Reading.Token

/-!
# Tokens on demand

A token stream takes a line from its source only when a token is wanted and
none is pending, and it counts the lines it has taken. Seen as a list it holds
the pending tokens and those of the lines not yet taken.
-/

namespace LexicalLisp

structure TokenStream where
  /-- Tokens of the current line that nobody has asked for yet. -/
  pending : List Token
  /-- Lines that have not been taken from the source. -/
  unread : List String
  /-- How many lines have been taken, which is also the number of the next one. -/
  taken : Nat
  deriving DecidableEq, Repr

namespace TokenStream

def ofLines (lines : List String) : TokenStream := ⟨[], lines, 0⟩

def toList (s : TokenStream) : List Token := s.pending ++ Token.ofLines s.taken s.unread

/-- Takes lines until one of them has a token. -/
def advanceLine (taken : Nat) : List String → Option Token × TokenStream
  | [] => (none, ⟨[], [], taken⟩)
  | line :: rest =>
    match Token.ofLine taken line with
    | [] => advanceLine (taken + 1) rest
    | token :: pending => (some token, ⟨pending, rest, taken + 1⟩)

/-- The next token, if any, and the stream after it. -/
def next (s : TokenStream) : Option Token × TokenStream :=
  match s.pending with
  | token :: pending => (some token, { s with pending })
  | [] => advanceLine s.taken s.unread

theorem ofLines_of_advanceLine {taken : Nat} {lines : List String} {r : Option Token}
    {s : TokenStream} (h : advanceLine taken lines = (r, s)) :
    Token.ofLines taken lines = r.toList ++ s.toList ∧ (r = none → s.toList = []) := by
  fun_induction advanceLine taken lines with
  | case1 taken => cases h; simp [Token.ofLines, toList]
  | case2 taken line rest hline ih => simpa [Token.ofLines, hline] using ih h
  | case3 taken line rest token pending hline => cases h; simp [Token.ofLines, hline, toList]

theorem toList_of_next_some {s s' : TokenStream} {token : Token}
    (h : s.next = (some token, s')) : s.toList = token :: s'.toList := by
  unfold next at h
  split at h
  · rename_i hp
    cases h
    simp [toList, hp]
  · rename_i hp
    simpa [toList, hp] using (ofLines_of_advanceLine h).1

/-- No token is to be had exactly from a stream without tokens, and none follows. -/
theorem toList_of_next_none {s s' : TokenStream} (h : s.next = (none, s')) :
    s.toList = [] ∧ s'.toList = [] := by
  unfold next at h
  split at h
  · cases h
  · rename_i hp
    have hs := ofLines_of_advanceLine h
    have hnil := hs.2 rfl
    rw [hnil] at hs
    exact ⟨by simpa [toList, hp] using hs.1, hnil⟩

/-- At most `n` tokens and the stream after them. A stream at its end is asked once more,
which takes the lines that are left. -/
def take : Nat → TokenStream → List Token × TokenStream
  | 0, s => ([], s)
  | n + 1, s =>
    match s.next with
    | (none, s') => ([], s')
    | (some token, s') =>
      let (tokens, s'') := take n s'
      (token :: tokens, s'')

/-- All tokens, and the stream at its end. -/
def drain (s : TokenStream) : List Token × TokenStream := s.take (s.toList.length + 1)

end TokenStream
end LexicalLisp
