import LexicalLisp.Prompt.Verdict
import LexicalLisp.Proofs.Reading.Placement

/-!
# The verdict on an input and reading it

The verdict counts parentheses over the characters of a text, while the text is read by its
tokens, line by line. Both look for the same fault: characters that are no parentheses change
neither, and the tokens of the lines stand where the characters of the text do. So the verdict
says how reading ends, and the position of a stray parenthesis is the number of characters
before it.
-/

namespace LexicalLisp

open Token (fault? relocate)

namespace Text

/-- How many characters of a text stand before a byte offset. -/
def charsBefore (text : String) (offset : Nat) : Nat := (takeBytes offset text.toList).length

theorem takeBytes_append (before after : List Char) :
    takeBytes (byteLength before) (before ++ after) = before := by
  induction before with
  | nil =>
    cases after with
    | nil => rfl
    | cons c after => exact if_neg (Nat.not_le_of_gt c.utf8Size_pos)
  | cons c before ih => simp [takeBytes, ih]

theorem charsBefore_append {text : String} {before after : List Char}
    (h : text.toList = before ++ after) : charsBefore text (byteLength before) = before.length := by
  rw [charsBefore, h, takeBytes_append]

end Text

section Characters

variable {c : Char} {cs : List Char} {offset : Nat} {opened : List Span}

theorem fault?_join (ls : List Lexeme) :
    fault? opened ((Lexeme.join offset c ls).map (Lexeme.toToken 0)) =
      fault? opened (ls.map (Lexeme.toToken 0)) := by
  unfold Lexeme.join
  split
  · rfl
  · rename_i next rest
    split
    · rename_i hnext
      rw [List.map_cons, List.map_cons, Token.fault?_atom rfl, Token.fault?_atom hnext.1]
    · rw [List.map_cons, Token.fault?_atom rfl]

theorem fault?_scan_other (hopen : c ≠ '(') (hclose : c ≠ ')') :
    fault? opened ((Lexeme.scan offset (c :: cs)).map (Lexeme.toToken 0)) =
      fault? opened ((Lexeme.scan (offset + c.utf8Size) cs).map (Lexeme.toToken 0)) := by
  rcases Lexeme.char_cases c with hblank | hc | hc | hatom
  · rw [Lexeme.scan_blank hblank]
  · exact absurd hc hopen
  · exact absurd hc hclose
  · rw [Lexeme.scan_atomChar hatom, fault?_join]

end Characters

namespace Verdict

/-- The verdict that goes with the error that reading a text ends with. -/
def ofError? (text : String) : Option ReadError → Verdict
  | none => valid
  | some (.unclosed _) => incomplete
  | some (.unexpectedClose paren) => invalid (Text.charsBefore text (paren.range text).1)

theorem ofError?_relocate (text : String) (err : Option ReadError) :
    ofError? text (err.map (ReadError.relocate (Span.inText text))) = ofError? text err := by
  have hrange : ∀ s : Span, (s.inText text).range text = s.range text := by
    intro s
    simp [Span.inText, Span.range, Span.lineOffset]
  match err with
  | none => rfl
  | some (.unclosed paren) => rfl
  | some (.unexpectedClose paren) => simp [ReadError.relocate, ofError?, hrange]

/-- The characters after some others get the verdict that the fault of their tokens leads to. -/
theorem scan_eq {text : String} (opened : List Span) (before cs : List Char)
    (htext : text.toList = before ++ cs) :
    scan opened.length before.length cs =
      ofError? text (fault? opened
        ((Lexeme.scan (Text.byteLength before) cs).map (Lexeme.toToken 0))) := by
  -- As the characters are counted, those before them give the position as well as the offset.
  induction cs generalizing before opened with
  | nil => cases opened <;> rfl
  | cons c cs ih =>
    have hnext : text.toList = before ++ [c] ++ cs := by rw [htext]; simp
    have hlength : before.length + 1 = (before ++ [c]).length := by simp
    have hoffset : Text.byteLength before + c.utf8Size = Text.byteLength (before ++ [c]) := by simp
    unfold scan
    split
    · rename_i hopen
      subst hopen
      have hsize : Text.byteLength before + 1 = Text.byteLength (before ++ ['(']) := hoffset
      rw [Lexeme.scan_opening, List.map_cons, Token.fault?_opening rfl, hlength, hsize,
        ← ih _ _ hnext, List.length_cons]
    · split
      · rename_i hclose
        subst hclose
        rw [Lexeme.scan_closing, List.map_cons]
        cases opened with
        | nil =>
          rw [Token.fault?_closing_nil rfl]
          simp [ofError?, Span.range, Span.lineOffset, Lexeme.toToken,
            Text.charsBefore_append htext]
        | cons paren outer =>
          have hsize : Text.byteLength before + 1 = Text.byteLength (before ++ [')']) := hoffset
          rw [Token.fault?_closing rfl, hsize, ← ih _ _ hnext, ← hlength]
          rfl
      · rename_i hopen hclose
        rw [fault?_scan_other hopen hclose, hlength, hoffset, ih _ _ hnext]

theorem of_eq (text : String) :
    Verdict.of text = ofError? text (ReadError.ofResult? (parse text)) := by
  have hscan : Verdict.of text = ofError? text (fault? [] (Token.ofLine 0 text)) :=
    scan_eq [] [] text.toList rfl
  have hfault := fault?_relocate (f := Span.inText text) [] (Token.ofLines 0 (Text.lines text))
  have hparse : ReadError.ofResult? (parse text) = fault? [] (Token.ofLines 0 (Text.lines text)) :=
    ofResult?_parseFrom [] _
  rw [List.map_nil, Token.relocate_ofText] at hfault
  rw [hparse, ← ofError?_relocate, ← hfault, hscan]

theorem of_eq_valid_iff {text : String} : Verdict.of text = .valid ↔ ∃ es, parse text = .ok es := by
  rw [of_eq]
  cases parse text with
  | ok es => simp [ReadError.ofResult?, ofError?]
  | error err => cases err <;> simp [ReadError.ofResult?, ofError?]

end Verdict

/-- The verdict on a text says how reading the text ends: it is valid exactly if the text can
be read, incomplete exactly if a parenthesis is never closed, and invalid exactly if one closes
nothing. In the last case the position is the number of characters before the range of that
parenthesis. -/
theorem verdict_agrees_with_reader (text : String) :
    (Verdict.of text = .valid ↔ ∃ es, parse text = .ok es) ∧
    (Verdict.of text = .incomplete ↔ ∃ paren, parse text = .error (.unclosed paren)) ∧
    ∀ position, Verdict.of text = .invalid position ↔
      ∃ paren, parse text = .error (.unexpectedClose paren) ∧
        position = Text.charsBefore text (paren.range text).1 := by
  rw [Verdict.of_eq]
  cases h : parse text with
  | ok es => simp [ReadError.ofResult?, Verdict.ofError?]
  | error err =>
    cases err with
    | unclosed paren => simp [ReadError.ofResult?, Verdict.ofError?]
    | unexpectedClose paren => simp [ReadError.ofResult?, Verdict.ofError?, eq_comm]

/-- The line break and the two bytes of a letter count as they do in the text. -/
example : ReadError.ofResult? (parse "é\r\n)") = some (.unexpectedClose ⟨1, 0, 1⟩) ∧
    (⟨1, 0, 1⟩ : Span).range "é\r\n)" = (4, 5) ∧ Verdict.of "é\r\n)" = .invalid 3 := by
  decide +kernel

end LexicalLisp
