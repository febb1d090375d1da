import LexicalLisp.Diagnosis
import LexicalLisp.Proofs.Reading.Concatenation
import LexicalLisp.Proofs.Reading.Pairing

/-!
# Where a reading error is reported

The span of a reading error counts bytes in one line, but the place that is reported for it is
found anew from the range of the span, which counts bytes from the beginning of the text. The way
back goes through the lines that the reporter finds for itself. All it has to know of them is that
a line begins at the beginning of the text and behind each line feed, and that characters are
counted from there: then the line is the one that the span names and the column is one more than
the number of characters before the span in that line, whatever line breaks come before and however
many bytes the characters take.
-/

namespace LexicalLisp

open Text (byteLength lines pieces dropLineBreak takeBytes lastLine)

namespace Text

/-- The places in a text are found as expected of a reporter: lines end with a line feed, or with a
carriage return and a line feed, and columns count characters from the beginning of the line.
Nothing is expected for the characters of a line break, nor for other texts. -/
def CountsPlaces (text : String) (locate : Nat → Place) : Prop :=
  ∀ (earlier line : List Char) (c : Char) (after : List Char),
    text.toList = earlier ++ line ++ c :: after → WholeLines earlier → '\n' ∉ line →
    c ≠ '\n' → c ≠ '\r' →
    locate (byteLength (earlier ++ line)) = ⟨earlier.count '\n' + 1, line.length + 1⟩

section Places

variable {line : List Char}

theorem placeFrom_zero (place : Place) (after : List Char) : placeFrom 0 place after = place := by
  cases after with
  | nil => rfl
  | cons c after => exact if_pos rfl

theorem placeFrom_cons (c : Char) (offset : Nat) (place : Place) (after : List Char) :
    placeFrom (c.utf8Size + offset) place (c :: after) =
      placeFrom offset (if c = '\n' then ⟨place.line + 1, 1⟩ else ⟨place.line, place.column + 1⟩)
        after := by
  have hsize := c.utf8Size_pos
  rw [placeFrom, if_neg (by omega), Nat.add_sub_cancel_left]

theorem placeFrom_line (hline : '\n' ∉ line) (place : Place) (after : List Char) :
    placeFrom (byteLength line) place (line ++ after) =
      ⟨place.line, place.column + line.length⟩ := by
  induction line generalizing place with
  | nil => exact placeFrom_zero place after
  | cons c line ih =>
    have hc : c ≠ '\n' := Ne.symm (List.ne_of_not_mem_cons hline)
    rw [List.cons_append, byteLength_cons, placeFrom_cons, if_neg hc,
      ih (List.not_mem_of_not_mem_cons hline), List.length_cons, Nat.add_assoc, Nat.add_comm 1]

theorem placeFrom_lineFeed (ds : List Char) (offset : Nat) (place : Place) (after : List Char) :
    placeFrom (byteLength (ds ++ ['\n']) + offset) place (ds ++ ['\n'] ++ after) =
      placeFrom offset ⟨place.line + (ds ++ ['\n']).count '\n', 1⟩ after := by
  induction ds generalizing place with
  | nil => exact placeFrom_cons '\n' offset place after
  | cons d ds ih =>
    simp only [List.cons_append, byteLength_cons, Nat.add_assoc, placeFrom_cons] at ih ⊢
    rw [ih]
    by_cases hd : d = '\n'
    · simp only [hd, if_true, List.count_cons_self]
      congr 2
      omega
    · simp only [hd, if_false, List.count_cons_of_ne hd]

theorem countsPlaces_placeOf (text : String) : CountsPlaces text (placeOf text) := by
  intro earlier line c after htext hearlier hline _ _
  have hcount : placeOf text (byteLength (earlier ++ line)) =
      placeFrom (byteLength line) ⟨1 + earlier.count '\n', 1⟩ (line ++ c :: after) := by
    rw [placeOf, htext, List.append_assoc, byteLength_append]
    rcases hearlier with rfl | ⟨ds, rfl⟩
    · simp
    · exact placeFrom_lineFeed ds _ _ _
  rw [hcount, placeFrom_line hline, Nat.add_comm 1, Nat.add_comm 1]

end Places

section Line

variable {text : String} {c : Char} {before after : List Char}

theorem getElem?_pieces {earlier : List Char} (h : WholeLines earlier) (cs : List Char) :
    (pieces (earlier ++ cs))[earlier.count '\n']? = (pieces cs)[0]? := by
  rw [h.pieces_append, ← h.length_pieces, List.getElem?_append_right (Nat.le_refl _), Nat.sub_self]

theorem exists_pieces_line {line : List Char} (hline : '\n' ∉ line) (hc : c ≠ '\n')
    (after : List Char) :
    ∃ rest later, pieces (line ++ c :: after) = (line ++ c :: rest) :: later := by
  induction line with
  | nil =>
    rw [List.nil_append, pieces, if_neg hc]
    cases pieces after with
    | nil => exact ⟨[], [], rfl⟩
    | cons piece later => exact ⟨piece, later, rfl⟩
  | cons d line ih =>
    obtain ⟨rest, later, hpieces⟩ := ih (List.not_mem_of_not_mem_cons hline)
    have hd : d ≠ '\n' := Ne.symm (List.ne_of_not_mem_cons hline)
    rw [List.cons_append, pieces, if_neg hd, hpieces]
    exact ⟨rest, later, rfl⟩

/-- A line break is taken off behind every character that is not part of one. -/
theorem exists_dropLineBreak_line (line : List Char) (hc : c ≠ '\n') (hc' : c ≠ '\r')
    (after : List Char) : ∃ rest, dropLineBreak (line ++ c :: after) = line ++ c :: rest := by
  induction line with
  | nil =>
    refine ⟨dropLineBreak after, ?_⟩
    rw [List.nil_append, dropLineBreak]
    · rfl
    · exact fun h => absurd h hc
    · exact fun h => absurd h hc'
  | cons d line ih =>
    obtain ⟨rest, hrest⟩ := ih
    refine ⟨rest, ?_⟩
    rw [List.cons_append, dropLineBreak, hrest]
    · rfl
    -- What follows is no end of a line break, for the given character is still to come.
    · rintro - h
      simp at h
    · rintro - h
      cases line with
      | nil => exact hc (List.cons_eq_cons.mp h).1
      | cons e line => simp at h

theorem exists_line (h : text.toList = before ++ c :: after) (hc : c ≠ '\n') (hc' : c ≠ '\r') :
    ∃ line rest, (lines text)[before.count '\n']? = some line ∧
      line.toList = lastLine before ++ c :: rest := by
  obtain ⟨earlier, hbefore, hearlier, hline, hcount⟩ := exists_lastLine before
  obtain ⟨rest, later, hpieces⟩ := exists_pieces_line hline hc after
  obtain ⟨rest', hbreak⟩ := exists_dropLineBreak_line (lastLine before) hc hc' rest
  refine ⟨String.ofList (lastLine before ++ c :: rest'), rest', ?_, String.toList_ofList⟩
  have htext : text.toList = earlier ++ (lastLine before ++ c :: after) := by
    rw [← List.append_assoc, ← hbefore, h]
  rw [lines, List.getElem?_map, htext, hcount, getElem?_pieces hearlier, hpieces,
    List.getElem?_cons_zero, Option.map_some, hbreak]

theorem CountsPlaces.eq_behind {locate : Nat → Place} (hlocate : CountsPlaces text locate)
    (h : text.toList = before ++ c :: after) (hc : c ≠ '\n') (hc' : c ≠ '\r') :
    locate (byteLength before) = ⟨before.count '\n' + 1, (lastLine before).length + 1⟩ := by
  obtain ⟨earlier, hbefore, hearlier, hline, hcount⟩ := exists_lastLine before
  have hplace := hlocate earlier (lastLine before) c after (hbefore ▸ h) hearlier hline hc hc'
  rw [← hbefore] at hplace
  rw [hplace, hcount]

end Line

end Text

theorem exists_parenthesis_of_parse_eq_error {text : String} {err : ReadError}
    (h : parse text = .error err) : ∃ before paren after, text.toList = before ++ paren :: after ∧
      (paren = '(' ∨ paren = ')') ∧ err.span = Span.behind before 1 := by
  cases err with
  | unexpectedClose paren =>
    obtain ⟨before, after, htext, -, -, hspan⟩ := parse_eq_unexpectedClose_iff.mp h
    exact ⟨before, ')', after, htext, .inr rfl, hspan⟩
  | unclosed paren =>
    obtain ⟨-, before, after, htext, -, -, hspan⟩ := parse_eq_unclosed_iff.mp h
    exact ⟨before, '(', after, htext, .inl rfl, hspan⟩

theorem ReadError.exists_message_eq (err : ReadError) : ∃ complaint,
    err.message = "Syntax Error [" ++ err.span.describe ++ "]: " ++ complaint := by
  have hsplit {opening mark complaint rest : String} (h : rest = mark ++ complaint) :
      opening ++ rest = opening ++ mark ++ complaint := by rw [h, String.append_assoc]
  cases err with
  | unexpectedClose paren => exact ⟨"Unexpected \")\"", hsplit rfl⟩
  | unclosed paren => exact ⟨"Unexpected end of input, \"(\" is never closed", hsplit rfl⟩

/-- If a text cannot be read, the error is reported at the line that its span names and its
message shows. The column is one more than the number of characters before the span in this line,
and a parenthesis stands there. Whoever counts the places in this text as expected finds the same
line and column at the beginning of the range of the span. -/
theorem report_location_agrees_with_span {text : String} {err : ReadError}
    (h : parse text = .error err) :
    ∃ line inLine paren rest, (lines text)[err.span.line]? = some line ∧
      line.toList = inLine ++ paren :: rest ∧ (paren = '(' ∨ paren = ')') ∧
      takeBytes err.span.start line.toList = inLine ∧ byteLength inLine = err.span.start ∧
      (∀ locate, Text.CountsPlaces text locate →
        locate (err.span.range text).1 = ⟨err.span.line + 1, inLine.length + 1⟩) ∧
      (RunError.read err).place text = ⟨err.span.line + 1, inLine.length + 1⟩ ∧
      (∀ textName, ((RunError.read err).diagnose textName text).location =
        textName ++ ":" ++ toString (err.span.line + 1) ++ ":" ++ toString (inLine.length + 1)) ∧
      ∃ complaint, err.message = "Syntax Error [line " ++ toString (err.span.line + 1) ++
        ", column " ++ toString (err.span.start + 1) ++ "]: " ++ complaint := by
  obtain ⟨before, paren, after, htext, hparen, hspan⟩ := exists_parenthesis_of_parse_eq_error h
  have hfeed : paren ≠ '\n' := by rcases hparen with rfl | rfl <;> decide
  have hreturn : paren ≠ '\r' := by rcases hparen with rfl | rfl <;> decide
  obtain ⟨line, rest, hline, hchars⟩ := Text.exists_line htext hfeed hreturn
  have hrange : (err.span.range text).1 = byteLength before := by
    rw [hspan, Span.range_behind htext]
  have hplaces : ∀ locate, Text.CountsPlaces text locate →
      locate (err.span.range text).1 = ⟨err.span.line + 1, (lastLine before).length + 1⟩ := by
    intro locate hlocate
    rw [hrange, hlocate.eq_behind htext hfeed hreturn, hspan]
    rfl
  have hplace : (RunError.read err).place text =
      ⟨err.span.line + 1, (lastLine before).length + 1⟩ :=
    hplaces (Text.placeOf text) (Text.countsPlaces_placeOf text)
  have hstart : byteLength (lastLine before) = err.span.start := by rw [hspan]; rfl
  obtain ⟨complaint, hmessage⟩ := err.exists_message_eq
  refine ⟨line, lastLine before, paren, rest, ?_, hchars, hparen, ?_, hstart, hplaces, hplace, ?_,
    complaint, ?_⟩
  · rw [hspan]
    exact hline
  · rw [hchars, ← hstart, Text.takeBytes_append]
  · intro textName
    simp only [RunError.diagnose, hplace]
  · have hopening : "Syntax Error [line " = "Syntax Error [" ++ "line " := rfl
    rw [hmessage, Span.describe, hopening]
    simp only [String.append_assoc]

/-- The line break before the parenthesis at fault takes two bytes, as does the letter before it in
its line. -/
theorem report_location_behind_wide_text :
    parse "(é\r\nλ(a ()" = .error (.unclosed ⟨1, 2, 3⟩) ∧
      (RunError.read (.unclosed ⟨1, 2, 3⟩)).place "(é\r\nλ(a ()" = ⟨2, 2⟩ ∧
      ((RunError.read (.unclosed ⟨1, 2, 3⟩)).diagnose "stdin" "(é\r\nλ(a ()").location =
        "stdin:2:2" := by
  have hparse : parse "(é\r\nλ(a ()" = .error (.unclosed ⟨1, 2, 3⟩) :=
    parse_eq_error (by decide +kernel)
  obtain ⟨line, inLine, _, _, hline, -, -, hbefore, -, -, hplace, hlocation, -⟩ :=
    report_location_agrees_with_span hparse
  obtain rfl : "λ(a ()" = line := Option.some.inj hline
  obtain rfl : ['λ'] = inLine := hbefore
  exact ⟨hparse, hplace, hlocation "stdin"⟩

end LexicalLisp
