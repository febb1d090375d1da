import LexicalLisp.Proofs.Reading.Placement
import LexicalLisp.Proofs.Reading.Tree
import LexicalLisp.Proofs.Text.Piece

/-!
# Texts one below the other

A text below another one has the same tokens there as alone, as many lines further down as the
upper text has, and the upper text has the tokens that it has alone. So if the upper text can be
read, reading both gives its expressions and then what reading the lower text gives; a fault of
the lower text is the same one further down.
-/

namespace LexicalLisp

open Text (pieces dropLineBreak lines isTokenBlank)

namespace Text

/-- A line feed at the end of a text goes into the last piece, or is a piece of its own after
pieces that are ended already. -/
theorem pieces_lineFeed_cases (cs : List Char) :
    pieces (cs ++ ['\n']) = pieces cs ++ [['\n']] ∨
      ∃ before last, pieces cs = before ++ [last] ∧
        pieces (cs ++ ['\n']) = before ++ [last ++ ['\n']] := by
  induction cs with
  | nil => exact .inl rfl
  | cons c cs ih =>
    rw [List.cons_append, pieces, pieces]
    by_cases hc : c = '\n'
    · rw [if_pos hc, if_pos hc]
      rcases ih with hown | ⟨before, last, hcs, hlast⟩
      · exact .inl (by rw [hown]; rfl)
      · exact .inr ⟨[c] :: before, last, by rw [hcs]; rfl, by rw [hlast]; rfl⟩
    · rw [if_neg hc, if_neg hc]
      rcases ih with hown | ⟨before, last, hcs, hlast⟩
      · rw [hown]
        cases pieces cs with
        | nil => exact .inr ⟨[], [c], rfl, rfl⟩
        | cons piece rest => exact .inl rfl
      · rw [hcs, hlast]
        cases before with
        | nil => exact .inr ⟨[], c :: last, rfl, rfl⟩
        | cons piece before => exact .inr ⟨(c :: piece) :: before, last, rfl, rfl⟩

end Text

def Span.below (n : Nat) (s : Span) : Span := { s with line := n + s.line }

namespace Token

theorem ofLines_append (number : Nat) (upper lower : List String) :
    ofLines number (upper ++ lower) =
      ofLines number upper ++ ofLines (number + upper.length) lower := by
  induction upper generalizing number with
  | nil => rfl
  | cons line upper ih =>
    have hnumber : number + 1 + upper.length = number + (upper.length + 1) := by omega
    rw [List.cons_append, ofLines, ih, ofLines, List.length_cons, hnumber, List.append_assoc]

theorem ofLines_below (n number : Nat) (lines : List String) :
    ofLines (n + number) lines = (ofLines number lines).map (relocate (Span.below n)) := by
  induction lines generalizing number with
  | nil => rfl
  | cons line rest ih =>
    have hline : ofLine (n + number) line = (ofLine number line).map (relocate (Span.below n)) := by
      unfold ofLine
      rw [List.map_map]
      rfl
    rw [ofLines, ofLines, List.map_append, ← ih, hline, Nat.add_assoc]

theorem ofLine_piece (number : Nat) (piece : List Char) :
    ofLine number (String.ofList (dropLineBreak piece)) =
      (Lexeme.scan 0 piece).map (Lexeme.toToken number) := by
  unfold ofLine
  rw [String.toList_ofList, Lexeme.scan_dropLineBreak]

theorem ofLines_lineFeed (number : Nat) (text : String) :
    ofLines number (lines (text ++ "\n")) = ofLines number (lines text) := by
  have hblank : ∀ c ∈ ['\n'], isTokenBlank c := by simp [isTokenBlank]
  have htext : (text ++ "\n").toList = text.toList ++ ['\n'] := String.toList_append
  unfold lines
  rw [htext]
  rcases Text.pieces_lineFeed_cases text.toList with hown | ⟨before, last, hcs, hlast⟩
  · rw [hown, List.map_append, ofLines_append]
    exact List.append_nil _
  · have hscan : Lexeme.scan 0 (last ++ ['\n']) = Lexeme.scan 0 last := by
      have happend := Lexeme.scan_append_blanks hblank (by simp) 0 last []
      simpa [Lexeme.scan] using happend
    rw [hcs, hlast, List.map_append, List.map_append, ofLines_append, ofLines_append]
    simp only [List.map_singleton, ofLines, ofLine_piece, hscan]

theorem ofLines_concat (a b : String) :
    ofLines 0 (lines (a ++ "\n" ++ b)) = ofLines 0 (lines a) ++
      (ofLines 0 (lines b)).map (relocate (Span.below (a.toList.count '\n' + 1))) := by
  have htext : (a ++ "\n" ++ b).toList = a.toList ++ '\n' :: b.toList := by simp
  have hlines : lines (a ++ "\n" ++ b) = lines (a ++ "\n") ++ lines b := by
    unfold lines
    rw [htext, Text.pieces_append_lineFeed, List.map_append]
    simp
  have hlength : (lines (a ++ "\n")).length = a.toList.count '\n' + 1 := by
    unfold lines
    simp [Text.length_pieces_lineFeed]
  rw [hlines, ofLines_append, ofLines_lineFeed, hlength, Nat.zero_add, ← ofLines_below,
    Nat.add_zero]

end Token

section Relocation

variable {f : Span → Span}

def OpenForm.relocate (f : Span → Span) (form : OpenForm) : OpenForm :=
  { form with paren := f form.paren }

def Progress.relocate (f : Span → Span) : Progress → Progress
  | within nesting => within (nesting.map (OpenForm.relocate f))
  | complete e => complete e
  | stray paren => stray (f paren)

theorem place_relocate (e : Expr) (nesting : Nesting) :
    Nesting.place e (nesting.map (OpenForm.relocate f)) = (nesting.place e).relocate f := by
  cases nesting <;> rfl

theorem advance_relocate (nesting : Nesting) (token : Token) :
    Nesting.advance (nesting.map (OpenForm.relocate f)) (token.relocate f) =
      (nesting.advance token).relocate f := by
  have hkind' : (token.relocate f).kind = token.kind := rfl
  cases hkind : token.kind with
  | opening =>
    rw [hkind] at hkind'
    rw [Nesting.advance_opening hkind, Nesting.advance_opening hkind']
    rfl
  | closing =>
    rw [hkind] at hkind'
    cases nesting with
    | nil =>
      rw [Nesting.advance_closing_nil hkind]
      exact Nesting.advance_closing_nil hkind'
    | cons form outer =>
      rw [List.map_cons, Nesting.advance_closing hkind, Nesting.advance_closing hkind']
      exact place_relocate _ outer
  | atom =>
    rw [hkind] at hkind'
    rw [Nesting.advance_atom hkind, Nesting.advance_atom hkind']
    exact place_relocate _ nesting

/-- Where the tokens stand matters only for the place that an error is about. -/
theorem parseFrom_relocate (nesting : Nesting) (tokens : List Token) :
    parseFrom (nesting.map (OpenForm.relocate f)) (tokens.map (Token.relocate f)) =
      (parseFrom nesting tokens).mapError (ReadError.relocate f) := by
  induction tokens generalizing nesting with
  | nil => cases nesting <;> rfl
  | cons token tokens ih =>
    rw [List.map_cons, parseFrom_cons, parseFrom_cons, advance_relocate]
    cases nesting.advance token with
    | within nesting' => exact ih nesting'
    | complete e =>
      have hlater := ih []
      rw [List.map_nil] at hlater
      rw [Progress.relocate, Progress.resume, Progress.resume, hlater]
      cases parseFrom [] tokens <;> rfl
    | stray paren => rfl

end Relocation

/-- After tokens that can be read, reading goes on as from the beginning. -/
theorem parseTokens_append {ts : List Token} {es : List Expr} (h : parseTokens ts = .ok es)
    (us : List Token) : parseTokens (ts ++ us) = (parseTokens us).map (es ++ ·) := by
  obtain ⟨forest, rfl, rfl⟩ := Tree.exists_forest_of_parseTokens h
  unfold parseTokens
  clear h
  induction forest with
  | nil => cases hus : parseFrom [] us <;> simp [Tree.flatten, Tree.exprs, hus, Except.map]
  | cons tree forest ih =>
    rw [Tree.flatten_cons, List.append_assoc, Tree.parseFrom_tokens, Nesting.place_nil,
      Progress.resume, ih]
    cases parseFrom [] us <;> rfl

theorem parse_concat {a : String} {es : List Expr} (h : parse a = .ok es) (b : String) :
    parse (a ++ "\n" ++ b) = ((parse b).mapError
      (ReadError.relocate (Span.below (a.toList.count '\n' + 1)))).map (es ++ ·) := by
  have hlower := parseFrom_relocate (f := Span.below (a.toList.count '\n' + 1)) []
    (Token.ofLines 0 (lines b))
  unfold parse parseLines at h ⊢
  rw [Token.ofLines_concat, parseTokens_append h]
  exact congrArg (Except.map (es ++ ·)) hlower

end LexicalLisp
