import LexicalLisp.Proofs.Reading.Fault

/-!
# Where tokens stand in a text

A text is read line by line, and a span counts bytes from the beginning of its line. Had the
text been one line it would have had the same tokens, each at the range that its span stands
for: the characters that are left off at the ends of lines are blank, so that no token goes on
across them, and the pieces of which offsets are made keep them.
-/

namespace LexicalLisp

open Text (byteLength pieces dropLineBreak isTokenBlank)

namespace Text

theorem ends_of_mem_pieces (cs : List Char) :
    ∀ piece ∈ (pieces cs).dropLast, ∃ ds, piece = ds ++ ['\n'] := by
  induction cs with
  | nil => simp [pieces]
  | cons c cs ih =>
    unfold pieces
    split
    · rename_i hc
      cases hpieces : pieces cs with
      | nil => simp
      | cons piece rest =>
        rw [List.dropLast_cons_cons, ← hpieces]
        exact List.forall_mem_cons.mpr ⟨⟨[], by rw [hc]; rfl⟩, ih⟩
    · cases hpieces : pieces cs with
      | nil => simp
      | cons piece rest =>
        rw [hpieces] at ih
        cases rest with
        | nil => simp
        | cons next rest =>
          obtain ⟨⟨ds, hds⟩, hrest⟩ := List.forall_mem_cons.mp ih
          exact List.forall_mem_cons.mpr ⟨⟨c :: ds, by rw [hds]; rfl⟩, hrest⟩

theorem exists_dropLineBreak (cs : List Char) :
    ∃ bs, cs = dropLineBreak cs ++ bs ∧ ∀ c ∈ bs, isTokenBlank c := by
  fun_induction dropLineBreak cs with
  | case1 => exact ⟨[], rfl, nofun⟩
  | case2 => exact ⟨['\n'], rfl, by simp [isTokenBlank]⟩
  | case3 => exact ⟨['\r', '\n'], rfl, by simp [isTokenBlank]⟩
  | case4 c cs _ _ ih =>
    obtain ⟨bs, hcs, hblank⟩ := ih
    exact ⟨bs, by rw [List.cons_append, ← hcs], hblank⟩

theorem eq_nil_of_byteLength_eq_zero {cs : List Char} (h : byteLength cs = 0) : cs = [] := by
  cases cs with
  | nil => rfl
  | cons c cs =>
    have hsize := c.utf8Size_pos
    rw [byteLength_cons] at h
    omega

theorem utf8ByteSize_ofList (cs : List Char) : (String.ofList cs).utf8ByteSize = byteLength cs := by
  induction cs with
  | nil => rfl
  | cons c cs ih =>
    rw [String.ofList_cons, String.utf8ByteSize_append, ih, String.utf8ByteSize_singleton,
      byteLength_cons]

theorem utf8ByteSize_eq (text : String) : text.utf8ByteSize = byteLength text.toList := by
  rw [← utf8ByteSize_ofList, String.ofList_toList]

end Text

namespace Lexeme

variable {offset : Nat} {cs : List Char}

theorem scan_dropLineBreak : scan offset (dropLineBreak cs) = scan offset cs := by
  obtain ⟨bs, hcs, hblank⟩ := Text.exists_dropLineBreak cs
  by_cases hne : bs = []
  · rw [hne, List.append_nil] at hcs
    rw [← hcs]
  · have happend := scan_append_blanks hblank hne offset (dropLineBreak cs) []
    rw [List.append_nil, ← hcs] at happend
    simpa [scan] using happend.symm

theorem scan_append_piece {piece : List Char} (h : ∃ ds, piece = ds ++ ['\n']) :
    scan offset (piece ++ cs) = scan offset piece ++ scan (offset + byteLength piece) cs := by
  obtain ⟨ds, rfl⟩ := h
  have hblank : ∀ c ∈ ['\n'], isTokenBlank c := by simp [isTokenBlank]
  have hpiece := scan_append_blanks hblank (by simp) offset ds []
  rw [List.append_nil, scan, List.append_nil] at hpiece
  rw [List.append_assoc, scan_append_blanks hblank (by simp), hpiece]

theorem exists_of_mem_scan : ∀ l ∈ scan offset cs,
    ∃ before after, cs = before ++ l.chars ++ after ∧ l.start = offset + byteLength before := by
  induction cs generalizing offset with
  | nil => exact nofun
  | cons c cs ih =>
    have hlater : ∀ l ∈ scan (offset + c.utf8Size) cs, ∃ before after,
        c :: cs = before ++ l.chars ++ after ∧ l.start = offset + byteLength before := by
      intro l hl
      obtain ⟨before, after, hcs, hstart⟩ := ih l hl
      refine ⟨c :: before, after, by rw [hcs]; rfl, ?_⟩
      rw [hstart, Text.byteLength_cons, Nat.add_assoc]
    rcases char_cases c with hblank | rfl | rfl | hc
    · rw [scan_blank hblank]
      exact hlater
    · rw [scan_opening]
      exact List.forall_mem_cons.mpr ⟨⟨[], cs, rfl, rfl⟩, hlater⟩
    · rw [scan_closing]
      exact List.forall_mem_cons.mpr ⟨⟨[], cs, rfl, rfl⟩, hlater⟩
    · rw [scan_atomChar hc]
      unfold join
      split
      · exact List.forall_mem_singleton.mpr ⟨[], cs, rfl, rfl⟩
      · rename_i next rest hscan
        rw [hscan] at hlater
        obtain ⟨hnext, hrest⟩ := List.forall_mem_cons.mp hlater
        split
        · rename_i hadjacent
          -- The atom that is joined stands right after the character.
          have hmem : next ∈ scan (offset + c.utf8Size) cs := by simp [hscan]
          obtain ⟨before, after, hcs, hstart⟩ := ih next hmem
          obtain rfl : before = [] := Text.eq_nil_of_byteLength_eq_zero (by omega)
          exact List.forall_mem_cons.mpr ⟨⟨[], after, by rw [hcs]; rfl, rfl⟩, hrest⟩
        · exact List.forall_mem_cons.mpr ⟨⟨[], cs, rfl, rfl⟩, hlater⟩

end Lexeme

/-- The range of a span in a text, as a span of the text taken as one line. -/
def Span.inText (text : String) (s : Span) : Span := ⟨0, (s.range text).1, (s.range text).2⟩

namespace Token

/-- The tokens of a line, moved by as many bytes as come before the line, are those of its
characters at their offset in the text. -/
theorem map_relocate_ofLine {f : Span → Span} {number offset : Nat} (piece : List Char)
    (hf : ∀ start stop, f ⟨number, start, stop⟩ = ⟨0, offset + start, offset + stop⟩) :
    (ofLine number (String.ofList (dropLineBreak piece))).map (relocate f) =
      (Lexeme.scan offset piece).map (Lexeme.toToken 0) := by
  have hshift : ∀ l : Lexeme, (l.toToken number).relocate f = (l.shift offset).toToken 0 := by
    intro l
    simp only [relocate, Lexeme.toToken, Lexeme.shift, Lexeme.stop, hf]
    rw [Nat.add_comm l.start offset, Nat.add_assoc]
  have hscan : Lexeme.scan offset piece = (Lexeme.scan 0 piece).map (Lexeme.shift offset) := by
    rw [← Lexeme.scan_shift, Nat.zero_add]
  unfold ofLine
  rw [List.map_map, String.toList_ofList, Lexeme.scan_dropLineBreak, hscan, List.map_map]
  apply List.map_congr_left
  intro l _
  exact hshift l

theorem map_relocate_ofLines {f : Span → Span} (before after : List (List Char))
    (hends : ∀ piece ∈ after.dropLast, ∃ ds, piece = ds ++ ['\n'])
    (hf : ∀ span, f span = ⟨0, byteLength ((before ++ after).take span.line).flatten + span.start,
      byteLength ((before ++ after).take span.line).flatten + span.stop⟩) :
    (ofLines before.length (after.map fun piece => String.ofList (dropLineBreak piece))).map
        (relocate f) =
      (Lexeme.scan (byteLength before.flatten) after.flatten).map (Lexeme.toToken 0) := by
  induction after generalizing before with
  | nil => rfl
  | cons piece after ih =>
    have hline : (ofLine before.length (String.ofList (dropLineBreak piece))).map (relocate f) =
        (Lexeme.scan (byteLength before.flatten) piece).map (Lexeme.toToken 0) := by
      apply map_relocate_ofLine
      intro start stop
      rw [hf, List.take_left]
    have hpieces : before ++ piece :: after = before ++ [piece] ++ after := by simp
    have hlength : (before ++ [piece]).length = before.length + 1 := by simp
    have hoffset : byteLength (before ++ [piece]).flatten =
        byteLength before.flatten + byteLength piece := by simp
    rw [hpieces] at hf
    rw [List.map_cons, ofLines, List.map_append, hline, List.flatten_cons, ← hlength]
    cases after with
    | nil => simp [ofLines]
    | cons next rest =>
      obtain ⟨hpiece, hrest⟩ := List.forall_mem_cons.mp hends
      rw [ih (before ++ [piece]) hrest hf, Lexeme.scan_append_piece hpiece, List.map_append,
        hoffset]

/-- The tokens of the lines of a text stand where they stand in the text taken as one line. -/
theorem relocate_ofText (text : String) :
    (ofLines 0 (Text.lines text)).map (relocate (Span.inText text)) = ofLine 0 text := by
  have h := map_relocate_ofLines (f := Span.inText text) [] (pieces text.toList)
    (Text.ends_of_mem_pieces text.toList) (fun _ => rfl)
  rw [Text.flatten_pieces] at h
  exact h

theorem shapes_ofText (text : String) :
    (ofLines 0 (Text.lines text)).map shape = Text.shapes text.toList := by
  have hplaced := congrArg (List.map shape) (relocate_ofText text)
  rw [List.map_map, shapes_ofLine] at hplaced
  exact hplaced

end Token

/-- The tokens of the lines of a text are those of the text taken as one line, and the spans
of the latter are the ranges of the former. So the range of a token lies in the text between
characters, and the text of the token stands there, whatever the line breaks are. -/
theorem lines_are_scanned_as_one_text (text : String) :
    ((Token.ofLines 0 (Text.lines text)).map fun t => (t.kind, t.text, t.span.range text)) =
      ((Token.ofLines 0 [text]).map fun t => (t.kind, t.text, t.span.start, t.span.stop)) ∧
    ∀ t ∈ Token.ofLines 0 (Text.lines text), ∃ before after : String,
      text = before ++ t.text ++ after ∧
        t.span.range text = (before.utf8ByteSize, (before ++ t.text).utf8ByteSize) := by
  constructor
  · rw [Token.ofLines, Token.ofLines, List.append_nil, ← Token.relocate_ofText, List.map_map]
    rfl
  · intro t ht
    have hmem := List.mem_map_of_mem (f := Token.relocate (Span.inText text)) ht
    rw [Token.relocate_ofText] at hmem
    obtain ⟨l, hl, htoken⟩ := List.mem_map.mp hmem
    obtain ⟨before, after, htext, hstart⟩ := Lexeme.exists_of_mem_scan l hl
    have hchars : String.ofList l.chars = t.text := congrArg Token.text htoken
    have hrange : (l.start, l.stop) = t.span.range text :=
      Prod.ext (congrArg (Span.start ∘ Token.span) htoken)
        (congrArg (Span.stop ∘ Token.span) htoken)
    refine ⟨String.ofList before, String.ofList after, ?_, ?_⟩
    · rw [← hchars, ← String.ofList_append, ← String.ofList_append, ← htext, String.ofList_toList]
    · rw [← hrange, ← hchars, ← String.ofList_append, Text.utf8ByteSize_ofList,
        Text.utf8ByteSize_ofList, Text.byteLength_append, Lexeme.stop, hstart, Nat.zero_add]

end LexicalLisp
