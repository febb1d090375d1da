import LexicalLisp.Proofs.Prompt.Verdict
import LexicalLisp.Proofs.Text.Piece

/-!
# Where tokens stand in the lines

A span names a line and bytes in that line, whereas the range of a span counts bytes from the
beginning of the text. What comes before a token determines both: the line feeds in it are as
many as the lines before that of the token, and the characters after the last of them are those
before the token in its line.
-/

namespace LexicalLisp

open Text (byteLength pieces dropLineBreak takeBytes)

namespace Text

def lastLine : List Char → List Char
  | [] => []
  | c :: cs => if '\n' ∈ c :: cs then lastLine cs else c :: cs

section LastLine

variable {c : Char} {cs : List Char}

theorem lastLine_of_mem (h : '\n' ∈ c :: cs) : lastLine (c :: cs) = lastLine cs := if_pos h

theorem lastLine_of_not_mem (h : '\n' ∉ cs) : lastLine cs = cs := by
  cases cs with
  | nil => rfl
  | cons c cs => exact if_neg h

theorem lastLine_append_lineFeed (cs ds : List Char) :
    lastLine (cs ++ '\n' :: ds) = lastLine ds := by
  induction cs with
  | nil => exact lastLine_of_mem List.mem_cons_self
  | cons c cs ih => rw [List.cons_append, lastLine_of_mem (by simp), ih]

theorem exists_lastLine (cs : List Char) : ∃ earlier,
    cs = earlier ++ lastLine cs ∧ WholeLines earlier ∧ '\n' ∉ lastLine cs ∧
      cs.count '\n' = earlier.count '\n' := by
  have hsplit : ∃ earlier, cs = earlier ++ lastLine cs ∧ WholeLines earlier ∧
      '\n' ∉ lastLine cs := by
    induction cs with
    | nil => exact ⟨[], rfl, .inl rfl, List.not_mem_nil⟩
    | cons c cs ih =>
      by_cases hmem : '\n' ∈ c :: cs
      · obtain ⟨earlier, hcs, hearlier, hline⟩ := ih
        rw [lastLine_of_mem hmem]
        refine ⟨c :: earlier, congrArg (c :: ·) hcs, .inr ?_, hline⟩
        rcases hearlier with rfl | ⟨ds, rfl⟩
        · -- The line feed is not in what follows, so it comes first.
          have hc : '\n' = c := (List.mem_cons.mp hmem).resolve_right (hcs ▸ hline)
          exact ⟨[], by rw [← hc]; rfl⟩
        · exact ⟨c :: ds, rfl⟩
      · rw [lastLine_of_not_mem hmem]
        exact ⟨[], rfl, .inl rfl, hmem⟩
  obtain ⟨earlier, hcs, hearlier, hline⟩ := hsplit
  refine ⟨earlier, hcs, hearlier, hline, ?_⟩
  calc cs.count '\n' = (earlier ++ lastLine cs).count '\n' := congrArg (List.count '\n') hcs
    _ = earlier.count '\n' := by rw [List.count_append, List.count_eq_zero.mpr hline]; rfl

/-- As many pieces as there are line feeds before a place make up all but the last line there. -/
theorem byteLength_take_pieces (before after : List Char) :
    byteLength ((pieces (before ++ after)).take (before.count '\n')).flatten +
      byteLength (lastLine before) = byteLength before := by
  obtain ⟨earlier, hbefore, hearlier, -, hcount⟩ := exists_lastLine before
  have hpieces :
      pieces (before ++ after) = pieces earlier ++ pieces (lastLine before ++ after) := by
    rw [← hearlier.pieces_append, ← List.append_assoc, ← hbefore]
  rw [hpieces, hcount, ← hearlier.length_pieces, List.take_left, flatten_pieces,
    ← byteLength_append, ← hbefore]

end LastLine

section Pieces

variable {cs piece : List Char}

theorem lineFeed_not_mem_dropLast (cs : List Char) :
    ∀ piece ∈ pieces cs, '\n' ∉ piece.dropLast := by
  induction cs with
  | nil => simp [pieces]
  | cons c cs ih =>
    unfold pieces
    split
    · exact List.forall_mem_cons.mpr ⟨by simp, ih⟩
    · rename_i hc
      cases hpieces : pieces cs with
      | nil => simp
      | cons piece rest =>
        rw [hpieces] at ih
        obtain ⟨hpiece, hrest⟩ := List.forall_mem_cons.mp ih
        refine List.forall_mem_cons.mpr ⟨?_, hrest⟩
        cases piece with
        | nil => simp
        | cons d ds =>
          rw [List.dropLast_cons_cons]
          exact List.not_mem_cons_of_ne_of_not_mem (Ne.symm hc) hpiece

theorem lineFeed_not_mem_dropLineBreak (h : '\n' ∉ piece.dropLast) :
    '\n' ∉ dropLineBreak piece := by
  fun_induction dropLineBreak piece with
  | case1 => exact List.not_mem_nil
  | case2 => exact List.not_mem_nil
  | case3 => exact List.not_mem_nil
  | case4 c cs hfeed _ ih =>
    cases cs with
    | nil =>
      have hc : '\n' ≠ c := fun hc => hfeed hc.symm rfl
      simpa [dropLineBreak] using hc
    | cons d ds =>
      rw [List.dropLast_cons_cons] at h
      exact List.not_mem_cons_of_ne_of_not_mem (List.ne_of_not_mem_cons h)
        (ih (List.not_mem_of_not_mem_cons h))

/-- The pieces before another one have as many line feeds, and no line goes on behind them. -/
theorem count_flatten_pieces {earlier later : List (List Char)}
    (h : pieces cs = earlier ++ piece :: later) {line : List Char} (hline : '\n' ∉ line) :
    (earlier.flatten ++ line).count '\n' = earlier.length ∧
      lastLine (earlier.flatten ++ line) = line := by
  have hends : ∀ p ∈ earlier, ∃ ds, p = ds ++ ['\n'] ∧ '\n' ∉ ds := by
    intro p hp
    obtain ⟨ds, rfl⟩ := ends_of_mem_pieces cs p (by rw [h]; simp [hp])
    have hfeed := lineFeed_not_mem_dropLast cs (ds ++ ['\n']) (by rw [h]; simp [hp])
    exact ⟨ds, rfl, by simpa using hfeed⟩
  clear h
  induction earlier with
  | nil => exact ⟨List.count_eq_zero.mpr hline, lastLine_of_not_mem hline⟩
  | cons p earlier ih =>
    obtain ⟨⟨ds, rfl, hds⟩, hearlier⟩ := List.forall_mem_cons.mp hends
    obtain ⟨hcount, hlast⟩ := ih hearlier
    have hflatten : ((ds ++ ['\n']) :: earlier).flatten ++ line =
        ds ++ '\n' :: (earlier.flatten ++ line) := by simp
    rw [hflatten]
    constructor
    · rw [List.count_append, List.count_eq_zero.mpr hds, List.count_cons_self, hcount,
        List.length_cons, Nat.zero_add]
    · rw [lastLine_append_lineFeed, hlast]

end Pieces

end Text

namespace Span

/-- The span of something of the given width that stands right behind some characters. -/
def behind (before : List Char) (width : Nat) : Span :=
  ⟨before.count '\n', byteLength (Text.lastLine before),
    byteLength (Text.lastLine before) + width⟩

theorem range_behind {text : String} {before after : List Char}
    (h : text.toList = before ++ after) (width : Nat) :
    (behind before width).range text = (byteLength before, byteLength before + width) := by
  have hoffset := Text.byteLength_take_pieces before after
  rw [← h] at hoffset
  simp only [behind, range, lineOffset, ← hoffset, Nat.add_assoc]

/-- The span in its line of a span in the text taken as one line. -/
def inLines (text : String) (s : Span) : Span :=
  behind (takeBytes s.start text.toList) (s.stop - s.start)

theorem inLines_eq {text : String} {before after : List Char}
    (h : text.toList = before ++ after) (width : Nat) :
    inLines text ⟨0, byteLength before, byteLength before + width⟩ = behind before width := by
  rw [inLines, h, Text.takeBytes_append, Nat.add_sub_cancel_left]

end Span

namespace Token

theorem exists_of_mem_ofLines {number : Nat} {lines : List String} {t : Token}
    (h : t ∈ ofLines number lines) : ∃ earlier line later,
      lines = earlier ++ line :: later ∧ t ∈ ofLine (number + earlier.length) line := by
  induction lines generalizing number with
  | nil => cases h
  | cons line lines ih =>
    rcases List.mem_append.mp h with h | h
    · exact ⟨[], line, lines, rfl, h⟩
    · obtain ⟨earlier, line', later, rfl, ht⟩ := ih h
      refine ⟨line :: earlier, line', later, rfl, ?_⟩
      rwa [List.length_cons, ← Nat.add_assoc, Nat.add_right_comm]

theorem exists_span_eq_behind {text : String} {t : Token} (h : t ∈ ofLines 0 (Text.lines text)) :
    ∃ before after, text.toList = before ++ t.text.toList ++ after ∧
      t.span = Span.behind before (byteLength t.text.toList) := by
  obtain ⟨_, _, _, hlines, ht⟩ := exists_of_mem_ofLines h
  obtain ⟨earlier, rest, hpieces, rfl, hrest⟩ := List.map_eq_append_iff.mp hlines
  obtain ⟨piece, later, rfl, rfl, -⟩ := List.map_eq_cons_iff.mp hrest
  obtain ⟨l, hl, rfl⟩ := List.mem_map.mp ht
  rw [String.toList_ofList] at hl
  obtain ⟨inLine, afterInLine, hline, hstart⟩ := Lexeme.exists_of_mem_scan l hl
  obtain ⟨lineBreak, hpiece, -⟩ := Text.exists_dropLineBreak piece
  have hfeed : '\n' ∉ inLine := by
    intro hmem
    apply Text.lineFeed_not_mem_dropLineBreak
      (Text.lineFeed_not_mem_dropLast text.toList piece (by simp [hpieces]))
    simp [hline, hmem]
  obtain ⟨hcount, hlast⟩ := Text.count_flatten_pieces hpieces hfeed
  refine ⟨earlier.flatten ++ inLine, afterInLine ++ lineBreak ++ later.flatten, ?_, ?_⟩
  · rw [← Text.flatten_pieces text.toList, hpieces, List.flatten_append, List.flatten_cons, hpiece,
      hline]
    simp [Lexeme.toToken]
  · simp [Lexeme.toToken, Lexeme.stop, Span.behind, hcount, hlast, hstart]

/-- The tokens of the lines of a text are those of the text taken as one line, with their spans
put into their lines. -/
theorem ofText_eq (text : String) :
    ofLines 0 (Text.lines text) = (ofLine 0 text).map (relocate (Span.inLines text)) := by
  have hplace : ∀ t ∈ ofLines 0 (Text.lines text),
      (t.relocate (Span.inText text)).relocate (Span.inLines text) = t := by
    intro t ht
    obtain ⟨before, after, htext, hspan⟩ := exists_span_eq_behind ht
    rw [List.append_assoc] at htext
    simp only [relocate, Span.inText, hspan, Span.range_behind htext, Span.inLines_eq htext]
    rw [← hspan]
  rw [← relocate_ofText, List.map_map]
  exact ((List.map_congr_left hplace).trans (List.map_id' _)).symm

end Token

end LexicalLisp
