import LexicalLisp.Text.Line

/-!
# The pieces of a text

The pieces of a text are what one gets by taking off its first piece again and again. A line is
read in this way, while a text that is read as a whole is cut into all of its pieces at once. Behind
characters that make up whole lines the pieces begin anew.
-/

namespace LexicalLisp.Text

variable {c : Char} {cs : List Char}

theorem splitPiece_lineFeed (cs : List Char) : splitPiece ('\n' :: cs) = (['\n'], cs) := rfl

theorem splitPiece_of_ne (h : c ≠ '\n') :
    splitPiece (c :: cs) = (c :: (splitPiece cs).1, (splitPiece cs).2) := if_neg h

theorem splitPiece_ne_nil (c : Char) (cs : List Char) : (splitPiece (c :: cs)).1 ≠ [] := by
  by_cases hc : c = '\n'
  · rw [hc, splitPiece_lineFeed]
    exact List.cons_ne_nil _ _
  · rw [splitPiece_of_ne hc]
    exact List.cons_ne_nil _ _

theorem pieces_cons (c : Char) (cs : List Char) :
    pieces (c :: cs) = (splitPiece (c :: cs)).1 :: pieces (splitPiece (c :: cs)).2 := by
  induction cs generalizing c with
  | nil => by_cases hc : c = '\n' <;> simp [pieces, splitPiece, hc]
  | cons d cs ih =>
    by_cases hc : c = '\n'
    · rw [hc]
      rfl
    · rw [splitPiece_of_ne hc, pieces, if_neg hc, ih d]

/-- The first line of a text comes from its first piece, the others from the rest. -/
theorem lines_ofList_cons (c : Char) (cs : List Char) :
    lines (String.ofList (c :: cs)) =
      String.ofList (dropLineBreak (splitPiece (c :: cs)).1) ::
        lines (String.ofList (splitPiece (c :: cs)).2) := by
  unfold lines
  rw [String.toList_ofList, String.toList_ofList, pieces_cons, List.map_cons]

section WholeLines

theorem pieces_append_lineFeed (cs ds : List Char) :
    pieces (cs ++ '\n' :: ds) = pieces (cs ++ ['\n']) ++ pieces ds := by
  induction cs with
  | nil => rfl
  | cons c cs ih =>
    rw [List.cons_append, List.cons_append, pieces, pieces, ih]
    split
    · rfl
    · cases hpieces : pieces (cs ++ ['\n']) with
      | nil =>
        have hflatten := flatten_pieces (cs ++ ['\n'])
        simp [hpieces] at hflatten
      | cons piece rest => rfl

theorem length_pieces_lineFeed (cs : List Char) :
    (pieces (cs ++ ['\n'])).length = cs.count '\n' + 1 := by
  induction cs with
  | nil => rfl
  | cons c cs ih =>
    rw [List.cons_append, pieces, List.count_cons]
    by_cases hc : c = '\n'
    · simp [hc, ih]
    · cases hpieces : pieces (cs ++ ['\n']) with
      | nil => simp [hpieces] at ih
      | cons piece rest =>
        rw [hpieces] at ih
        simpa [hc] using ih

def EndsLine (cs : List Char) : Prop := ∃ ds, cs = ds ++ ['\n']

/-- The characters make up whole lines, so that another line begins behind them. -/
def WholeLines (cs : List Char) : Prop := cs = [] ∨ EndsLine cs

theorem WholeLines.pieces_append (h : WholeLines cs) (ds : List Char) :
    pieces (cs ++ ds) = pieces cs ++ pieces ds := by
  rcases h with rfl | ⟨cs, rfl⟩
  · rfl
  · rw [List.append_assoc, List.singleton_append, pieces_append_lineFeed]

theorem WholeLines.length_pieces (h : WholeLines cs) : (pieces cs).length = cs.count '\n' := by
  rcases h with rfl | ⟨cs, rfl⟩
  · rfl
  · rw [length_pieces_lineFeed, List.count_append]
    rfl

end WholeLines

end LexicalLisp.Text
