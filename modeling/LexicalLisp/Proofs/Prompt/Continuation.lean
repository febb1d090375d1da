import LexicalLisp.Proofs.Prompt.Gathering

/-!
# What can follow a text

A text is scanned from the left, so what follows it finds the parentheses that are open at its end
and nothing else. If one has been closed that was not open, nothing that follows makes amends. Else
the open ones can be closed, and a text in which some are open is one that can be completed.
-/

namespace LexicalLisp

open Text (isTokenBlank dropLineBreak splitPiece EndsLine)

namespace Verdict

variable {depth position k : Nat} {cs : List Char}

/-- Either the verdict is out, or what follows is scanned at the depth that has been reached. -/
theorem scan_append_cases (depth position : Nat) (cs : List Char) :
    (∃ k, scan depth position cs = .invalid k ∧
      ∀ ds, scan depth position (cs ++ ds) = .invalid k) ∨
    ∃ reached, scan depth position cs = (if reached = 0 then .valid else .incomplete) ∧
      ∀ ds, scan depth position (cs ++ ds) = scan reached (position + cs.length) ds := by
  induction cs generalizing depth position with
  | nil => exact .inr ⟨depth, rfl, fun _ => rfl⟩
  | cons c cs ih =>
    have hlength : position + (c :: cs).length = position + 1 + cs.length := by
      rw [List.length_cons]
      omega
    simp only [List.cons_append, hlength]
    by_cases hopen : c = '('
    · subst hopen
      simp only [scan_opening]
      exact ih (depth + 1) (position + 1)
    · by_cases hclose : c = ')'
      · subst hclose
        cases depth with
        | zero => exact .inl ⟨position, rfl, fun _ => rfl⟩
        | succ outer =>
          simp only [scan_closing]
          exact ih outer (position + 1)
      · simp only [scan_other hopen hclose]
        exact ih depth (position + 1)

theorem scan_append_of_invalid (h : scan depth position cs = .invalid k) (ds : List Char) :
    scan depth position (cs ++ ds) = .invalid k := by
  rcases scan_append_cases depth position cs with ⟨k', hinvalid, hscan⟩ | ⟨reached, hverdict, -⟩
  · rw [hscan, ← hinvalid, h]
  · rw [h] at hverdict
    split at hverdict <;> cases hverdict

theorem scan_closings (depth position : Nat) :
    scan depth position (List.replicate depth ')') = .valid := by
  induction depth generalizing position with
  | zero => rfl
  | succ outer ih =>
    rw [List.replicate_succ, scan_closing]
    exact ih (position + 1)

theorem exists_closings (h : scan depth position cs = .incomplete) :
    ∃ n, scan depth position (cs ++ List.replicate (n + 1) ')') = .valid := by
  rcases scan_append_cases depth position cs with ⟨k, hinvalid, -⟩ | ⟨reached, hverdict, hscan⟩
  · rw [h] at hinvalid
    cases hinvalid
  · cases reached with
    | zero =>
      rw [h] at hverdict
      cases hverdict
    | succ n => exact ⟨n, by rw [hscan, scan_closings]⟩

theorem incomplete_iff : scan depth position cs = .incomplete ↔
    scan depth position cs ≠ .valid ∧ ∃ ds, scan depth position (cs ++ ds) = .valid := by
  constructor
  · intro h
    obtain ⟨n, hn⟩ := exists_closings h
    exact ⟨by rw [h]; exact nofun, _, hn⟩
  · rintro ⟨hne, ds, hvalid⟩
    cases hscan : scan depth position cs with
    | valid => exact absurd hscan hne
    | incomplete => rfl
    | invalid k =>
      rw [scan_append_of_invalid hscan] at hvalid
      cases hvalid

theorem scan_append_blanks {bs : List Char} (h : ∀ c ∈ bs, isTokenBlank c) :
    scan depth position (cs ++ bs) = scan depth position cs := by
  rcases scan_append_cases depth position cs with ⟨k, hinvalid, hscan⟩ | ⟨reached, hverdict, hscan⟩
  · rw [hscan, hinvalid]
  · have hpaired : Text.Paired bs := .of_blanks fun c hc => Text.isBlank_of_isTokenBlank (h c hc)
    have hblanks := hpaired.scan_append reached (position + cs.length) []
    rw [List.append_nil] at hblanks
    rw [hscan, hblanks, hverdict, scan]

theorem scan_dropLineBreak (cs : List Char) :
    scan depth position (dropLineBreak cs) = scan depth position cs := by
  obtain ⟨bs, hcs, hblank⟩ := Text.exists_dropLineBreak cs
  conv_rhs => rw [hcs, scan_append_blanks hblank]

end Verdict

namespace Text

theorem EndsLine.mem {cs : List Char} (h : EndsLine cs) : '\n' ∈ cs := by
  obtain ⟨ds, rfl⟩ := h
  exact List.mem_append_right ds List.mem_cons_self

theorem splitPiece_of_not_mem {cs : List Char} (h : '\n' ∉ cs) : splitPiece cs = (cs, []) := by
  induction cs with
  | nil => rfl
  | cons c cs ih =>
    rw [splitPiece_of_ne (List.ne_of_not_mem_cons h).symm, ih (List.not_mem_of_not_mem_cons h)]

theorem dropLineBreak_of_not_endsLine {cs : List Char} (h : ¬EndsLine cs) :
    dropLineBreak cs = cs := by
  rcases dropLineBreak_cases cs with ⟨hsame, -⟩ | hcs | hcs
  · exact hsame
  · exact absurd ⟨_, hcs⟩ h
  · refine absurd ⟨dropLineBreak cs ++ ['\r'], ?_⟩ h
    rw [List.append_assoc]
    exact hcs

end Text

namespace Entry

/-- After a text that is invalid, each line gets the complaint that the text got. -/
theorem gather_of_invalid {pending : List Char} {position : Nat}
    (h : Verdict.scan 0 0 pending = .invalid position) (text : List Char) :
    gather pending text =
      ⟨String.join (List.replicate (Text.pieces text).length (Verdict.complaint position)),
        none, []⟩ := by
  have hbody : ∀ piece : List Char,
      Verdict.scan 0 0 (dropLineBreak (pending ++ piece)) = .invalid position := by
    intro piece
    rw [Verdict.scan_dropLineBreak, Verdict.scan_append_of_invalid h]
  fun_induction gather pending text with
  | case1 => rfl
  | case2 pending c cs piece rest body hvalid =>
    rw [hbody] at hvalid
    cases hvalid
  | case3 pending c cs piece rest body hincomplete =>
    rw [hbody] at hincomplete
    cases hincomplete
  | case4 pending c cs piece rest body k hinvalid entry ih =>
    obtain rfl : position = k := by
      rw [hbody] at hinvalid
      exact Verdict.invalid.inj hinvalid
    have hentry : entry =
        ⟨String.join (List.replicate (Text.pieces rest).length (Verdict.complaint position)),
          none, []⟩ := by
      refine ih hinvalid ?_
      intro next
      rw [Verdict.scan_dropLineBreak, Verdict.scan_append_of_invalid hinvalid]
    rw [hentry, Text.pieces_cons, List.length_cons, List.replicate_succ, String.join_cons]

theorem gather_of_line {pending line : List Char} (hfeed : '\n' ∉ line) (hne : line ≠ [])
    (h : Verdict.scan 0 0 (pending ++ line) = .valid) :
    gather pending line = ⟨"", some (String.ofList (pending ++ line)), []⟩ := by
  cases line with
  | nil => exact absurd rfl hne
  | cons c cs =>
    have hdrop : dropLineBreak (pending ++ c :: cs) = pending ++ c :: cs := by
      apply Text.dropLineBreak_of_not_endsLine
      rw [Text.endsLine_append_iff hne]
      exact fun hends => hfeed hends.mem
    rw [gather]
    simp only [Text.splitPiece_of_not_mem hfeed, hdrop, h]

/-- A text that is incomplete can be made an entry with one more line. -/
theorem exists_gather_eq {pending : List Char} (h : Verdict.scan 0 0 pending = .incomplete) :
    ∃ line, gather pending line = ⟨"", some (String.ofList (pending ++ line)), []⟩ := by
  obtain ⟨n, hn⟩ := Verdict.exists_closings h
  refine ⟨List.replicate (n + 1) ')', gather_of_line ?_ (List.cons_ne_nil _ _) hn⟩
  intro hmem
  cases List.eq_of_mem_replicate hmem

end Entry

/-- Nothing that follows an invalid text changes the verdict on it, and no line typed after it
makes it an entry: each gets the complaint that the text got. A text is incomplete exactly if it
is not valid but can be continued to one that is, which the reader then accepts, and in the dialogue
one more line is enough for that. -/
theorem invalid_is_final_and_incomplete_can_be_completed (a : String) :
    (∀ position, Verdict.of a = .invalid position →
      (∀ b : String, Verdict.of (a ++ b) = .invalid position) ∧
      ∀ lines : List Char, Entry.gather a.toList lines =
        ⟨String.join (List.replicate (Text.pieces lines).length (Verdict.complaint position)),
          none, []⟩) ∧
    (Verdict.of a = .incomplete ↔ Verdict.of a ≠ .valid ∧
      ∃ b : String, Verdict.of (a ++ b) = .valid ∧ ∃ es, parse (a ++ b) = .ok es) ∧
    (Verdict.of a = .incomplete →
      ∃ b : String, Entry.gather a.toList b.toList = ⟨"", some (a ++ b), []⟩) := by
  have happend : ∀ b : String, Verdict.of (a ++ b) = Verdict.scan 0 0 (a.toList ++ b.toList) := by
    intro b
    rw [Verdict.of, String.toList_append]
  refine ⟨fun position h => ⟨fun b => ?_, Entry.gather_of_invalid h⟩, ⟨fun h => ?_, ?_⟩,
    fun h => ?_⟩
  · rw [happend]
    exact Verdict.scan_append_of_invalid h b.toList
  · obtain ⟨hne, ds, hvalid⟩ := Verdict.incomplete_iff.mp h
    have hof : Verdict.of (a ++ String.ofList ds) = .valid := by
      rw [happend, String.toList_ofList, hvalid]
    exact ⟨hne, _, hof, Verdict.of_eq_valid_iff.mp hof⟩
  · rintro ⟨hne, b, hvalid, -⟩
    exact Verdict.incomplete_iff.mpr ⟨hne, b.toList, (happend b).symm.trans hvalid⟩
  · obtain ⟨line, hgather⟩ := Entry.exists_gather_eq h
    refine ⟨String.ofList line, ?_⟩
    rw [String.toList_ofList, hgather, String.ofList_append, String.ofList_toList]

theorem stray_parenthesis_stays_and_open_list_is_completed :
    Verdict.of "a)" = .invalid 1 ∧ (∀ b : String, Verdict.of ("a)" ++ b) = .invalid 1) ∧
      (Entry.gather "a)".toList "(\n(b)".toList).text? = none ∧
      Verdict.of "(a\n(b" = .incomplete ∧
      ∃ b : String, Entry.gather "(a\n(b".toList b.toList = ⟨"", some ("(a\n(b" ++ b), []⟩ := by
  have hinvalid : Verdict.of "a)" = .invalid 1 := by decide +kernel
  have hincomplete : Verdict.of "(a\n(b" = .incomplete := by decide +kernel
  obtain ⟨hfinal, -, -⟩ := invalid_is_final_and_incomplete_can_be_completed "a)"
  obtain ⟨-, -, hcompleted⟩ := invalid_is_final_and_incomplete_can_be_completed "(a\n(b"
  refine ⟨hinvalid, (hfinal 1 hinvalid).1, ?_, hincomplete, hcompleted hincomplete⟩
  rw [(hfinal 1 hinvalid).2]

end LexicalLisp
