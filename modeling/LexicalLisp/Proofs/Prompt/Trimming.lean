import LexicalLisp.Prompt.Dialogue
import LexicalLisp.Proofs.Prompt.Verdict
import LexicalLisp.Proofs.Reading.RoundTrip
import LexicalLisp.Proofs.Reading.SameShapes
import LexicalLisp.Proofs.Reading.WideCharacter

/-!
# What trimming does to an input

A text is trimmed by the Unicode property `White_Space` before it is run, but its tokens are
separated by six ASCII characters only, and any other blank is part of a name. So an input keeps
its meaning exactly if no such blank stands at its ends: one that is taken off is missing from a
name afterwards, and the name may have had no other character.
-/

namespace LexicalLisp

open Text (isBlank isTokenBlank isWide trim shapes Paired)

namespace Text

variable {cs : List Char}

theorem filter_isWide_eq_nil_iff (h : ∀ c ∈ cs, isBlank c) :
    cs.filter isWide = [] ↔ ∀ c ∈ cs, isTokenBlank c := by
  rw [List.filter_eq_nil_iff]
  constructor
  · intro hnone c hc
    exact isTokenBlank_of_isBlank (h c hc) (Bool.eq_false_iff.mpr (hnone c hc))
  · intro hblank c hc hwide
    have hnot := isTokenBlank_eq_false_of_isWide hwide
    rw [hblank c hc] at hnot
    cases hnot

end Text

section Margins

variable {line text : String} {before after : List Char} {es es' : List Expr}

theorem exists_parse_of_margins (h : line.toList = before ++ text.toList ++ after)
    (hbefore : ∀ c ∈ before, isBlank c) (hafter : ∀ c ∈ after, isBlank c)
    (hes : parse line = .ok es) : ∃ es', parse text = .ok es' := by
  have hpaired : Paired (before ++ text.toList ++ after) := h ▸ paired_of_parse_eq_ok hes
  have hfront := (Paired.of_blanks hafter).of_append_right hpaired
  exact exists_parse_eq_ok_of_paired ((Paired.of_blanks hbefore).of_append hfront)

theorem parse_margins_iff (h : line.toList = before ++ text.toList ++ after)
    (hbefore : ∀ c ∈ before, isBlank c) (hafter : ∀ c ∈ after, isBlank c)
    (hes : parse line = .ok es) (hes' : parse text = .ok es') :
    es' = es ↔ ∀ c ∈ before ++ after, isTokenBlank c := by
  constructor
  · rintro rfl
    -- The names have as many wide characters with the blanks as without them.
    have hwide : text.toList.filter isWide =
        before.filter isWide ++ text.toList.filter isWide ++ after.filter isWide := by
      rw [← List.filter_append, ← List.filter_append, ← h, ← wideChars_of_parse hes,
        ← wideChars_of_parse hes']
    have hlength := congrArg List.length hwide
    simp only [List.length_append] at hlength
    have hnone : (before ++ after).filter isWide = [] := by
      rw [← List.length_eq_zero_iff, List.filter_append, List.length_append]
      omega
    refine (Text.filter_isWide_eq_nil_iff fun c hc => ?_).mp hnone
    exact (List.mem_append.mp hc).elim (hbefore c) (hafter c)
  · intro hblank
    have hshapes : shapes line.toList = shapes text.toList := by
      rw [h]
      exact Text.shapes_margins (fun c hc => hblank c (by simp [hc]))
        fun c hc => hblank c (by simp [hc])
    exact Except.ok.inj (hes'.symm.trans (parse_of_shapes hshapes hes))

end Margins

/-- A line that can be submitted can be read before and after it is trimmed. What is read is the
same exactly if everything that is trimmed off separates tokens. In particular, a line of which
nothing is left and which is therefore skipped holds no expression exactly if all of it separates
tokens. -/
theorem trimming_keeps_expressions_iff {line : String} (h : Verdict.of line = .valid) :
    ∃ before after es es', line.toList = before ++ (trim line).toList ++ after ∧
      (∀ c ∈ before, isBlank c) ∧ (∀ c ∈ after, isBlank c) ∧
      parse line = .ok es ∧ parse (trim line) = .ok es' ∧
      (es' = es ↔ ∀ c ∈ before ++ after, isTokenBlank c) ∧
      (trim line = "" → (es = [] ↔ ∀ c ∈ line.toList, isTokenBlank c)) := by
  obtain ⟨before, after, hline, hbefore, hafter⟩ := Text.exists_trim_eq line
  obtain ⟨es, hes⟩ := Verdict.of_eq_valid_iff.mp h
  obtain ⟨es', hes'⟩ := exists_parse_of_margins hline hbefore hafter hes
  have hsame := parse_margins_iff hline hbefore hafter hes hes'
  refine ⟨before, after, es, es', hline, hbefore, hafter, hes, hes', hsame, fun hskip => ?_⟩
  rw [hskip] at hline hes'
  obtain rfl : [] = es' := Except.ok.inj hes'
  rw [eq_comm, hsame, hline]
  simp

/-- A tab can be trimmed off, but a no-break space is an expression of its own. -/
theorem trimming_drops_name :
    Verdict.of "\t(f)\u00a0" = .valid ∧
      ∃ es es', parse "\t(f)\u00a0" = .ok es ∧ parse "(f)" = .ok es' ∧ es' ≠ es := by
  have hvalid : Verdict.of "\t(f)\u00a0" = .valid := by decide +kernel
  have htrim : trim "\t(f)\u00a0" = "(f)" := by decide +kernel
  obtain ⟨before, after, es, es', hline, -, -, hes, hes', hsame, -⟩ :=
    trimming_keeps_expressions_iff hvalid
  rw [htrim] at hline hes'
  refine ⟨hvalid, es, es', hes, hes', fun heq => ?_⟩
  have hspace : '\u00a0' ∈ before ++ "(f)".toList ++ after := by
    rw [← hline]
    decide +kernel
  have hmargin : '\u00a0' ∈ before ++ after := by simpa using hspace
  exact absurd (hsame.mp heq _ hmargin) (by decide)

/-- In the first line the no-break space is part of the name that is defined. In the second it is
trimmed off, so that another name is looked up. The same blank alone is an expression of a line
that is skipped. -/
theorem trimming_can_change_name :
    (Dialogue.run? 9 "(define x\u00a0 1)\nx\u00a0\n").map
        (fun d => (d.submitted, d.diagnoses.map Diagnosis.label)) =
      some (["(define x\u00a0 1)", "x\u00a0"], ["`x` is not defined in any enclosing scope"]) ∧
    Verdict.of "x\u00a0" = .valid ∧ parse "x\u00a0" = .ok [.symbol "x\u00a0"] ∧
      parse (trim "x\u00a0") = .ok [.symbol "x"] ∧ parse (trim "x\u00a0") ≠ parse "x\u00a0" ∧
    Verdict.of "\u00a0" = .valid ∧ trim "\u00a0" = "" ∧ parse "\u00a0" ≠ .ok [] := by
  decide +kernel

end LexicalLisp
