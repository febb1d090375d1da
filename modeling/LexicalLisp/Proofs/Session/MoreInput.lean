import LexicalLisp.Proofs.Evaluation.Interaction

/-!
# More input

A run takes lines from the front of the input as it comes to read them. What lies behind the lines
that it takes makes no difference to it, unless it comes to the end of the input: then every line
there was has been taken. So a run that does not come to the end goes on alike when more lines
follow, and leaves them as they are.
-/

namespace LexicalLisp

open Terminal

namespace Interaction

variable {α : Type}

/-- With the lines as its input the interaction reads all but the rest of them, in order; nothing
of them is left if it comes to the end, and otherwise it would go alike if more of them followed. -/
structure Consumes (i : Interaction α) (t : Terminal) (lines rest : List String) : Prop where
  leaves : (i.on (t.withLines lines)).Leaves fun m => m.terminal.input = .lines rest
  lines_eq : Exchange.lines (i.transcript (t.withLines lines)) ++ rest = lines
  rest_eq_nil : (i.on (t.withLines lines)).error? = some .endOfInput → rest = []
  on_append : (i.on (t.withLines lines)).error? ≠ some .endOfInput → ∀ more,
    i.on (t.withLines (lines ++ more)) =
      (i.on (t.withLines lines)).mapTerminal (withLines (rest ++ more))

namespace Consumes

variable {i j : Interaction α} {t t' : Terminal} {lines rest : List String}

theorem of_ended (lines : List String) {e : EvalError} (s : Store) (t' : Terminal)
    (he : e ≠ .endOfInput)
    (hon : ∀ ls, i.on (t.withLines ls) = .error e ⟨s, t'.withLines ls⟩)
    (htranscript : i.transcript (t.withLines lines) = []) : i.Consumes t lines lines where
  leaves := by
    rw [hon]
    rfl
  lines_eq := by
    rw [htranscript]
    rfl
  rest_eq_nil := by
    rw [hon]
    rintro ⟨⟩
    exact absurd rfl he
  on_append _ more := by
    rw [hon, hon]
    rfl

theorem of_step (taken : List String)
    (hon : ∀ ls, i.on (t.withLines (taken ++ ls)) = j.on (t'.withLines ls))
    (htranscript : Exchange.lines (i.transcript (t.withLines (taken ++ lines))) =
      taken ++ Exchange.lines (j.transcript (t'.withLines lines)))
    (h : j.Consumes t' lines rest) : i.Consumes t (taken ++ lines) rest where
  leaves := by
    rw [hon]
    exact h.leaves
  lines_eq := by rw [htranscript, List.append_assoc, h.lines_eq]
  rest_eq_nil := by
    rw [hon]
    exact h.rest_eq_nil
  on_append hend more := by
    rw [hon] at hend
    rw [List.append_assoc, hon, hon]
    exact h.on_append hend more

end Consumes

theorem exists_consumes (i : Interaction α) (t : Terminal) (lines : List String) :
    ∃ rest, i.Consumes t lines rest := by
  induction i generalizing t lines with
  | result a s => exact ⟨lines, rfl, rfl, by rintro ⟨⟩, fun _ _ => rfl⟩
  | error e own s =>
    have hend : e ≠ .endOfInput := by
      rintro rfl
      exact own trivial
    exact ⟨lines, .of_ended lines s t hend (fun _ => rfl) rfl⟩
  | outOfFuel => exact ⟨lines, trivial, rfl, by rintro ⟨⟩, fun _ _ => rfl⟩
  | write text s next ih =>
    rcases hwrite : t.write text with ⟨r | _, t'⟩
    · have hend : EvalError.refused r ≠ .endOfInput := by rintro ⟨⟩
      refine ⟨lines, .of_ended lines s t' hend (fun ls => ?_) ?_⟩
      · simp only [on, write_withLines, hwrite]
      · simp only [transcript, write_withLines, hwrite]
    · obtain ⟨rest, h⟩ := ih t' lines
      refine ⟨rest, .of_step [] (fun ls => ?_) ?_ h⟩
      · simp only [on, List.nil_append, write_withLines, hwrite]
      · simp only [transcript, List.nil_append, write_withLines, hwrite, Exchange.lines_wrote]
  | readLine s next ih =>
    cases hreadable : t.readable with
    | false =>
      have hend : EvalError.refused .read ≠ .endOfInput := by rintro ⟨⟩
      refine ⟨lines, .of_ended lines s t hend (fun ls => ?_) ?_⟩
      · simp only [on, readLine_withLines_refused _ hreadable]
      · simp only [transcript, readLine_withLines_refused _ hreadable]
    | true =>
      cases lines with
      | nil =>
        have hon :
            (readLine s next).on (t.withLines []) = .error .endOfInput ⟨s, t.withLines []⟩ := by
          simp only [on, readLine_withLines_nil hreadable]
        refine ⟨[], ?_, ?_, fun _ => rfl, fun hend => ?_⟩
        · rw [hon]
          rfl
        · simp only [transcript, readLine_withLines_nil hreadable]
          rfl
        · rw [hon] at hend
          exact absurd rfl hend
      | cons line lines =>
        obtain ⟨rest, h⟩ := ih line t lines
        refine ⟨rest, .of_step [line] (fun ls => ?_) ?_ h⟩
        · simp only [on, List.singleton_append, readLine_withLines_cons _ _ hreadable]
        · simp only [transcript, List.singleton_append, readLine_withLines_cons _ _ hreadable,
            Exchange.lines_read]

end Interaction

namespace Session

/-- The lines `lines` are the input of a program. If it ends without coming to the end of them, it
ends the same way, with the same store and output, when more lines follow, and these are left
behind the lines that it has left. If it comes to the end, all lines were read, each of them once
and in order. However a program ends and whatever the terminal, what is left of the input is the
end of it, and the output has grown at its end. -/
theorem more_input_changes_nothing (depth : Nat) (program : List Expr) (f : FrameId) (s : Store)
    (t : Terminal) (lines more : List String) :
    ((run depth program f ⟨s, t.withLines lines⟩).error? ≠ some .endOfInput →
      (run depth program f ⟨s, t.withLines lines⟩).Leaves fun m => ∃ rest,
        m.terminal.input = .lines rest ∧
        run depth program f ⟨s, t.withLines (lines ++ more)⟩ =
          (run depth program f ⟨s, t.withLines lines⟩).mapTerminal (withLines (rest ++ more))) ∧
    ((run depth program f ⟨s, t.withLines lines⟩).error? = some .endOfInput →
      (run depth program f ⟨s, t.withLines lines⟩).Leaves (fun m => m.terminal.input = .lines []) ∧
      (∃ i : Interaction Value, i.Describes (run depth program f) s) ∧
      ∀ i : Interaction Value, i.Describes (run depth program f) s →
        Exchange.lines (i.transcript (t.withLines lines)) = lines) ∧
    (run depth program f ⟨s, t⟩).Leaves fun m =>
      m.terminal.input.IsSuffix t.input ∧ ∃ text, m.terminal.output = t.output ++ text := by
  obtain ⟨i, hi⟩ := run_interacts depth program f s
  simp only [hi _]
  refine ⟨fun hend => ?_, fun hend => ?_, ?_⟩
  · obtain ⟨rest, h⟩ := i.exists_consumes t lines
    exact h.leaves.imp fun m hm => ⟨rest, hm, h.on_append hend more⟩
  · refine ⟨?_, ⟨i, hi⟩, fun j hj => ?_⟩
    · obtain ⟨rest, h⟩ := i.exists_consumes t lines
      rw [← h.rest_eq_nil hend]
      exact h.leaves
    · obtain ⟨rest, h⟩ := j.exists_consumes t lines
      rw [← hi, hj] at hend
      have hlines := h.lines_eq
      rwa [h.rest_eq_nil hend, List.append_nil] at hlines
  · refine ((i.on_leads t).and (i.on_writes t)).imp fun m hm => ?_
    exact ⟨hm.1.continues.input, _, output_of_writes hm.2⟩

/-- Two lines are read. A third one is left, and a single one is not enough. -/
theorem third_line_is_left :
    let program : List Expr := [.list [.symbol "display", .list [.symbol "read-line"]],
      .list [.symbol "display", .list [.symbol "read-line"]]]
    let t := Terminal.ofLines []
    (∃ v m, run 3 program 0 ⟨(start t).store, t.withLines ["a", "b", "c"]⟩ = .result v m ∧
      m.terminal.input = .lines ["c"] ∧ m.terminal.output = "ab") ∧
    ∃ i : Interaction Value, i.Describes (run 3 program 0) (start t).store ∧
      Exchange.lines (i.transcript (t.withLines ["a"])) = ["a"] := by
  intro program t
  obtain ⟨v, m, hrun, -⟩ := Outcome.exists_of_value?
    (show (run 3 program 0 ⟨(start t).store, t.withLines ["a", "b"]⟩).value?.map Value.kind =
      some .void by decide +kernel)
  have hleft : (run 3 program 0 ⟨(start t).store, t.withLines ["a", "b"]⟩).Leaves fun m =>
      m.terminal.input = .lines [] ∧ m.terminal.output = "ab" := by decide +kernel
  have hmore := (more_input_changes_nothing 3 program 0 (start t).store t ["a", "b"] ["c"]).1
    (by rw [hrun]; exact nofun)
  have hall := (more_input_changes_nothing 3 program 0 (start t).store t ["a"] []).2.1
    (by decide +kernel)
  rw [hrun] at hmore hleft
  obtain ⟨rest, hrest, hagain⟩ := hmore
  obtain ⟨hinput, houtput⟩ := hleft
  obtain rfl : rest = [] := Input.lines.inj (hrest.symm.trans hinput)
  obtain ⟨-, ⟨i, hi⟩, hlines⟩ := hall
  exact ⟨⟨v, _, hagain, rfl, houtput⟩, i, hi, hlines i hi⟩

end Session
end LexicalLisp
