import LexicalLisp.Proofs.Reading.Concatenation
import LexicalLisp.Proofs.Reading.RoundTrip
import LexicalLisp.Proofs.Session.Rollback

/-!
# Texts run one after the other

Programs are run expression by expression, so to run two of them one after the other is to run
them as one program. The same holds of texts: two texts, the second of which begins on a new
line, do together what they do one after the other. If the second has no forms, the value is that
of the first, so this case is left out.
-/

namespace LexicalLisp

namespace Run

variable {ε ε' α β : Type}

theorem mapError_bind (g : ε → ε') (x : Run ε α) (k : α → Run ε β) :
    (x >>= k).mapError g = x.mapError g >>= fun a => (k a).mapError g := by
  funext m
  simp only [mapError, bind_apply]
  cases x m <;> rfl

end Run

theorem Eval.inOrder_append (ev : Evaluator) (f : FrameId) (last : Value) (es es' : List Expr) :
    inOrder ev f last (es ++ es') = inOrder ev f last es >>= fun v => inOrder ev f v es' := by
  induction es generalizing last with
  | nil => rfl
  | cons e es ih =>
    simp only [List.cons_append, inOrder, bind_assoc, ih]

namespace Session

/-- The value of a program does not depend on the one before it, unless the program is empty. -/
theorem run_append (depth : Nat) (program program' : List Expr) (f : FrameId)
    (hne : program' ≠ []) :
    run depth (program ++ program') f = run depth program f >>= fun _ => run depth program' f := by
  unfold run
  rw [Eval.inOrder_append]
  cases program' with
  | nil => exact absurd rfl hne
  | cons e es => rfl

/-- A text with another one below it, of which the first can be read, gives the expressions of
both, or the error of the second as many lines further down as there are in the first. If both
can be read and the second has a form, they run as they do one after the other: with the same
outcome, the same store and the same terminal at every depth, wherever they begin. -/
theorem texts_run_one_after_another {a : String} {es : List Expr} (ha : parse a = .ok es)
    (b : String) :
    (∀ es', parse b = .ok es' → parse (a ++ "\n" ++ b) = .ok (es ++ es')) ∧
    (∀ err, parse b = .error err → parse (a ++ "\n" ++ b) =
      .error (err.relocate (Span.below (a.toList.count '\n' + 1)))) ∧
    ∀ es', parse b = .ok es' → es' ≠ [] → ∀ depth f,
      runText depth (a ++ "\n" ++ b) f = runText depth a f >>= fun _ => runText depth b f := by
  have hconcat := parse_concat ha b
  have hboth : ∀ es', parse b = .ok es' → parse (a ++ "\n" ++ b) = .ok (es ++ es') := by
    intro es' hb
    rw [hconcat, hb]
    rfl
  refine ⟨hboth, fun err hb => ?_, fun es' hb hne depth f => ?_⟩
  · rw [hconcat, hb]
    rfl
  · rw [runText_of_parse_ok depth _ (hboth es' hb), runText_of_parse_ok depth a ha,
      runText_of_parse_ok depth b hb, run_append depth es es' f hne, Run.mapError_bind]

/-- The carriage return at the end of the first text and the line feed after it are one line
break. A fault in the second line of what follows is one in the third line. -/
theorem definition_is_run_before_its_use :
    parse "(define x 1)\r\n(display x)\r\n(+ x 1)" =
      .ok [.list [.symbol "define", .symbol "x", .integer 1],
        .list [.symbol "display", .symbol "x"], .list [.symbol "+", .symbol "x", .integer 1]] ∧
    parse "(define x 1)\r\n7\n)" = .error (.unexpectedClose ⟨2, 0, 1⟩) ∧
    ∀ depth f, runText depth "(define x 1)\r\n(display x)\r\n(+ x 1)" f =
      runText depth "(define x 1)\r" f >>= fun _ => runText depth "(display x)\r\n(+ x 1)" f := by
  have ha : parse "(define x 1)\r" = .ok [.list [.symbol "define", .symbol "x", .integer 1]] := by
    decide +kernel
  have hb : parse "(display x)\r\n(+ x 1)" = .ok [.list [.symbol "display", .symbol "x"],
      .list [.symbol "+", .symbol "x", .integer 1]] := by decide +kernel
  have hc : parse "7\n)" = .error (.unexpectedClose ⟨1, 0, 1⟩) := by decide +kernel
  obtain ⟨hread, -, hrun⟩ := texts_run_one_after_another ha "(display x)\r\n(+ x 1)"
  obtain ⟨-, hfault, -⟩ := texts_run_one_after_another ha "7\n)"
  exact ⟨hread _ hb, hfault _ hc, hrun _ hb (List.cons_ne_nil _ _)⟩

end Session
end LexicalLisp
