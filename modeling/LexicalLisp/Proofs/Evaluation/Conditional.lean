import LexicalLisp.Proofs.Evaluation.Depth
import LexicalLisp.Proofs.Evaluation.Rules

/-!
# Conditional forms

A `cond` with a clause in front is an `if`, and so is an `and` with an operand in front. Both
`and` and `or` look for the first operand whose value stops them: the value of that operand is
the result, and what stands behind it is not evaluated and need not even be well formed. Only
`#f` is false, so a false operand is itself the result of an `and` that it stops, and the last
operand of an `or` is the result of the form whether it is true or not.
-/

namespace LexicalLisp

namespace Expr

def keywordForm (k : Keyword) (es : List Expr) : Expr := .list (.symbol k.name :: es)

def operatorForm (op : Operator) (es : List Expr) : Expr := .list (.symbol op.name :: es)

end Expr

theorem Value.eq_false_of_isTruthy {v : Value} (h : v.isTruthy = false) : v = .boolean false := by
  cases v with
  | boolean b => exact congrArg boolean h
  | _ => cases h

namespace Eval

variable {ev : Evaluator} {f : FrameId}

theorem step_keywordForm (k : Keyword) (es : List Expr) :
    step ev (.keywordForm k es) f = keyword ev f k es := form_keyword ev f k es

theorem step_operatorForm (op : Operator) (es : List Expr) :
    step ev (.operatorForm op es) f = operator ev f op es := by
  change form ev f (.symbol op.name) es = _
  simp only [form, Operator.ofName?_name]

theorem eval_keywordForm (n : Nat) (k : Keyword) (es : List Expr) (f : FrameId) :
    eval (n + 1) (.keywordForm k es) f = keyword (eval n) f k es := step_keywordForm k es

theorem eval_operatorForm (n : Nat) (op : Operator) (es : List Expr) (f : FrameId) :
    eval (n + 1) (.operatorForm op es) f = operator (eval n) f op es := step_operatorForm op es

/-- The value of the first operand that has a value with the given property, or else of the last
operand; `last` is the value before the first of them. -/
def seek (ev : Evaluator) (f : FrameId) (stops : Value → Bool) (last : Value) :
    List Expr → Run EvalError Value
  | [] => pure last
  | e :: es => do
    let v ← ev e f
    if stops v then return v else seek ev f stops v es

/-- `and` looks for a false operand. -/
theorem conjunction_eq_seek (last : Value) (es : List Expr) :
    conjunction ev f last es = seek ev f (!·.isTruthy) last es := by
  induction es generalizing last with
  | nil => rfl
  | cons e es ih =>
    refine congrArg (ev e f >>= ·) (funext fun v => ?_)
    cases hv : v.isTruthy with
    | true => simpa [hv] using ih v
    | false =>
      obtain rfl := Value.eq_false_of_isTruthy hv
      rfl

/-- `or` looks for a true one. -/
theorem disjunction_eq_seek (es : List Expr) :
    disjunction ev f es = seek ev f (·.isTruthy) (.boolean false) es := by
  induction es with
  | nil => rfl
  | cons e es ih =>
    refine congrArg (ev e f >>= ·) (funext fun v => ?_)
    cases hv : v.isTruthy with
    | true => simp [hv]
    | false =>
      obtain rfl := Value.eq_false_of_isTruthy hv
      exact ih

theorem seek_single (stops : Value → Bool) (last : Value) (e : Expr) :
    seek ev f stops last [e] = ev e f := by
  have hpure : ∀ v, (if stops v then pure v else seek ev f stops v []) = (pure v : Run _ _) :=
    fun v => ite_self _
  rw [seek, funext hpure, bind_pure]

/-- The last of these operands stops the search with the outcome `o`, because its value has the
property or because it fails; each of them is evaluated on the machine that is left by the one
before it. -/
inductive StopsWith (stops : Value → Bool) (f : FrameId) :
    List Expr → Machine → Outcome EvalError Value → Prop
  | met {e : Expr} {m m' : Machine} {v : Value} :
    e.Yields f m (.result v m') → stops v = true → StopsWith stops f [e] m (.result v m')
  | failed {e : Expr} {m m' : Machine} {cause : EvalError} :
    e.Yields f m (.error cause m') → StopsWith stops f [e] m (.error cause m')
  | later {e : Expr} {es : List Expr} {m m' : Machine} {v : Value} {o : Outcome EvalError Value} :
    e.Yields f m (.result v m') → stops v = false → StopsWith stops f es m' o →
    StopsWith stops f (e :: es) m o

namespace StopsWith

variable {stops : Value → Bool} {es : List Expr} {m : Machine} {o : Outcome EvalError Value}

theorem ne_outOfFuel (h : StopsWith stops f es m o) : o ≠ .outOfFuel := by
  induction h with
  | met hv _ => exact hv.1
  | failed he => exact he.1
  | later _ _ _ ih => exact ih

/-- Operands behind the last one make no difference, if the depth is sufficient for those that
are evaluated. -/
theorem exists_seek_eq (h : StopsWith stops f es m o) :
    ∃ n, ∀ k, n ≤ k → ∀ last rest, seek (eval k) f stops last (es ++ rest) m = o := by
  induction h with
  | @met e m m' v hv hstop =>
    obtain ⟨hne, n, hn⟩ := hv
    refine ⟨n, fun k hk last rest => ?_⟩
    rw [List.cons_append, seek, Run.bind_apply, Expr.eval_eq_of_le hk hn hne]
    simp [hstop]
  | @failed e m m' cause he =>
    obtain ⟨hne, n, hn⟩ := he
    refine ⟨n, fun k hk last rest => ?_⟩
    rw [List.cons_append, seek, Run.bind_apply, Expr.eval_eq_of_le hk hn hne]
  | @later e es m m' v o hv hstop _ ih =>
    obtain ⟨hne, n, hn⟩ := hv
    obtain ⟨n', hrest⟩ := ih
    refine ⟨max n n', fun k hk last rest => ?_⟩
    have he : eval k e f m = .result v m' :=
      Expr.eval_eq_of_le (Nat.le_trans (Nat.le_max_left n n') hk) hn hne
    rw [List.cons_append, seek, Run.bind_apply, he]
    simpa [hstop] using hrest k (Nat.le_trans (Nat.le_max_right n n') hk) v rest

/-- A form that is a search for such a value ends with the outcome of the operand that stops it. -/
theorem yields_iff (h : StopsWith stops f es m o) {op : Operator} {last : Value}
    (hop : ∀ n es, operator (eval n) f op es = seek (eval n) f stops last es) (rest : List Expr)
    (o' : Outcome EvalError Value) :
    (Expr.operatorForm op (es ++ rest)).Yields f m o' ↔ o' = o := by
  have hyields : (Expr.operatorForm op (es ++ rest)).Yields f m o := by
    obtain ⟨n, hn⟩ := h.exists_seek_eq
    refine ⟨h.ne_outOfFuel, n + 1, ?_⟩
    rw [eval_operatorForm, hop, hn n (Nat.le_refl n)]
  constructor
  · exact fun h' => h'.unique hyields
  · rintro rfl
    exact hyields

end StopsWith

end Eval

namespace Expr

open Run (bind_mono ite_mono)

theorem cond_equivalent_if (p r : Expr) (clauses : List Expr) :
    (keywordForm .cond (.list [p, r] :: clauses)).Equivalent
      (keywordForm .ifElse [p, r, keywordForm .cond clauses]) := by
  have hsucc : ∀ n e f, eval n e f ≤ eval (n + 1) e f := fun n => eval_mono (Nat.le_succ n)
  have hcond : ∀ n f, eval (n + 1) (keywordForm .cond clauses) f = Eval.cond (eval n) f clauses :=
    fun n f => Eval.eval_keywordForm n .cond clauses f
  refine equivalent_of_le 1 (fun n f => ?_) fun n f => ?_
  · cases n with
    | zero => exact Run.outOfFuel_le _
    | succ n =>
      rw [Eval.eval_keywordForm, Eval.eval_keywordForm]
      refine bind_mono (hsucc n p f) fun v => ite_mono (hsucc n r f) ?_
      exact (hcond n f).ge
  · cases n with
    | zero => exact Run.outOfFuel_le _
    | succ n =>
      rw [Eval.eval_keywordForm, Eval.eval_keywordForm]
      refine bind_mono (hsucc n p f) fun v => ite_mono (hsucc n r f) ?_
      exact (eval_mono (Nat.le_add_right n 2) _ f).trans (hcond (n + 1) f).le

theorem and_equivalent_if (e e' : Expr) (es : List Expr) :
    (operatorForm .and (e :: e' :: es)).Equivalent
      (keywordForm .ifElse [e, operatorForm .and (e' :: es), .boolean false]) := by
  have hsucc : ∀ n e f, eval n e f ≤ eval (n + 1) e f := fun n => eval_mono (Nat.le_succ n)
  -- The value before the first operand does not matter, since there is an operand.
  have hand : ∀ n f v, eval (n + 1) (operatorForm .and (e' :: es)) f =
      Eval.conjunction (eval n) f v (e' :: es) :=
    fun n f v => Eval.eval_operatorForm n .and (e' :: es) f
  have hfalse : ∀ n f, eval (n + 1) (.boolean false) f = pure (.boolean false) := fun n f => rfl
  refine equivalent_of_le 1 (fun n f => ?_) fun n f => ?_
  · cases n with
    | zero => exact Run.outOfFuel_le _
    | succ n =>
      rw [Eval.eval_operatorForm, Eval.eval_keywordForm]
      exact bind_mono (hsucc n e f) fun v => ite_mono (hand n f v).ge (hfalse n f).ge
  · cases n with
    | zero => exact Run.outOfFuel_le _
    | succ n =>
      rw [Eval.eval_operatorForm, Eval.eval_keywordForm]
      refine bind_mono (hsucc n e f) fun v => ite_mono ?_ ?_
      · exact (eval_mono (Nat.le_add_right n 2) _ f).trans (hand (n + 1) f v).le
      · exact (hsucc n _ f).trans (hfalse n f).le

theorem single_equivalent {op : Operator} (hop : op = .and ∨ op = .or) (e : Expr) :
    (operatorForm op [e]).Equivalent e := by
  have heval : ∀ n f, eval (n + 1) (operatorForm op [e]) f = eval n e f := by
    intro n f
    rw [Eval.eval_operatorForm]
    rcases hop with rfl | rfl
    · exact (Eval.conjunction_eq_seek (.boolean true) [e]).trans (Eval.seek_single _ _ e)
    · exact (Eval.disjunction_eq_seek [e]).trans (Eval.seek_single _ _ e)
  refine equivalent_of_le 1 (fun n f => ?_) fun n f => (heval n f).ge
  exact (eval_mono (Nat.le_succ n) _ f).trans ((heval n f).le.trans (eval_mono (Nat.le_succ n) e f))

end Expr

open LexicalLisp.Expr (keywordForm operatorForm) in
/-- Conditional forms unroll. A `cond` with a clause in front, whatever the clauses after it, is
an `if` with the rest of the clauses as alternate; an `and` with two operands or more is an `if`
that goes on with the rest of them or is false; an `and` or `or` with one operand is that operand.
Where the operands of an `or` or an `and` are evaluated up to one that stops it, by being true or
false respectively or by failing, the form ends as this operand does, whatever the operands behind
it are. -/
theorem conditional_forms_unroll :
    (∀ p r clauses, (keywordForm .cond (.list [p, r] :: clauses)).Equivalent
      (keywordForm .ifElse [p, r, keywordForm .cond clauses])) ∧
    (∀ e e' es, (operatorForm .and (e :: e' :: es)).Equivalent
      (keywordForm .ifElse [e, operatorForm .and (e' :: es), .boolean false])) ∧
    (∀ e, (operatorForm .and [e]).Equivalent e ∧ (operatorForm .or [e]).Equivalent e) ∧
    ∀ f es m o,
      (Eval.StopsWith (·.isTruthy) f es m o → ∀ rest o',
        (operatorForm .or (es ++ rest)).Yields f m o' ↔ o' = o) ∧
      (Eval.StopsWith (!·.isTruthy) f es m o → ∀ rest o',
        (operatorForm .and (es ++ rest)).Yields f m o' ↔ o' = o) := by
  refine ⟨Expr.cond_equivalent_if, Expr.and_equivalent_if, fun e => ⟨?_, ?_⟩,
    fun f es m o => ⟨?_, ?_⟩⟩
  · exact Expr.single_equivalent (.inl rfl) e
  · exact Expr.single_equivalent (.inr rfl) e
  · exact fun h => h.yields_iff fun n => Eval.disjunction_eq_seek
  · exact fun h => h.yields_iff fun n => Eval.conjunction_eq_seek (.boolean true)

/-- An operand that writes is false, the next one fails, and neither an unbound name nor an empty
form behind them is noticed. -/
theorem failing_operand_hides_rest :
    let shown : Expr :=
      .list [.symbol "begin", .list [.symbol "display", .integer 1], .boolean false]
    let failing : Expr := .list [.symbol "car", .null]
    let m : Machine := Session.start (.ofLines [])
    ∃ m', m'.terminal.output = "1" ∧
      Eval.StopsWith (·.isTruthy) 0 [shown, failing] m (.error (.emptyList .car) m') ∧
      ∀ rest o', (Expr.operatorForm .or ([shown, failing] ++ rest)).Yields 0 m o' ↔
        o' = .error (.emptyList .car) m' := by
  intro shown failing m
  have hshown : ∃ m', m'.terminal.output = "1" ∧ shown.Yields 0 m (.result (.boolean false) m') :=
    ⟨_, rfl, nofun, 3, rfl⟩
  obtain ⟨m', houtput, hshown⟩ := hshown
  have hstop : Eval.StopsWith (·.isTruthy) 0 [shown, failing] m (.error (.emptyList .car) m') :=
    .later hshown rfl (.failed ⟨nofun, 2, rfl⟩)
  exact ⟨m', houtput, hstop, (conditional_forms_unroll.2.2.2 0 _ m _).1 hstop⟩

end LexicalLisp
