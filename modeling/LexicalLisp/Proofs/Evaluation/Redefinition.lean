import LexicalLisp.Proofs.Evaluation.BindsOnce
import LexicalLisp.Proofs.Evaluation.Course

/-!
# Names that are bound already

Where a part of a form fails because of a name, the form fails with the same error. What remains
are the errors that a form has of its own. That a name is bound already is one of a definition, of
a `let`, or else of a call, if the frame of the call cannot be built.
-/

namespace LexicalLisp

namespace Eval

variable {ev : Evaluator} {f : FrameId} {es : List Expr} {m m' : Machine} {cause : EvalError}

/-- A search fails where the turn of an expression comes that fails. -/
theorem seek_eq_error_iff {stops : Value → Bool} {last : Value} :
    seek ev f stops last es m = .error cause m' ↔
      ∃ e m₁, Reaches ev f stops es m e m₁ ∧ ev e f m₁ = .error cause m' := by
  induction es generalizing last m with
  | nil =>
    constructor
    · nofun
    · rintro ⟨e, m₁, ⟨⟩, -⟩
  | cons d es ih =>
    rw [seek, Run.bind_eq_error_iff]
    constructor
    · rintro (hd | ⟨v, m₁, hd, hrest⟩)
      · exact ⟨d, m, .first, hd⟩
      · cases hstop : stops v with
        | true => simp [hstop] at hrest
        | false =>
          obtain ⟨e, m₂, hreach, he⟩ := ih.mp (by simpa [hstop] using hrest)
          exact ⟨e, m₂, .later hd hstop hreach, he⟩
    · rintro ⟨e, m₂, hreach, he⟩
      cases hreach with
      | first => exact .inl he
      | later hd hstop hreach =>
        refine .inr ⟨_, _, hd, ?_⟩
        simpa [hstop] using ih.mpr ⟨e, m₂, hreach, he⟩

/-- Operands that are all evaluated are a search for what does not exist. -/
theorem inOrder_eq_seek (last : Value) (es : List Expr) :
    inOrder ev f last es = seek ev f (fun _ => false) last es := by
  induction es generalizing last with
  | nil => rfl
  | cons e es ih => exact congrArg (ev e f >>= ·) (funext fun v => ih v)

theorem inOrder_eq_operands (last : Value) (es : List Expr) :
    inOrder ev f last es = operands ev f es >>= fun vs => pure (vs.getLastD last) := by
  induction es generalizing last with
  | nil => rfl
  | cons e es ih =>
    simp only [inOrder, operands, ih, bind_assoc, pure_bind]
    refine congrArg (ev e f >>= ·) (funext fun v => congrArg (operands ev f es >>= ·) ?_)
    exact funext fun vs => congrArg pure (List.getLastD_cons ..).symm

theorem inOrder_eq_error_iff {last : Value} : inOrder ev f last es m = .error cause m' ↔
    ∃ e m₁, Reaches ev f (fun _ => false) es m e m₁ ∧ ev e f m₁ = .error cause m' := by
  rw [inOrder_eq_seek, seek_eq_error_iff]

theorem operands_eq_error_iff : operands ev f es m = .error cause m' ↔
    ∃ e m₁, Reaches ev f (fun _ => false) es m e m₁ ∧ ev e f m₁ = .error cause m' := by
  have hinOrder : inOrder ev f .void es m = .error cause m' ↔ _ := inOrder_eq_error_iff
  rw [← hinOrder, inOrder_eq_operands, Run.bind_eq_error_iff]
  simp

/-- Where the expressions of a binding list are all evaluated, the list may still be malformed
behind them; this is no error about a name. -/
theorem bindings_eq_error_iff {binders : List Expr} {name : NameError} :
    bindings ev f binders m = .error (.name name) m' ↔
      operands ev f (Expr.boundExprs binders) m = .error (.name name) m' := by
  fun_induction Expr.boundExprs binders generalizing m with
  | case1 x e binders ih =>
    simp [bindings, operands, Run.bind_eq_error_iff, ih, -bind_pure_comp]
  | case2 binders hshape =>
    cases binders with
    | nil => simp [bindings, operands]
    | cons binder binders =>
      rw [bindings]
      · simp [operands]
      · exact fun x e heq => hshape x e binders (congrArg (· :: binders) heq)

theorem names_of_bindings {binders : List Expr} {pairs : List (String × Value)}
    (h : bindings ev f binders m = .result pairs m') :
    Bindings.names pairs = Expr.boundNames binders := by
  induction binders generalizing pairs m with
  | nil =>
    cases h
    rfl
  | cons binder binders ih =>
    -- The list is matched before the run gets a machine.
    generalize hrun : bindings ev f (binder :: binders) = run at h
    unfold bindings at hrun
    split at hrun
    · cases ‹_ :: _ = []›
    · rename_i x e rest heq
      obtain ⟨rfl, rfl⟩ := List.cons.inj heq
      subst hrun
      obtain ⟨v, m₁, -, hrest⟩ := Run.bind_eq_result_iff.mp h
      obtain ⟨pairs, m₂, hpairs, hpure⟩ := Run.bind_eq_result_iff.mp hrest
      cases hpure
      exact congrArg (x :: ·) (ih hpairs)
    · subst hrun
      cases h

theorem operator_eq_error_iff {op : Operator} {name : NameError} :
    operator ev f op es m = .error (.name name) m' ↔
      ∃ e m₁, Reaches ev f op.stopsAt es m e m₁ ∧ ev e f m₁ = .error (.name name) m' := by
  -- What is wrong with operands, if anything, is no name.
  have happly : op.isLazy = false → ∀ vs m₁,
      (Run.ofExcept (op.apply vs) : Run EvalError Value) m₁ ≠ .error (.name name) m' := by
    intro hop vs m₁ h
    cases hvs : op.apply vs with
    | ok v =>
      rw [hvs] at h
      cases h
    | error e =>
      rw [hvs] at h
      cases h
      exact Operator.isLocal_of_apply hop hvs
  have hstrict : op.isLazy = false →
      ((operands ev f es >>= fun vs => Run.ofExcept (op.apply vs)) m = .error (.name name) m' ↔
        ∃ e m₁, Reaches ev f (fun _ => false) es m e m₁ ∧ ev e f m₁ = .error (.name name) m') := by
    intro hop
    rw [Run.bind_eq_error_iff, operands_eq_error_iff]
    simp [happly hop]
  cases op with
  | and =>
    rw [operator, conjunction_eq_seek]
    exact seek_eq_error_iff
  | or =>
    rw [operator, disjunction_eq_seek]
    exact seek_eq_error_iff
  | _ => exact hstrict rfl

end Eval

namespace Run

variable {f : FrameId} {m m' : Machine} {name : NameError}

theorem define_eq_error_iff {x : String} {v : Value} : define f x v m = .error (.name name) m' ↔
    (m.store.bindingsOf f).binds x = true ∧ name = .alreadyDefined x ∧ m' = m := by
  obtain ⟨s, t⟩ := m
  cases hbinds : (s.bindingsOf f).binds x <;>
    simp [define, onStore, Store.define, hbinds, eq_comm]

theorem eq_unbound_of_assign_error {x : String} {v : Value}
    (h : assign f x v m = .error (.name name) m') : name = .unbound x := by
  obtain ⟨s, t⟩ := m
  cases hnearest : s.nearest? f x <;> simp [assign, onStore, Store.assign, hnearest] at h
  exact h.1.symm

theorem eq_unbound_of_lookup_error {x : String} (h : lookup f x m = .error (.name name) m') :
    name = .unbound x := by
  unfold lookup Store.lookup at h
  cases hfind : (m.store.chain f).findSome? fun g => (m.store.bindingsOf g).lookup x <;>
    simp [hfind] at h
  exact h.1.symm

theorem write_ne_error (text : String) : write text m ≠ .error (.name name) m' := by
  obtain ⟨s, t⟩ := m
  rcases hwrite : t.write text with ⟨_ | _, _⟩ <;> simp [write, hwrite]

theorem readLine_ne_error : readLine m ≠ .error (.name name) m' := by
  obtain ⟨s, t⟩ := m
  rcases hread : t.readLine with ⟨_ | _ | _, _⟩ <;> simp [readLine, hread]

theorem pushFrame_eq_error_iff {pairs : List (String × Value)} :
    pushFrame f pairs m = .error (.name name) m' ↔
      Bindings.extend [] pairs = .error name ∧ m' = m := by
  obtain ⟨s, t⟩ := m
  cases hextend : Bindings.extend [] pairs <;>
    simp [pushFrame, onStore, Store.pushPairs, hextend, eq_comm]

end Run

namespace Eval

variable {f : FrameId} {es : List Expr} {m m' : Machine} {name : NameError}

theorem lambda_ne_error : lambda f es m ≠ .error (.name name) m' := by
  unfold lambda
  split
  · rename_i parameters body
    cases params [] parameters <;> simp [Run.makeClosure, Run.onStore, Run.bind_apply]
  · simp

theorem readLine_ne_error : readLine es m ≠ .error (.name name) m' := by
  unfold readLine
  split
  · simp [Run.bind_eq_error_iff, Run.readLine_ne_error, -bind_pure_comp]
  · simp

end Eval

namespace Point

open LexicalLisp.Expr (keywordForm operatorForm)

/-- At the point the name is bound though it is bound already: by a definition in a frame that
binds it, or by a `let` that has it further in front among its names too. The machine is the one
that the evaluation of the values leaves. -/
inductive Redefines : Point → String → Machine → Prop
  | define {n : Nat} {x : String} {e : Expr} {f : FrameId} {m m' : Machine} {v : Value} :
    eval n e f m = .result v m' → (m'.store.bindingsOf f).binds x = true →
    Redefines ⟨n + 1, keywordForm .define [.symbol x, e], f, m⟩ x m'
  | letIn {n : Nat} {x : String} {binders : List Expr} {body : Expr} {f : FrameId}
    {m m' : Machine} {pairs : List (String × Value)} :
    Eval.bindings (eval n) f binders m = .result pairs m' →
    Bindings.FirstRepeated x (Expr.boundNames binders) →
    Redefines ⟨n + 1, keywordForm .letIn [.list binders, body], f, m⟩ x m'

section Errors

variable {n : Nat} {f : FrameId} {m m' : Machine} {es : List Expr} {p q : Point}
  {name : NameError}

theorem outcome_keywordForm (k : Keyword) : outcome ⟨n + 1, keywordForm k es, f, m⟩ =
    Eval.keyword (eval n) f k es m := congrFun (Eval.eval_keywordForm n k es f) m

theorem outcome_operatorForm (op : Operator) : outcome ⟨n + 1, operatorForm op es, f, m⟩ =
    Eval.operator (eval n) f op es m := congrFun (Eval.eval_operatorForm n op es f) m

theorem outcome_call {head : Expr} (hop : head.operator? = none) (hk : head.keyword? = none) :
    outcome ⟨n + 1, .list (head :: es), f, m⟩ = Eval.call (eval n) f head es m :=
  congrFun (Eval.form_call hop hk) m

theorem Calls.outcome_eq {c : Closure} {self? : Option String} {args : List Value}
    (h : p.Calls c self? args m') : p.outcome =
      (Run.pushCall c self? args >>= eval (p.depth - 1) c.body) m' := by
  cases h with
  | @intro n head es f m m₁ _ _ _ hop hk hhead hargs hlength =>
    calc outcome ⟨n + 1, .list (head :: es), f, m⟩
      _ = Eval.call (eval n) f head es m := outcome_call hop hk
      _ = (if args.length = c.params.length then Eval.enter (eval n) c head args
            else Run.fail (.argumentCount c.params.length args.length)) m' :=
        (Run.bind_of_result hhead).trans (Run.bind_of_result hargs)
      _ = Eval.enter (eval n) c head args m' := by rw [if_pos hlength]

theorem Next.outcome_eq_error (h : p.Next q) (hq : q.outcome = .error (.name name) m') :
    p.outcome = .error (.name name) m' := by
  induction h with
  | operand hreach =>
    rw [outcome_operatorForm]
    exact Eval.operator_eq_error_iff.mpr ⟨_, _, hreach, hq⟩
  | condition =>
    rw [outcome_keywordForm]
    exact Run.bind_of_error hq
  | @branch _ _ _ _ _ _ _ v hv =>
    rw [outcome_keywordForm]
    refine (Run.bind_of_result hv).trans ?_
    cases htruth : v.isTruthy <;> simpa [outcome, htruth] using hq
  | predicate =>
    rw [outcome_keywordForm]
    exact Run.bind_of_error hq
  | consequence hv htruth =>
    rw [outcome_keywordForm]
    refine (Run.bind_of_result hv).trans ?_
    rw [if_pos htruth]
    exact hq
  | nextClause hv htruth _ ih =>
    rw [outcome_keywordForm] at ih ⊢
    refine (Run.bind_of_result hv).trans ?_
    rw [if_neg (Bool.eq_false_iff.mp htruth)]
    exact ih hq
  | bound hreach =>
    rw [outcome_keywordForm]
    refine Run.bind_of_error (Eval.bindings_eq_error_iff.mpr ?_)
    exact Eval.operands_eq_error_iff.mpr ⟨_, _, hreach, hq⟩
  | letBody hpairs hinner =>
    rw [outcome_keywordForm]
    refine (Run.bind_of_result hpairs).trans ?_
    exact (Run.bind_of_result hinner).trans hq
  | newValue hk =>
    rw [outcome_keywordForm]
    rcases hk with rfl | rfl <;> exact Run.bind_of_error hq
  | member hreach =>
    rw [outcome_keywordForm]
    exact Eval.inOrder_eq_error_iff.mpr ⟨_, _, hreach, hq⟩
  | shown hk =>
    rw [outcome_keywordForm]
    rcases hk with rfl | rfl <;> exact Run.bind_of_error hq
  | head hop hk =>
    rw [outcome_call hop hk]
    exact Run.bind_of_error hq
  | argument hop hk hhead hreach =>
    rw [outcome_call hop hk]
    refine (Run.bind_of_result hhead).trans ?_
    exact Run.bind_of_error (Eval.operands_eq_error_iff.mpr ⟨_, _, hreach, hq⟩)
  | callBody hcall hinner =>
    rw [hcall.outcome_eq]
    exact (Run.bind_of_result hinner).trans hq

theorem Redefines.outcome_eq {x : String} (h : p.Redefines x m') :
    p.outcome = .error (.name (.alreadyDefined x)) m' := by
  cases h with
  | define hv hbinds =>
    rw [outcome_keywordForm]
    refine (Run.bind_of_result hv).trans (Run.bind_of_error ?_)
    exact Run.define_eq_error_iff.mpr ⟨hbinds, rfl, rfl⟩
  | letIn hpairs hrepeated =>
    rw [outcome_keywordForm]
    refine (Run.bind_of_result hpairs).trans (Run.bind_of_error ?_)
    rw [← Eval.names_of_bindings hpairs] at hrepeated
    exact Run.pushFrame_eq_error_iff.mpr ⟨Bindings.extend_nil_eq_error_iff.mpr hrepeated, rfl⟩

theorem exists_of_ifElse_error (h : Eval.ifElse (eval n) f es m = .error (.name name) m') :
    ∃ q, Next ⟨n + 1, keywordForm .ifElse es, f, m⟩ q ∧ q.outcome = .error (.name name) m' := by
  unfold Eval.ifElse at h
  split at h
  · rcases Run.bind_eq_error_iff.mp h with hc | ⟨v, m₁, hv, hbranch⟩
    · exact ⟨_, .condition, hc⟩
    · refine ⟨_, .branch hv, ?_⟩
      cases htruth : v.isTruthy <;> simpa [outcome, htruth] using hbranch
  · cases h

theorem exists_of_cond_error {clauses : List Expr}
    (h : Eval.cond (eval n) f clauses m = .error (.name name) m') :
    ∃ q, Next ⟨n + 1, keywordForm .cond clauses, f, m⟩ q ∧
      q.outcome = .error (.name name) m' := by
  induction clauses generalizing m with
  | nil => cases h
  | cons clause clauses ih =>
    generalize hrun : Eval.cond (eval n) f (clause :: clauses) = run at h
    unfold Eval.cond at hrun
    split at hrun
    · cases ‹_ :: _ = []›
    · rename_i p r rest heq
      obtain ⟨rfl, rfl⟩ := List.cons.inj heq
      subst hrun
      rcases Run.bind_eq_error_iff.mp h with hp | ⟨v, m₁, hv, hrest⟩
      · exact ⟨_, .predicate, hp⟩
      · cases htruth : v.isTruthy with
        | true =>
          rw [if_pos htruth] at hrest
          exact ⟨_, .consequence hv htruth, hrest⟩
        | false =>
          rw [if_neg (Bool.eq_false_iff.mp htruth)] at hrest
          obtain ⟨q, hnext, hq⟩ := ih hrest
          exact ⟨q, .nextClause hv htruth hnext, hq⟩
    · subst hrun
      cases h

theorem origin_of_letIn_error {x : String}
    (h : Eval.letIn (eval n) f es m = .error (.name (.alreadyDefined x)) m') :
    Redefines ⟨n + 1, keywordForm .letIn es, f, m⟩ x m' ∨
      ∃ q, Next ⟨n + 1, keywordForm .letIn es, f, m⟩ q ∧
        q.outcome = .error (.name (.alreadyDefined x)) m' := by
  unfold Eval.letIn at h
  split at h
  · rcases Run.bind_eq_error_iff.mp h with hbound | ⟨pairs, m₁, hpairs, hrest⟩
    · obtain ⟨e, m₁, hreach, he⟩ :=
        Eval.operands_eq_error_iff.mp (Eval.bindings_eq_error_iff.mp hbound)
      exact .inr ⟨_, .bound hreach, he⟩
    · rcases Run.bind_eq_error_iff.mp hrest with hpush | ⟨inner, m₂, hinner, hbody⟩
      · obtain ⟨hextend, rfl⟩ := Run.pushFrame_eq_error_iff.mp hpush
        have hrepeated := Bindings.extend_nil_eq_error_iff.mp hextend
        rw [Eval.names_of_bindings hpairs] at hrepeated
        exact .inl (.letIn hpairs hrepeated)
      · exact .inr ⟨_, .letBody hpairs hinner, hbody⟩
  · cases h

theorem thenVoid_eq_error_iff {x : Run EvalError Value} {act : Value → Run EvalError Unit}
    {cause : EvalError} :
    (do
      let v ← x
      act v
      return Value.void) m = .error cause m' ↔
      x m = .error cause m' ∨ ∃ v m₁, x m = .result v m₁ ∧ act v m₁ = .error cause m' := by
  rw [Run.bind_eq_error_iff]
  refine or_congr_right (exists_congr fun v => exists_congr fun m₁ => and_congr_right fun _ => ?_)
  rw [Run.bind_eq_error_iff]
  constructor
  · rintro (hact | ⟨_, _, _, hpure⟩)
    · exact hact
    · cases hpure
  · exact .inl

theorem origin_of_define_error {x : String}
    (h : Eval.define (eval n) f es m = .error (.name (.alreadyDefined x)) m') :
    Redefines ⟨n + 1, keywordForm .define es, f, m⟩ x m' ∨
      ∃ q, Next ⟨n + 1, keywordForm .define es, f, m⟩ q ∧
        q.outcome = .error (.name (.alreadyDefined x)) m' := by
  unfold Eval.define at h
  split at h
  · rcases thenVoid_eq_error_iff.mp h with he | ⟨v, m₁, hv, hdefine⟩
    · exact .inr ⟨_, .newValue (.inl rfl), he⟩
    · obtain ⟨hbinds, ⟨⟩, rfl⟩ := Run.define_eq_error_iff.mp hdefine
      exact .inl (.define hv hbinds)
  · cases h

theorem exists_of_set_error {x : String}
    (h : Eval.set (eval n) f es m = .error (.name (.alreadyDefined x)) m') :
    ∃ q, Next ⟨n + 1, keywordForm .set es, f, m⟩ q ∧
      q.outcome = .error (.name (.alreadyDefined x)) m' := by
  unfold Eval.set at h
  split at h
  · rcases thenVoid_eq_error_iff.mp h with he | ⟨v, m₁, hv, hassign⟩
    · exact ⟨_, .newValue (.inr rfl), he⟩
    · cases Run.eq_unbound_of_assign_error hassign
  · cases h

theorem exists_of_output_error {k : Keyword} (hk : k = .display ∨ k = .writeLine) {ending : String}
    (h : Eval.output (eval n) f ending es m = .error (.name name) m') :
    ∃ q, Next ⟨n + 1, keywordForm k es, f, m⟩ q ∧ q.outcome = .error (.name name) m' := by
  unfold Eval.output at h
  split at h
  · rcases thenVoid_eq_error_iff.mp h with he | ⟨v, m₁, hv, hwrite⟩
    · exact ⟨_, .shown hk, he⟩
    · exact absurd hwrite (Run.write_ne_error _)
  · cases h

theorem exists_of_call_error {head : Expr} (hop : head.operator? = none)
    (hk : head.keyword? = none)
    (hcalls : ∀ c self? args m₁, Calls ⟨n + 1, .list (head :: es), f, m⟩ c self? args m₁ →
      ∃ inner m₂, Run.pushCall c self? args m₁ = .result inner m₂)
    (h : Eval.call (eval n) f head es m = .error (.name name) m') :
    ∃ q, Next ⟨n + 1, .list (head :: es), f, m⟩ q ∧ q.outcome = .error (.name name) m' := by
  rcases Run.bind_eq_error_iff.mp h with hhead | ⟨v, m₁, hv, hrest⟩
  · exact ⟨_, .head hop hk, hhead⟩
  · split at hrest
    · rename_i c
      rcases Run.bind_eq_error_iff.mp hrest with hargs | ⟨args, m₂, hargs, hrest⟩
      · obtain ⟨e, m₂, hreach, he⟩ := Eval.operands_eq_error_iff.mp hargs
        exact ⟨_, .argument hop hk hv hreach, he⟩
      · split at hrest
        · rename_i hlength
          have hcall := Calls.intro hop hk hv hargs hlength
          obtain ⟨inner, m₃, hinner⟩ := hcalls _ _ _ _ hcall
          exact ⟨_, .callBody hcall hinner, (Run.bind_of_result hinner).symm.trans hrest⟩
        · cases hrest
    · cases hrest

/-- That a name is bound already is an error of the point itself or of one that comes next, unless
the frame of a call cannot be built. -/
theorem origin_of_alreadyDefined {x : String}
    (hcalls : ∀ c self? args m₁, p.Calls c self? args m₁ →
      ∃ inner m₂, Run.pushCall c self? args m₁ = .result inner m₂)
    (h : p.outcome = .error (.name (.alreadyDefined x)) m') :
    p.Redefines x m' ∨ ∃ q, p.Next q ∧ q.outcome = .error (.name (.alreadyDefined x)) m' := by
  obtain ⟨_ | n, e, f, m⟩ := p
  · cases h
  change Eval.step (eval n) e f m = _ at h
  unfold Eval.step at h
  split at h
  iterate 4 cases h
  · split at h
    · cases h
    · cases Run.eq_unbound_of_lookup_error h
  · cases h
  · rename_i head es
    cases hop : head.operator? with
    | some op =>
      obtain rfl := Expr.eq_symbol_of_operator? hop
      rw [Eval.form_operator hop] at h
      obtain ⟨e, m₁, hreach, he⟩ := Eval.operator_eq_error_iff.mp h
      exact .inr ⟨_, .operand hreach, he⟩
    | none =>
      cases hk : head.keyword? with
      | none =>
        rw [Eval.form_call hop hk] at h
        exact .inr (exists_of_call_error hop hk hcalls h)
      | some k =>
        obtain rfl := Expr.eq_symbol_of_keyword? hk
        rw [Eval.form_keyword] at h
        cases k with
        | ifElse => exact .inr (exists_of_ifElse_error h)
        | cond => exact .inr (exists_of_cond_error h)
        | letIn => exact origin_of_letIn_error h
        | define => exact origin_of_define_error h
        | lambda => exact absurd h Eval.lambda_ne_error
        | set => exact .inr (exists_of_set_error h)
        | begin =>
          obtain ⟨e, m₁, hreach, he⟩ := Eval.inOrder_eq_error_iff.mp h
          exact .inr ⟨_, .member hreach, he⟩
        | display => exact .inr (exists_of_output_error (.inl rfl) h)
        | writeLine => exact .inr (exists_of_output_error (.inr rfl) h)
        | readLine => exact absurd h Eval.readLine_ne_error

theorem Next.depth_eq (h : p.Next q) : p.depth = q.depth + 1 := by
  induction h with
  | nextClause _ _ _ ih => exact ih
  | _ => rfl

theorem ComesTo.outcome_eq_error (h : p.ComesTo q) (hq : q.outcome = .error (.name name) m') :
    p.outcome = .error (.name name) m' := by
  induction h using Relation.ReflTransGen.head_induction_on with
  | refl => exact hq
  | head hnext _ ih => exact hnext.outcome_eq_error ih

/-- Where all frames of calls can be built, an evaluation ends with the error that a name is bound
already if and only if it comes to a point that has this error of its own. -/
theorem outcome_eq_alreadyDefined_iff {x : String}
    (hcalls : ∀ q, p.ComesTo q → ∀ c self? args m₁, q.Calls c self? args m₁ →
      ∃ inner m₂, Run.pushCall c self? args m₁ = .result inner m₂) :
    p.outcome = .error (.name (.alreadyDefined x)) m' ↔ ∃ q, p.ComesTo q ∧ q.Redefines x m' := by
  constructor
  · intro h
    induction hdepth : p.depth generalizing p with
    | zero =>
      rcases origin_of_alreadyDefined (hcalls p .refl) h with hp | ⟨q, hnext, -⟩
      · exact ⟨p, .refl, hp⟩
      · have hlevel := hnext.depth_eq
        omega
    | succ n ih =>
      rcases origin_of_alreadyDefined (hcalls p .refl) h with hp | ⟨q, hnext, hq⟩
      · exact ⟨p, .refl, hp⟩
      · have hlevel := hnext.depth_eq
        obtain ⟨r, hr, hx⟩ := ih (fun r hr => hcalls r (.head hnext hr)) hq (by omega)
        exact ⟨r, .head hnext hr, hx⟩
  · rintro ⟨q, hq, hx⟩
    exact ComesTo.outcome_eq_error hq hx.outcome_eq

end Errors

end Point

end LexicalLisp
