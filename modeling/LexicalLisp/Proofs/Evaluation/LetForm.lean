import LexicalLisp.Proofs.Evaluation.Rules
import LexicalLisp.Proofs.Evaluation.WellFormed
import LexicalLisp.Proofs.Evaluation.BindsOnce
import LexicalLisp.Proofs.Store.Renumbering

/-!
# A `let` is the call of a `lambda`

A `let` form evaluates its expressions and adds a frame with their values; the call of a `lambda`
form with the same names and body makes a closure first, evaluates the same expressions as
operands and adds the same frame. So the two differ by the number that the closure takes away.
Evaluation does to a renumbered machine what it does to the original one, hence all later closures
get the next number instead of their own, and nothing else is different.
-/

namespace LexicalLisp

open Value (renumberAll related_renumber_iff)

def skipNumber (n i : Nat) : Nat := if i < n then i else i + 1

section SkipNumber

variable {n i j : Nat}

theorem skipNumber_of_lt (h : i < n) : skipNumber n i = i := if_pos h

theorem skipNumber_of_le (h : n ≤ i) : skipNumber n i = i + 1 := if_neg (Nat.not_lt_of_le h)

theorem skipNumber_inj : skipNumber n i = skipNumber n j ↔ i = j := by
  unfold skipNumber
  split <;> split <;> omega

end SkipNumber

section Relations

variable {r : ClosureId → ClosureId}

theorem renumber_of_pairs {ps qs : List (String × Value)}
    (h : List.Forall₂ (fun p q => p.1 = q.1 ∧ Value.Related (fun c d => d = c.renumber r) p.2 q.2)
      ps qs) : qs = Bindings.renumber r ps := by
  induction h with
  | nil => rfl
  | @cons p q _ _ hpq _ ih =>
    obtain ⟨name, v⟩ := p
    obtain ⟨name', w⟩ := q
    obtain ⟨rfl, hvw⟩ : name = name' ∧ Value.Related _ v w := hpq
    rw [related_renumber_iff.mp hvw, ih]
    rfl

end Relations

/-- Two runs of which the second one leaves out a number that the first one has still to give. -/
def skipping (n : ClosureId) : Simulation where
  World := Unit
  le _ _ := True
  stores _ s t := n ≤ s.closureCount ∧ t = s.renumber (skipNumber n)
  terminals := Eq
  closures _ c d := d = c.renumber (skipNumber n)
  tolerates _ := True
  le_refl _ := trivial
  le_trans _ _ _ _ _ := trivial
  closures_mono _ _ _ h := h
  keepsParams _ c d h := by rw [h]; rfl
  keepsIdentity := by
    rintro - c _ c' _ rfl rfl
    exact skipNumber_inj.symm
  tolerates_local _ := trivial

namespace skipping

variable {n : ClosureId} {α : Type} {s : Store}

theorem push_acts (hs : n ≤ s.closureCount) (outer : Option FrameId)
    (b? : Except NameError Bindings) :
    (skipping n).Acts () (fun _ => Eq) (s.pushResult outer b?)
      ((s.renumber (skipNumber n)).pushResult outer
        (b?.map (Bindings.renumber (skipNumber n)))) := by
  cases b? with
  | error e => exact .error (u := ()) trivial ⟨hs, rfl⟩ trivial
  | ok b =>
    have hsize : (s.renumber (skipNumber n)).frames.size = s.frames.size := Store.size_renumber
    exact .ok (u := ()) trivial ⟨hs, Store.push_renumber outer b⟩ hsize.symm

/-- Every action does to the renumbered store what it does to the original one. -/
theorem sound (n : ClosureId) : (skipping n).Sound (fun _ => Eq) (fun _ => True) where
  frames_mono _ _ _ h := h
  parts _ _ _ := trivial
  body h := ⟨by rw [h]; rfl, trivial⟩
  lookup := by
    rintro _ f _ name rfl - -
    refine Simulation.related_lookup ?_
    rintro _ s _ - ⟨hs, rfl⟩
    rw [Store.lookup_renumber]
    cases s.lookup f name with
    | error e => exact .error (u := ()) trivial ⟨hs, rfl⟩ trivial
    | ok v => exact .ok (u := ()) trivial ⟨hs, rfl⟩ (related_renumber_iff.mpr rfl)
  define := by
    rintro _ f _ name e v _ rfl - hv
    obtain rfl := related_renumber_iff.mp hv
    refine Simulation.related_onStore ?_
    rintro _ s _ - ⟨hs, rfl⟩
    unfold Store.define
    rw [Store.bindingsOf_renumber, Bindings.binds_renumber]
    split
    · exact .error (u := ()) trivial ⟨hs, rfl⟩ trivial
    · exact .ok (u := ()) trivial ⟨hs, Store.bind_renumber v⟩ trivial
  assign := by
    rintro _ f _ name e v _ rfl - hv
    obtain rfl := related_renumber_iff.mp hv
    refine Simulation.related_onStore ?_
    rintro _ s _ - ⟨hs, rfl⟩
    unfold Store.assign
    rw [Store.nearest_renumber]
    split
    · exact .ok (u := ()) trivial ⟨hs, Store.bind_renumber v⟩ trivial
    · exact .error (u := ()) trivial ⟨hs, rfl⟩ trivial
  openLet := by
    rintro _ f _ ps _ rfl hps
    obtain rfl := renumber_of_pairs hps
    refine Simulation.related_onStore ?_
    rintro _ s _ - ⟨hs, rfl⟩
    rw [Store.pushPairs_eq, Store.pushPairs_eq, Bindings.extend_nil_renumber]
    exact push_acts hs _ _
  openCall := by
    rintro _ c _ self? vs _ rfl hvs -
    obtain rfl := Value.eq_renumberAll hvs
    refine Simulation.related_onStore ?_
    rintro _ s _ - ⟨hs, rfl⟩
    rw [Store.pushCall_eq, Store.pushCall_eq, Store.callBindings_renumber]
    exact push_acts hs _ _
  makeClosure := by
    rintro _ f _ params body rfl - -
    refine Simulation.related_onStore ?_
    rintro _ s _ - ⟨hs, rfl⟩
    -- The number that the renumbered store gives out is the next one, renumbered.
    have hcount :
        (s.renumber (skipNumber n)).closureCount + 1 = skipNumber n (s.closureCount + 1) := by
      rw [Store.renumber, skipNumber_of_le hs, skipNumber_of_le (Nat.le_succ_of_le hs)]
    exact .ok (u := ()) trivial ⟨Nat.le_succ_of_le hs, congrArg (Store.mk _) hcount⟩ rfl
  write := Simulation.related_write rfl (fun _ => trivial) _
  readLine := Simulation.related_readLine rfl (fun _ => trivial) trivial

end skipping

/-- Evaluation does to a machine without a number what it does to the original one. -/
theorem eval_renumber (depth : Nat) (e : Expr) (f : FrameId) {n : ClosureId} {m : Machine}
    (hm : n ≤ m.store.closureCount) : eval depth e f (m.renumber (skipNumber n)) =
      (eval depth e f m).renumber (skipNumber n) := by
  have htreats : (skipping n).Treats (eval depth) (eval depth) f f () e :=
    (skipping.sound n).eval_related depth rfl trivial
  have hends := htreats () m (m.renumber (skipNumber n)) trivial ⟨⟨hm, rfl⟩, rfl⟩
  generalize eval depth e f m = o, eval depth e f (m.renumber (skipNumber n)) = o' at hends ⊢
  cases hends with
  | @result _ v w m₁ m₂ _ hm' hvw =>
    obtain ⟨s, t⟩ := m₁
    obtain ⟨_, _⟩ := m₂
    obtain ⟨⟨-, rfl⟩, rfl⟩ := hm'
    rw [related_renumber_iff.mp hvw]
    rfl
  | @error _ err m₁ m₂ _ hm' _ =>
    obtain ⟨s, t⟩ := m₁
    obtain ⟨_, _⟩ := m₂
    obtain ⟨⟨-, rfl⟩, rfl⟩ := hm'
    rfl
  | outOfFuel => rfl

section Forms

def Expr.binders (bs : List (String × Expr)) : List Expr :=
  bs.map fun b => .list [.symbol b.1, b.2]

/-- `(let ((x e) ...) body)` -/
def Expr.letForm (bs : List (String × Expr)) (body : Expr) : Expr :=
  .list [.symbol Keyword.letIn.name, .list (binders bs), body]

/-- `(lambda (x ...) body)` -/
def Expr.lambdaForm (names : List String) (body : Expr) : Expr :=
  .list [.symbol Keyword.lambda.name, .list (names.map .symbol), body]

variable {ev : Evaluator} {f : FrameId} {α : Type}

theorem Eval.params_symbols {names : List String} (h : names.Nodup) :
    params [] (names.map Expr.symbol) = .ok names := by
  have hseen : ∀ seen, (seen ++ names).Nodup →
      params seen (names.map Expr.symbol) = .ok (seen ++ names) := by
    clear h
    induction names with
    | nil => simp [params]
    | cons name names ih =>
      intro seen hnodup
      have hnew : name ∉ seen := fun hmem =>
        (List.nodup_append.mp hnodup).2.2 name hmem name List.mem_cons_self rfl
      rw [List.map_cons, params, if_neg hnew, ih _ (by simpa using hnodup)]
      simp
  exact hseen [] h

theorem Eval.bindings_binders (bs : List (String × Expr)) :
    bindings ev f (Expr.binders bs) =
      (operands ev f (bs.map Prod.snd) >>= fun vs => pure ((bs.map Prod.fst).zip vs)) := by
  induction bs with
  | nil => rfl
  | cons b bs ih =>
    obtain ⟨name, e⟩ := b
    simp only [Expr.binders, List.map_cons] at ih ⊢
    simp only [bindings, operands, ih, bind_assoc, pure_bind]
    rfl

theorem Eval.operands_bind_congr {es : List Expr} {k l : List Value → Run EvalError α}
    (h : ∀ vs, vs.length = es.length → k vs = l vs) :
    operands ev f es >>= k = operands ev f es >>= l := by
  induction es generalizing k l with
  | nil => exact h [] rfl
  | cons e es ih =>
    simp only [operands, bind_assoc, pure_bind]
    refine congrArg _ (funext fun v => ih fun vs hvs => h (v :: vs) ?_)
    rw [List.length_cons, hvs, List.length_cons]

variable {bs : List (String × Expr)} {body : Expr}

/-- Both forms come down to this: the expressions are evaluated as operands, and a frame with
their values is added. -/
def Eval.letCore (ev : Evaluator) (f : FrameId) (bs : List (String × Expr)) (body : Expr) :
    Run EvalError Value := do
  let vs ← operands ev f (bs.map Prod.snd)
  let inner ← Run.pushFrame f ((bs.map Prod.fst).zip vs)
  ev body inner

theorem Eval.step_letForm (bs : List (String × Expr)) (body : Expr) :
    step ev (.letForm bs body) f = letCore ev f bs body := by
  rw [Expr.letForm, step, form_keyword, keyword, letIn, bindings_binders, bind_assoc]
  rfl

theorem Eval.step_lambdaForm {names : List String} (h : names.Nodup) (s : Store) (t : Terminal) :
    step ev (.lambdaForm names body) f ⟨s, t⟩ =
      .result (.closure ⟨s.closureCount, names, body, f⟩)
        ⟨{ s with closureCount := s.closureCount + 1 }, t⟩ := by
  rw [Expr.lambdaForm, step, form_keyword, keyword, lambda, params_symbols h]
  rfl

/-- A closure whose head is no name opens the same frame as a `let`. -/
theorem Run.pushCall_none (c : Closure) (args : List Value) :
    Run.pushCall c none args = Run.pushFrame c.frame (c.params.zip args) := by
  unfold pushCall pushFrame
  congr 1
  funext s
  unfold Store.pushCall
  split <;> simp_all

theorem Eval.step_call_lambdaForm (depth : Nat) (h : (bs.map Prod.fst).Nodup) (s : Store)
    (t : Terminal) :
    step (eval (depth + 1)) (.list (.lambdaForm (bs.map Prod.fst) body :: bs.map Prod.snd)) f
        ⟨s, t⟩ =
      letCore (eval (depth + 1)) f bs body ⟨{ s with closureCount := s.closureCount + 1 }, t⟩ := by
  have hlambda : eval (depth + 1) (.lambdaForm (bs.map Prod.fst) body) f ⟨s, t⟩ = _ :=
    step_lambdaForm h s t
  change call (eval (depth + 1)) f (.lambdaForm (bs.map Prod.fst) body) (bs.map Prod.snd) _ = _
  rw [call, Run.bind_apply, hlambda]
  refine congrFun (operands_bind_congr fun vs hvs => ?_) _
  have hcount : vs.length = (bs.map Prod.fst).length := by simpa using hvs
  simp only [if_pos hcount]
  rw [enter]
  exact congrArg (· >>= eval (depth + 1) body) (Run.pushCall_none _ vs)

theorem Eval.letCore_outOfFuel (bs : List (String × Expr)) (body : Expr) (m : Machine) :
    letCore (eval 0) f bs body m = .outOfFuel := by
  cases bs with
  | nil => rfl
  | cons b bs => rfl

end Forms

theorem Store.WellFormed.numbered {s : Store} (hs : s.WellFormed) (honce : s.BindsOnce) :
    s.Numbered := by
  rintro f ⟨name, v⟩ hentry c hc
  exact (hs.knows_held c ⟨f, name, v, Bindings.lookup_eq_of_mem (honce f) hentry, hc⟩).2

theorem Session.run_keeps_numbered (n : Nat) (program : List Expr) {f : FrameId} {m : Machine}
    (hm : m.store.WellFormed) (honce : m.store.BindsOnce) (hf : f < m.store.frames.size) :
    (run n program f m).Leaves fun m' => m'.store.Numbered :=
  ((run_keeps_wellFormed n program hm hf).and (run_bindsOnce n program f honce)).imp
    fun _ h => h.1.numbered h.2

/-- A `let` form with different names has the same value or error as the call of the `lambda` form
with these names and the expressions as operands. The call leaves the same terminal and the same
store, except that the closure it makes has taken the next number, which all later closures have
to leave out. -/
theorem let_is_call_of_lambda (depth : Nat) (bs : List (String × Expr))
    (hnames : (bs.map Prod.fst).Nodup) (body : Expr) (f : FrameId) {m : Machine}
    (hm : m.store.Numbered) :
    eval depth (.list (.lambdaForm (bs.map Prod.fst) body :: bs.map Prod.snd)) f m =
      (eval depth (.letForm bs body) f m).renumber (skipNumber m.store.closureCount) := by
  obtain ⟨s, t⟩ := m
  match depth with
  | 0 => rfl
  | 1 =>
    have hlet : eval 1 (.letForm bs body) f ⟨s, t⟩ = .outOfFuel := by
      rw [eval, Eval.step_letForm, Eval.letCore_outOfFuel]
    rw [hlet]
    rfl
  | depth + 2 =>
    have hskip : (⟨s, t⟩ : Machine).renumber (skipNumber s.closureCount) =
        ⟨{ s with closureCount := s.closureCount + 1 }, t⟩ := by
      rw [Machine.renumber, Store.renumber_eq hm fun _ => skipNumber_of_lt,
        skipNumber_of_le (Nat.le_refl _)]
    rw [← eval_renumber _ _ _ (Nat.le_refl _), hskip, eval, Eval.step_call_lambdaForm _ hnames,
      eval, Eval.step_letForm]

/-- The closure that the body returns is made first by the `let` and second by the call. -/
theorem lambda_takes_number_of_let :
    let p : Expr := .list [.symbol "lambda", .list [.symbol "y"], .symbol "x"]
    let m : Machine := Session.start (.ofLines [])
    ∃ m', eval 4 (.letForm [("x", .integer 1), ("p", p)] (.symbol "p")) 0 m =
        .result (.closure ⟨0, ["y"], .symbol "x", 0⟩) m' ∧
      eval 4 (.list [.lambdaForm ["x", "p"] (.symbol "p"), .integer 1, p]) 0 m =
        .result (.closure ⟨1, ["y"], .symbol "x", 0⟩) (m'.renumber (skipNumber 0)) := by
  intro p m
  have honce : m.store.BindsOnce := Store.BindsOnce.empty.pushPairs none []
  have hm : m.store.Numbered := (Session.start_wellFormed _).numbered honce
  have hcall := let_is_call_of_lambda 4 [("x", .integer 1), ("p", p)] (by decide) (.symbol "p") 0 hm
  exact ⟨_, rfl, hcall⟩

end LexicalLisp
