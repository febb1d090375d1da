import Mathlib.Data.List.Nodup
import LexicalLisp.Proofs.Evaluation.Simulation
import LexicalLisp.Session

/-!
# The rules of evaluation keep simulations

Each rule hands the correspondence of two runs on from the parts of a form to
the form. What remains to be shown of a particular simulation is that the
actions on machines keep it: looking a name up, defining and assigning it,
opening the frame of a `let` or of a call, making a closure, writing and reading.
From that evaluation keeps it to every depth (`Supports.eval_related`), because the
closures that are called have bodies to which the same applies one level below. Where
any admissible code may run in any of the corresponding frames, it is enough to know of
frames and code separately (`Sound`).
-/

namespace LexicalLisp

/-- The operands and parts of operands that a special form may evaluate, either
when it is evaluated itself or in a call of the closure it makes. -/
def Keyword.parts : Keyword → List Expr → List Expr
  | .cond, clauses => clauses.flatMap fun
    | .list [p, r] => [p, r]
    | _ => []
  | .letIn, [.list binders, body] => (binders.flatMap fun
    | .list [.symbol _, e] => [e]
    | _ => []) ++ [body]
  | .define, [.symbol _, e] | .set, [.symbol _, e] => [e]
  | .lambda, [.list _, body] => [body]
  | .ifElse, es | .begin, es | .display, es | .writeLine, es => es
  | _, _ => []

def Expr.boundNames (binders : List Expr) : List String :=
  binders.filterMap fun
    | .list [.symbol name, _] => some name
    | _ => none

/-- The parts of an expression that may be evaluated on behalf of it. -/
def Expr.parts : Expr → List Expr
  | .list (.symbol name :: es) =>
    match Operator.ofName? name with
    | some _ => es
    | none =>
      match Keyword.ofName? name with
      | some k => k.parts es
      | none => .symbol name :: es
  | .list (head :: es) => head :: es
  | _ => []

/-- The parts of operands that a special form evaluates in the frame in which it is
evaluated itself. The bodies of `let` and `lambda` run in frames of their own. -/
def Keyword.ownParts : Keyword → List Expr → List Expr
  | .letIn, [.list binders, _] => binders.flatMap fun
    | .list [.symbol _, e] => [e]
    | _ => []
  | .lambda, _ => []
  | k, es => k.parts es

def Expr.ownParts : Expr → List Expr
  | .list (.symbol name :: es) =>
    match Operator.ofName? name with
    | some _ => es
    | none =>
      match Keyword.ofName? name with
      | some k => k.ownParts es
      | none => .symbol name :: es
  | e => e.parts

theorem Keyword.operator_ofName? (k : Keyword) : Operator.ofName? k.name = none := by
  cases k <;> decide

@[simp] theorem Expr.parts_keyword (k : Keyword) (es : List Expr) :
    (Expr.list (.symbol k.name :: es)).parts = k.parts es := by
  simp only [parts, k.operator_ofName?, Keyword.ofName?_name]

@[simp] theorem Expr.ownParts_keyword (k : Keyword) (es : List Expr) :
    (Expr.list (.symbol k.name :: es)).ownParts = k.ownParts es := by
  simp only [ownParts, k.operator_ofName?, Keyword.ofName?_name]

theorem Keyword.ownParts_subset (k : Keyword) (es : List Expr) : k.ownParts es ⊆ k.parts es := by
  intro e he
  unfold ownParts at he
  split at he
  · exact List.mem_append_left _ he
  · cases he
  · exact he

theorem Expr.ownParts_subset (e : Expr) : e.ownParts ⊆ e.parts := by
  intro e' he'
  unfold ownParts at he'
  split at he'
  · rename_i name es
    unfold parts
    cases hop : Operator.ofName? name with
    | some op =>
      simp only [hop] at he' ⊢
      exact he'
    | none =>
      cases hk : Keyword.ofName? name with
      | some k =>
        simp only [hop, hk] at he' ⊢
        exact k.ownParts_subset es he'
      | none =>
        simp only [hop, hk] at he' ⊢
        exact he'
  · exact he'

theorem Expr.mem_parts_letBody (binders : List Expr) (body : Expr) :
    body ∈ (list [symbol Keyword.letIn.name, list binders, body]).parts := by
  simp [Keyword.parts]

theorem Expr.mem_parts_lambdaBody (parameters : List Expr) (body : Expr) :
    body ∈ (list [symbol Keyword.lambda.name, list parameters, body]).parts := by
  simp [Keyword.parts]

theorem Eval.form_keyword (ev : Evaluator) (f : FrameId) (k : Keyword) (es : List Expr) :
    form ev f (.symbol k.name) es = keyword ev f k es := by
  simp only [form, k.operator_ofName?, Keyword.ofName?_name]

theorem Eval.nodup_of_params {parameters : List Expr} {seen names : List String}
    (h : params seen parameters = .ok names) (hseen : seen.Nodup) : names.Nodup := by
  induction parameters generalizing seen with
  | nil =>
    cases h
    exact hseen
  | cons parameter parameters ih =>
    unfold params at h
    split at h
    · cases ‹_ :: _ = []›
    · rename_i name rest heq
      obtain ⟨rfl, rfl⟩ := List.cons.inj heq
      split at h
      · cases h
      · rename_i hnew
        apply ih h
        rw [← List.concat_eq_append]
        exact hseen.concat hnew
    · cases h

namespace Simulation

variable {S : Simulation} {ev₁ ev₂ : Evaluator} {f₁ f₂ : FrameId} {w : S.World}

section Forms

variable {e : Expr} {es : List Expr}

theorem operands_related (h : ∀ e ∈ es, S.Treats ev₁ ev₂ f₁ f₂ w e) :
    S.Related w (fun u => List.Forall₂ (S.Values u)) (Eval.operands ev₁ f₁ es)
      (Eval.operands ev₂ f₂ es) := by
  induction es generalizing w with
  | nil => exact related_pure fun _ _ => .nil
  | cons e es ih =>
    refine (h e (by simp)).bind fun u v₁ v₂ hu hv => ?_
    refine (ih fun e' he' => (h e' (by simp [he'])).mono hu).bind fun u' vs₁ vs₂ hu' hvs => ?_
    exact related_pure fun u'' hu'' => .cons (hv.mono (hu'.trans hu'')) (Values.mono_all hu'' hvs)

theorem inOrder_related {last₁ last₂ : Value} (hlast : S.Values w last₁ last₂)
    (h : ∀ e ∈ es, S.Treats ev₁ ev₂ f₁ f₂ w e) :
    S.Related w S.Values (Eval.inOrder ev₁ f₁ last₁ es) (Eval.inOrder ev₂ f₂ last₂ es) := by
  induction es generalizing w last₁ last₂ with
  | nil => exact related_pure fun _ hu => hlast.mono hu
  | cons e es ih =>
    refine (h e (by simp)).bind fun u v₁ v₂ hu hv => ?_
    exact ih hv fun e' he' => (h e' (by simp [he'])).mono hu

theorem conjunction_related {last₁ last₂ : Value} (hlast : S.Values w last₁ last₂)
    (h : ∀ e ∈ es, S.Treats ev₁ ev₂ f₁ f₂ w e) :
    S.Related w S.Values (Eval.conjunction ev₁ f₁ last₁ es)
      (Eval.conjunction ev₂ f₂ last₂ es) := by
  induction es generalizing w last₁ last₂ with
  | nil => exact related_pure fun _ hu => hlast.mono hu
  | cons e es ih =>
    refine (h e (by simp)).bind fun u v₁ v₂ hu hv => ?_
    rw [hv.isTruthy_eq]
    split
    · exact ih hv fun e' he' => (h e' (by simp [he'])).mono hu
    · exact related_pure fun _ _ => .boolean false

theorem disjunction_related (h : ∀ e ∈ es, S.Treats ev₁ ev₂ f₁ f₂ w e) :
    S.Related w S.Values (Eval.disjunction ev₁ f₁ es) (Eval.disjunction ev₂ f₂ es) := by
  induction es generalizing w with
  | nil => exact related_pure fun _ _ => .boolean false
  | cons e es ih =>
    refine (h e (by simp)).bind fun u v₁ v₂ hu hv => ?_
    rw [hv.isTruthy_eq]
    split
    · exact related_pure fun _ hu' => hv.mono hu'
    · exact ih fun e' he' => (h e' (by simp [he'])).mono hu

theorem operator_related (op : Operator) (h : ∀ e ∈ es, S.Treats ev₁ ev₂ f₁ f₂ w e) :
    S.Related w S.Values (Eval.operator ev₁ f₁ op es) (Eval.operator ev₂ f₂ op es) := by
  have hstrict : op.isLazy = false → S.Related w S.Values
      (Eval.operands ev₁ f₁ es >>= fun args => Run.ofExcept (op.apply args))
      (Eval.operands ev₂ f₂ es >>= fun args => Run.ofExcept (op.apply args)) := by
    intro hop
    refine (operands_related h).bind fun u vs₁ vs₂ _ hvs => ?_
    exact related_ofExcept (Operator.apply_agree (S.keepsIdentity u) hop hvs)
      fun u' _ _ hu' hv => Values.mono hu' hv
  cases op with
  | and => exact conjunction_related (.boolean true) h
  | or => exact disjunction_related h
  | _ => exact hstrict rfl

theorem ifElse_related (h : ∀ e ∈ es, S.Treats ev₁ ev₂ f₁ f₂ w e) :
    S.Related w S.Values (Eval.ifElse ev₁ f₁ es) (Eval.ifElse ev₂ f₂ es) := by
  unfold Eval.ifElse
  split
  · refine (h _ (by simp)).bind fun u v₁ v₂ hu hv => ?_
    rw [hv.isTruthy_eq]
    split
    · exact (h _ (by simp)).mono hu
    · exact (h _ (by simp)).mono hu
  · exact related_malformed _

theorem cond_related {clauses : List Expr}
    (h : ∀ p r, .list [p, r] ∈ clauses →
      S.Treats ev₁ ev₂ f₁ f₂ w p ∧ S.Treats ev₁ ev₂ f₁ f₂ w r) :
    S.Related w S.Values (Eval.cond ev₁ f₁ clauses) (Eval.cond ev₂ f₂ clauses) := by
  induction clauses generalizing w with
  | nil => exact related_malformed _
  | cons clause clauses ih =>
    unfold Eval.cond
    split
    · cases ‹_ :: _ = []›
    · rename_i p r rest heq
      obtain ⟨rfl, rfl⟩ := List.cons.inj heq
      obtain ⟨hp, hr⟩ := h p r (by simp)
      refine hp.bind fun u v₁ v₂ hu hv => ?_
      rw [hv.isTruthy_eq]
      split
      · exact hr.mono hu
      · exact ih fun p' r' hmem =>
          (h p' r' (by simp [hmem])).imp (Related.mono hu) (Related.mono hu)
    · exact related_malformed _

theorem bindings_related {binders : List Expr}
    (h : ∀ name e, .list [.symbol name, e] ∈ binders → S.Treats ev₁ ev₂ f₁ f₂ w e) :
    S.Related w (fun u ps qs => List.Forall₂ (S.Pairs u) ps qs ∧
        qs.map Prod.fst = Expr.boundNames binders)
      (Eval.bindings ev₁ f₁ binders) (Eval.bindings ev₂ f₂ binders) := by
  induction binders generalizing w with
  | nil => exact related_pure fun _ _ => ⟨.nil, rfl⟩
  | cons binder binders ih =>
    unfold Eval.bindings
    split
    · cases ‹_ :: _ = []›
    · rename_i name e rest heq
      obtain ⟨rfl, rfl⟩ := List.cons.inj heq
      refine (h name e (by simp)).bind fun u v₁ v₂ hu hv => ?_
      refine (ih fun n e' hmem => (h n e' (by simp [hmem])).mono hu).bind
        fun u' ps qs hu' hps => ?_
      refine related_pure fun u'' hu'' => ⟨?_, congrArg (name :: ·) hps.2⟩
      exact .cons ⟨rfl, hv.mono (hu'.trans hu'')⟩ (Pairs.mono_all hu'' hps.1)
    · exact related_malformed _

theorem letIn_related
    (h : ∀ binders body, es = [.list binders, body] →
      ∀ name e, .list [.symbol name, e] ∈ binders → S.Treats ev₁ ev₂ f₁ f₂ w e)
    (hbody : ∀ binders body, es = [.list binders, body] → ∀ u ps qs, w ≤ u →
      List.Forall₂ (S.Pairs u) ps qs → qs.map Prod.fst = Expr.boundNames binders →
      S.Related u S.Values (Run.pushFrame f₁ ps >>= ev₁ body) (Run.pushFrame f₂ qs >>= ev₂ body)) :
    S.Related w S.Values (Eval.letIn ev₁ f₁ es) (Eval.letIn ev₂ f₂ es) := by
  unfold Eval.letIn
  split
  · exact (bindings_related (h _ _ rfl)).bind fun u ps qs hu hps =>
      hbody _ _ rfl u ps qs hu hps.1 hps.2
  · exact related_malformed _

/-- What is done with the value of a part has no result of its own to compare. -/
theorem thenVoid_related {act₁ act₂ : Value → Run EvalError Unit} (he : S.Treats ev₁ ev₂ f₁ f₂ w e)
    (hact : ∀ u v₁ v₂, w ≤ u → S.Values u v₁ v₂ → S.Related u S.NoResult (act₁ v₁) (act₂ v₂)) :
    S.Related w S.Values
      (do
        let v ← ev₁ e f₁
        act₁ v
        return .void)
      (do
        let v ← ev₂ e f₂
        act₂ v
        return .void) := by
  refine he.bind fun u v₁ v₂ hu hv => ?_
  exact (hact u v₁ v₂ hu hv).bind fun _ _ _ _ _ => related_pure fun _ _ => .void

theorem output_related {ending : String} (h : ∀ e ∈ es, S.Treats ev₁ ev₂ f₁ f₂ w e)
    (hwrite : ∀ u text, w ≤ u → S.Related u S.NoResult (Run.write text) (Run.write text)) :
    S.Related w S.Values (Eval.output ev₁ f₁ ending es) (Eval.output ev₂ f₂ ending es) := by
  unfold Eval.output
  split
  · refine thenVoid_related (h _ (by simp)) fun u v₁ v₂ hu hv => ?_
    rw [hv.text_eq (S.keepsParams u)]
    exact hwrite u _ hu
  · exact related_malformed _

theorem readLine_related (h : S.Related w (fun _ => Eq) Run.readLine Run.readLine) :
    S.Related w S.Values (Eval.readLine es) (Eval.readLine es) := by
  unfold Eval.readLine
  split
  · refine h.bind fun u line _ _ hline => ?_
    subst hline
    exact related_pure fun _ _ => .string line
  · exact related_malformed _

/-- A call of related closures with related arguments remains to be compared. -/
theorem call_related {head : Expr} (hhead : S.Treats ev₁ ev₂ f₁ f₂ w head)
    (h : ∀ e ∈ es, S.Treats ev₁ ev₂ f₁ f₂ w e)
    (henter : ∀ u c d vs₁ vs₂, w ≤ u → S.closures u c d → List.Forall₂ (S.Values u) vs₁ vs₂ →
      vs₂.length = d.params.length →
      S.Related u S.Values (Eval.enter ev₁ c head vs₁) (Eval.enter ev₂ d head vs₂)) :
    S.Related w S.Values (Eval.call ev₁ f₁ head es) (Eval.call ev₂ f₂ head es) := by
  refine hhead.bind fun u v₁ v₂ hu hv => ?_
  cases hv with
  | closure hcd =>
    refine (operands_related fun e he => (h e he).mono hu).bind fun u' vs₁ vs₂ hu' hvs => ?_
    rw [hvs.length_eq, S.keepsParams _ _ _ hcd]
    split
    · rename_i hlength
      exact henter u' _ _ _ _ (hu.trans hu') (S.closures_mono hu' _ _ hcd) hvs hlength
    · exact related_fail (S.tolerates_local trivial)
  | list hs =>
    have htext := (Value.Related.list hs).text_eq (S.keepsParams u)
    simp only [htext]
    exact related_fail (S.tolerates_local trivial)
  | _ => exact related_fail (S.tolerates_local trivial)

end Forms

/-- The actions on machines keep the simulation. It is up to `runs` which code may run
where: it says of an expression that the two sides may evaluate it, each in its frame,
from a world on. -/
structure Supports (S : Simulation) (runs : S.World → Expr → FrameId → FrameId → Prop) :
    Prop where
  mono : ∀ {u v}, u ≤ v → ∀ {e f g}, runs u e f g → runs v e f g
  parts : ∀ {w e f g}, runs w e f g → ∀ e' ∈ e.ownParts, runs w e' f g
  body : ∀ {w c d}, S.closures w c d → c.body = d.body
  lookup : ∀ {w f g name}, runs w (.symbol name) f g → name ≠ "else" →
    S.Related w S.Values (Run.lookup f name) (Run.lookup g name)
  define : ∀ {w f g name e v₁ v₂},
    runs w (.list [.symbol Keyword.define.name, .symbol name, e]) f g → S.Values w v₁ v₂ →
    S.Related w S.NoResult (Run.define f name v₁) (Run.define g name v₂)
  assign : ∀ {w f g name e v₁ v₂},
    runs w (.list [.symbol Keyword.set.name, .symbol name, e]) f g → S.Values w v₁ v₂ →
    S.Related w S.NoResult (Run.assign f name v₁) (Run.assign g name v₂)
  openLet : ∀ {w f g binders body ps qs},
    runs w (.list [.symbol Keyword.letIn.name, .list binders, body]) f g →
    List.Forall₂ (S.Pairs w) ps qs →
    S.Related w (fun u => runs u body) (Run.pushFrame f ps) (Run.pushFrame g qs)
  openCall : ∀ {w c d self? vs₁ vs₂}, S.closures w c d → List.Forall₂ (S.Values w) vs₁ vs₂ →
    vs₂.length = d.params.length →
    S.Related w (fun u => runs u c.body) (Run.pushCall c self? vs₁) (Run.pushCall d self? vs₂)
  makeClosure : ∀ {w f g parameters body params},
    runs w (.list [.symbol Keyword.lambda.name, .list parameters, body]) f g → params.Nodup →
    S.Related w S.closures (Run.makeClosure params body f) (Run.makeClosure params body g)
  write : ∀ {w f g es text} {k : Keyword}, k = .display ∨ k = .writeLine →
    runs w (.list (.symbol k.name :: es)) f g →
    S.Related w S.NoResult (Run.write text) (Run.write text)
  readLine : ∀ {w f g es}, runs w (.list (.symbol Keyword.readLine.name :: es)) f g →
    S.Related w (fun _ => Eq) Run.readLine Run.readLine

namespace Supports

variable {runs : S.World → Expr → FrameId → FrameId → Prop}

/-- Both evaluators treat every expression alike wherever it may run. -/
def Hypothesis (runs : S.World → Expr → FrameId → FrameId → Prop) (ev₁ ev₂ : Evaluator) : Prop :=
  ∀ {u g₁ g₂ e}, runs u e g₁ g₂ → S.Treats ev₁ ev₂ g₁ g₂ u e

variable {es : List Expr} (hS : S.Supports runs) (hev : Hypothesis runs ev₁ ev₂)
include hS hev

theorem define_related (hes : runs w (.list (.symbol Keyword.define.name :: es)) f₁ f₂) :
    S.Related w S.Values (Eval.define ev₁ f₁ es) (Eval.define ev₂ f₂ es) := by
  unfold Eval.define
  split
  · rename_i name e
    have he : runs w e f₁ f₂ := hS.parts hes e (by simp [Keyword.ownParts, Keyword.parts])
    exact thenVoid_related (hev he) fun u v₁ v₂ hu hv => hS.define (hS.mono hu hes) hv
  · exact related_malformed _

theorem set_related (hes : runs w (.list (.symbol Keyword.set.name :: es)) f₁ f₂) :
    S.Related w S.Values (Eval.set ev₁ f₁ es) (Eval.set ev₂ f₂ es) := by
  unfold Eval.set
  split
  · rename_i name e
    have he : runs w e f₁ f₂ := hS.parts hes e (by simp [Keyword.ownParts, Keyword.parts])
    exact thenVoid_related (hev he) fun u v₁ v₂ hu hv => hS.assign (hS.mono hu hes) hv
  · exact related_malformed _

omit hev in
theorem lambda_related (hes : runs w (.list (.symbol Keyword.lambda.name :: es)) f₁ f₂) :
    S.Related w S.Values (Eval.lambda f₁ es) (Eval.lambda f₂ es) := by
  unfold Eval.lambda
  split
  · rename_i parameters body
    split
    · rename_i names hparams
      have hnames : names.Nodup := Eval.nodup_of_params hparams List.nodup_nil
      refine (hS.makeClosure hes hnames).bind fun u c d _ hcd => ?_
      exact related_pure fun u' hu' => .closure (S.closures_mono hu' _ _ hcd)
    · exact related_malformed _
  · exact related_malformed _

theorem let_related (hes : runs w (.list (.symbol Keyword.letIn.name :: es)) f₁ f₂) :
    S.Related w S.Values (Eval.letIn ev₁ f₁ es) (Eval.letIn ev₂ f₂ es) := by
  refine letIn_related ?_ ?_
  · rintro binders body rfl name e hmem
    refine hev (hS.parts hes e ?_)
    rw [Expr.ownParts_keyword]
    exact List.mem_flatMap.mpr ⟨_, hmem, by simp⟩
  · rintro binders body rfl u ps qs hu hps -
    exact (hS.openLet (hS.mono hu hes) hps).bind fun u' g₁ g₂ _ hg => hev hg

theorem keyword_related (k : Keyword) (hes : runs w (.list (.symbol k.name :: es)) f₁ f₂) :
    S.Related w S.Values (Eval.keyword ev₁ f₁ k es) (Eval.keyword ev₂ f₂ k es) := by
  have hparts : ∀ e ∈ k.ownParts es, S.Treats ev₁ ev₂ f₁ f₂ w e :=
    fun e he => hev (hS.parts hes e (by simpa using he))
  cases k with
  | ifElse => exact ifElse_related hparts
  | cond =>
    refine cond_related fun p r hmem => ⟨hparts p ?_, hparts r ?_⟩
    · exact List.mem_flatMap.mpr ⟨_, hmem, by simp⟩
    · exact List.mem_flatMap.mpr ⟨_, hmem, by simp⟩
  | letIn => exact let_related hS hev hes
  | define => exact define_related hS hev hes
  | lambda => exact lambda_related hS hes
  | set => exact set_related hS hev hes
  | begin => exact inOrder_related .void hparts
  | display => exact output_related hparts fun _ _ hu => hS.write (.inl rfl) (hS.mono hu hes)
  | writeLine => exact output_related hparts fun _ _ hu => hS.write (.inr rfl) (hS.mono hu hes)
  | readLine => exact readLine_related (hS.readLine hes)

theorem enter_related {c d : Closure} {head : Expr} {vs₁ vs₂ : List Value}
    (hcd : S.closures w c d) (hvs : List.Forall₂ (S.Values w) vs₁ vs₂)
    (hlength : vs₂.length = d.params.length) :
    S.Related w S.Values (Eval.enter ev₁ c head vs₁) (Eval.enter ev₂ d head vs₂) := by
  refine (hS.openCall hcd hvs hlength).bind fun u g₁ g₂ _ hg => ?_
  rw [← hS.body hcd]
  exact hev hg

theorem form_related {head : Expr} (hes : runs w (.list (head :: es)) f₁ f₂) :
    S.Related w S.Values (Eval.form ev₁ f₁ head es) (Eval.form ev₂ f₂ head es) := by
  have hcall : (∀ e ∈ head :: es, S.Treats ev₁ ev₂ f₁ f₂ w e) →
      S.Related w S.Values (Eval.call ev₁ f₁ head es) (Eval.call ev₂ f₂ head es) := by
    intro h
    exact call_related (h head (by simp)) (fun e he => h e (by simp [he]))
      fun u c d vs₁ vs₂ _ hcd hvs hlength => enter_related hS hev hcd hvs hlength
  have hparts : ∀ e ∈ (Expr.list (head :: es)).ownParts, S.Treats ev₁ ev₂ f₁ f₂ w e :=
    fun e he => hev (hS.parts hes e he)
  cases head with
  | symbol name =>
    unfold Eval.form
    unfold Expr.ownParts at hparts
    cases hop : Operator.ofName? name with
    | some op =>
      simp only [hop] at hparts ⊢
      exact operator_related op hparts
    | none =>
      cases hk : Keyword.ofName? name with
      | some k =>
        simp only [hop, hk]
        exact keyword_related hS hev k (by rwa [Keyword.name_of_ofName? hk])
      | none =>
        simp only [hop, hk] at hparts ⊢
        exact hcall hparts
  | _ => exact hcall hparts

/-- One level of evaluation keeps the simulation if the evaluators of the parts do. -/
theorem step_related {e : Expr} (he : runs w e f₁ f₂) :
    S.Treats (Eval.step ev₁) (Eval.step ev₂) f₁ f₂ w e := by
  unfold Treats Eval.step
  split
  · exact related_pure fun _ _ => .integer _
  · exact related_pure fun _ _ => .float _
  · exact related_pure fun _ _ => .boolean _
  · exact related_pure fun _ _ => .list .nil
  · split
    · exact related_pure fun _ _ => .boolean true
    · exact hS.lookup he ‹_›
  · exact related_malformed _
  · exact form_related hS hev he

omit hev in
/-- Evaluation to any depth keeps a simulation that the actions on machines keep. -/
theorem eval_related (n : Nat) : Hypothesis (S := S) runs (eval n) (eval n) := by
  induction n with
  | zero => exact fun _ => related_outOfFuel
  | succ n ih => exact fun he => step_related hS ih he

end Supports

/-- The actions on machines keep the simulation, for code that runs in
corresponding frames and consists of admissible expressions. -/
structure Sound (S : Simulation) (frames : S.World → FrameId → FrameId → Prop)
    (admits : Expr → Prop) : Prop where
  frames_mono : ∀ {u v}, u ≤ v → ∀ {f g}, frames u f g → frames v f g
  parts : ∀ {e}, admits e → ∀ e' ∈ e.parts, admits e'
  body : ∀ {w c d}, S.closures w c d → c.body = d.body ∧ admits c.body
  lookup : ∀ {w f g name}, frames w f g → admits (.symbol name) → name ≠ "else" →
    S.Related w S.Values (Run.lookup f name) (Run.lookup g name)
  define : ∀ {w f g name e v₁ v₂}, frames w f g →
    admits (.list [.symbol Keyword.define.name, .symbol name, e]) → S.Values w v₁ v₂ →
    S.Related w S.NoResult (Run.define f name v₁) (Run.define g name v₂)
  assign : ∀ {w f g name e v₁ v₂}, frames w f g →
    admits (.list [.symbol Keyword.set.name, .symbol name, e]) → S.Values w v₁ v₂ →
    S.Related w S.NoResult (Run.assign f name v₁) (Run.assign g name v₂)
  openLet : ∀ {w f g ps qs}, frames w f g → List.Forall₂ (S.Pairs w) ps qs →
    S.Related w frames (Run.pushFrame f ps) (Run.pushFrame g qs)
  openCall : ∀ {w c d self? vs₁ vs₂}, S.closures w c d → List.Forall₂ (S.Values w) vs₁ vs₂ →
    vs₂.length = d.params.length →
    S.Related w frames (Run.pushCall c self? vs₁) (Run.pushCall d self? vs₂)
  makeClosure : ∀ {w f g params body}, frames w f g → admits body → params.Nodup →
    S.Related w S.closures (Run.makeClosure params body f) (Run.makeClosure params body g)
  write : ∀ {w text}, S.Related w S.NoResult (Run.write text) (Run.write text)
  readLine : ∀ {w}, S.Related w (fun _ => Eq) Run.readLine Run.readLine

namespace Sound

variable {frames : S.World → FrameId → FrameId → Prop} {admits : Expr → Prop}

def Hypothesis (frames : S.World → FrameId → FrameId → Prop) (admits : Expr → Prop)
    (ev₁ ev₂ : Evaluator) : Prop :=
  ∀ {u g₁ g₂ e}, frames u g₁ g₂ → admits e → S.Treats ev₁ ev₂ g₁ g₂ u e

variable (hS : S.Sound frames admits)
include hS

theorem supports : S.Supports fun w e f g => frames w f g ∧ admits e where
  mono hu _ _ _ h := ⟨hS.frames_mono hu h.1, h.2⟩
  parts {_ e _ _} h e' he' := ⟨h.1, hS.parts h.2 e' (e.ownParts_subset he')⟩
  body h := (hS.body h).1
  lookup h := hS.lookup h.1 h.2
  define h := hS.define h.1 h.2
  assign h := hS.assign h.1 h.2
  openLet {_ _ _ binders body _ _} h hps :=
    have hbody : admits body := hS.parts h.2 body (Expr.mem_parts_letBody binders body)
    (hS.openLet h.1 hps).imp fun _ _ _ _ hg => ⟨hg, hbody⟩
  openCall hcd hvs hlength :=
    (hS.openCall hcd hvs hlength).imp fun _ _ _ _ hg => ⟨hg, (hS.body hcd).2⟩
  makeClosure {_ _ _ parameters body _} h hparams :=
    hS.makeClosure h.1 (hS.parts h.2 body (Expr.mem_parts_lambdaBody parameters body)) hparams
  write _ _ := hS.write
  readLine _ := hS.readLine

theorem eval_related (n : Nat) : Hypothesis (S := S) frames admits (eval n) (eval n) :=
  fun hf he => hS.supports.eval_related n ⟨hf, he⟩

theorem run_related (hf : frames w f₁ f₂) (n : Nat) {program : List Expr}
    (hprogram : ∀ e ∈ program, admits e) :
    S.Related w S.Values (Session.run n program f₁) (Session.run n program f₂) :=
  inOrder_related .void fun e he => hS.eval_related n hf (hprogram e he)

end Sound

end Simulation
end LexicalLisp
