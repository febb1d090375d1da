import LexicalLisp.Proofs.Evaluation.WellFormed
import LexicalLisp.Proofs.Scoping.Visibility

/-!
# Well-scoped programs find their names

If the free names of an expression are visible where it is evaluated, and those
of every closure in the store are visible where the closure was made, then no
lookup and no assignment fails for want of a binding. The invariant is about all
closures, those bound in the store and those that are values of the moment, and
what a definition binds is visible to the forms after it in a `begin`.

One closure is an exception for a moment: the value of a definition that is a
`lambda` form may use the name that is about to be bound.
-/

namespace LexicalLisp

/-- The names that the body of a closure looks up outside of the frame of its call. -/
def Closure.free (c : Closure) : List String := c.body.free.filter (· ∉ c.params)

namespace Store

/-- The free names of the closure are visible where it was made. -/
def Covers (s : Store) (c : Closure) : Prop := c.free ⊆ s.visibleNames c.frame

variable {s s' : Store} {c : Closure} {closed : FrameId → Prop}

theorem Covers.mono (h : s.Extends closed s') (hc : s.Covers c) : s'.Covers c :=
  List.Subset.trans hc (visibleNames_subset_of_extends h)

end Store

/-- The free names of the expression are visible in the frame, and those of every
closure in the store are visible where the closure was made. -/
structure WellScoped (e : Expr) (f : FrameId) (s : Store) : Prop where
  free_visible : e.free ⊆ s.visibleNames f
  held_covered : ∀ c, s.Holds c → s.Covers c

open Store

theorem ne_unbound_of_isLocal {e : EvalError} (he : e.IsLocal) :
    ∀ name, e ≠ .name (.unbound name) := by
  rintro name rfl
  exact he

/-- Worlds are stores that cover the closures they hold. Unbound names are not tolerated. -/
def scoping : Invariant where
  World := Store
  le := Grows
  holds w s := s = w ∧ ∀ c, s.Holds c → s.Covers c
  closures := Covers
  tolerates e := ∀ name, e ≠ .name (.unbound name)
  le_refl := Grows.refl
  le_trans := Grows.trans
  closures_mono h _ := Covers.mono h
  tolerates_local := ne_unbound_of_isLocal

namespace scoping

section Actions

variable {s : Store} {f : FrameId} {name : String}

/-- A definition binds its name, even if its value has been waiting for it. -/
theorem define_acts (hs : ∀ c, s.Holds c → s.Covers c) (hf : f < s.frames.size) {v : Value}
    (hv : ∀ c ∈ v.closures, s.Covers c ∨ c.frame = f ∧ c.free ⊆ name :: s.visibleNames f) :
    scoping.Acts s (fun u _ => name ∈ u.visibleNames f) (s.define f name v) := by
  unfold Store.define
  split
  · refine ⟨s, Grows.refl s, ⟨rfl, hs⟩, ?_⟩
    rintro other ⟨⟩
  · have hext : s.Grows (s.bind f name v) := .bind s f name v
    have hname : name ∈ (s.bind f name v).visibleNames f := by
      refine mem_visibleNames_of_binds ?_
      rw [bindingsOf_bind, if_pos ⟨rfl, hf⟩]
      simp
    refine ⟨_, hext, ⟨rfl, fun c hc => ?_⟩, hname⟩
    rcases holds_of_holds_bind hc with hold | hnew
    · exact (hs c hold).mono hext
    · rcases hv c hnew with hcovers | ⟨hframe, hfree⟩
      · exact hcovers.mono hext
      · -- The closure was made in this very frame, where its name is visible from now on.
        intro x hx
        rw [hframe]
        rcases List.mem_cons.mp (hfree hx) with rfl | hx
        · exact hname
        · exact visibleNames_subset_of_extends hext hx

theorem assign_acts (hs : ∀ c, s.Holds c → s.Covers c) (hname : name ∈ s.visibleNames f)
    {v : Value} (hv : ∀ c ∈ v.closures, s.Covers c) :
    scoping.Acts s scoping.NoResult (s.assign f name v) := by
  obtain ⟨g, hg⟩ := exists_nearest_of_visible hname
  unfold Store.assign
  rw [hg]
  have hext : s.Grows (s.bind g name v) := .bind s g name v
  refine ⟨_, hext, ⟨rfl, fun c hc => ?_⟩, trivial⟩
  rcases holds_of_holds_bind hc with hold | hnew
  · exact (hs c hold).mono hext
  · exact (hv c hnew).mono hext

theorem push_acts (hs : ∀ c, s.Holds c → s.Covers c) {names around : List String}
    (haround : around ⊆ s.visibleNames f) {b? : Except NameError Bindings}
    (hheld : ∀ b, b? = .ok b → ∀ name v, b.lookup name = some v → ∀ c ∈ v.closures, s.Covers c)
    (hnames : ∀ b, b? = .ok b → ∀ x ∈ names, b.binds x = true)
    (herror : ∀ e, b? = .error e → ∃ name, e = .alreadyDefined name) :
    scoping.Acts s (fun u g => g < u.frames.size ∧ names ++ around ⊆ u.visibleNames g)
      (s.pushResult (some f) b?) := by
  cases b? with
  | error e =>
    obtain ⟨name, rfl⟩ := herror e rfl
    refine ⟨s, Grows.refl s, ⟨rfl, hs⟩, ?_⟩
    rintro other ⟨⟩
  | ok b =>
    have hext : s.Grows (s.push (some f) b).2 := .push s (some f) b
    refine ⟨_, hext, ⟨rfl, fun c hc => ?_⟩, by simp, ?_⟩
    · rcases holds_of_holds_push hc with hold | ⟨name, v, hv, hnew⟩
      · exact (hs c hold).mono hext
      · exact (hheld b rfl name v hv c hnew).mono hext
    · refine List.append_subset.mpr ⟨fun x hx => ?_, ?_⟩
      · refine mem_visibleNames_of_binds ?_
        rw [bindingsOf_push]
        simpa using hnames b rfl x hx
      · exact List.Subset.trans haround (visibleNames_subset_push f b)

end Actions

section Rules

variable {w : Store} {f : FrameId} {n : Nat} {e head : Expr} {es : List Expr}

theorem lookup_related {name : String} (hname : name ∈ w.visibleNames f) :
    scoping.simulation.Related w scoping.simulation.Values (Run.lookup f name)
      (Run.lookup f name) := by
  refine Simulation.related_lookup ?_
  intro _ s _ hs h
  obtain ⟨rfl, rfl, hheld⟩ := h
  obtain ⟨v, hv⟩ := exists_lookup_of_visible (visibleNames_subset_of_extends hs hname)
  rw [hv]
  refine .ok le_rfl ⟨rfl, rfl, hheld⟩ (Invariant.values_iff.mpr ⟨rfl, fun c hc => ?_⟩)
  exact hheld c (holds_of_lookup hv hc)

theorem makeClosure_related (params : List String) (body : Expr) :
    scoping.simulation.Related w
      (fun _ c d => c = d ∧ c.params = params ∧ c.body = body ∧ c.frame = f)
      (Run.makeClosure params body f) (Run.makeClosure params body f) := by
  refine Invariant.onStore_related ?_
  intro _ s _ h
  obtain ⟨rfl, hs⟩ := h
  have hext : s.Grows (s.makeClosure params body f).2 := .makeClosure s params body f
  exact ⟨_, hext, ⟨rfl, fun c hc => (hs c hc).mono hext⟩, rfl, rfl, rfl⟩

/-- A `lambda` form is evaluated without lookup; its closure needs the names free in it. -/
theorem lambda_related {extra : List String}
    (hes : (Expr.list (.symbol Keyword.lambda.name :: es)).free ⊆ extra ++ w.visibleNames f) :
    scoping.simulation.Related w
      (fun u v v' => v = v' ∧ ∀ c ∈ v.closures, c.frame = f ∧ c.free ⊆ extra ++ u.visibleNames f)
      (Eval.lambda f es) (Eval.lambda f es) := by
  unfold Eval.lambda
  split
  · rename_i parameters body
    split
    · rename_i names hparams
      refine (makeClosure_related names body).bind fun u c d hu hcd => ?_
      obtain ⟨rfl, rfl, rfl, rfl⟩ := hcd
      refine Simulation.related_pure fun u' hu' => ⟨rfl, fun c' hc' => ?_⟩
      obtain rfl : c' = c := by simpa [Value.closures] using hc'
      refine ⟨rfl, fun x hx => ?_⟩
      obtain ⟨hbody, hbound⟩ := List.mem_filter.mp hx
      rw [Expr.params_eq hparams] at hbound
      have hx := hes (Expr.mem_free_lambdaBody hbody (by simpa using hbound))
      rcases List.mem_append.mp hx with hx | hx
      · exact List.mem_append_left _ hx
      · exact List.mem_append_right _ (visibleNames_subset_of_extends (hu.trans hu') hx)
    · exact Simulation.related_malformed _
  · exact Simulation.related_malformed _

theorem eval_lambda_related (n : Nat) {extra : List String} (he : e.isLambda = true)
    (hfree : e.free ⊆ extra ++ w.visibleNames f) :
    scoping.simulation.Related w
      (fun u v v' => v = v' ∧ ∀ c ∈ v.closures, c.frame = f ∧ c.free ⊆ extra ++ u.visibleNames f)
      (eval n e f) (eval n e f) := by
  unfold Expr.isLambda at he
  split at he
  · rename_i head es
    obtain rfl := Expr.eq_symbol_of_keyword? (of_decide_eq_true he)
    cases n with
    | zero => exact Simulation.related_outOfFuel
    | succ n =>
      have hform := lambda_related hfree
      rw [← show Eval.form (eval n) f (.symbol Keyword.lambda.name) es = Eval.lambda f es from
        Eval.form_keyword (eval n) f .lambda es] at hform
      exact hform
  · cases he

/-- What is known after an expression: the value, and that what it defines is visible. -/
def Established (f : FrameId) (e : Expr) (u : Store) (v v' : Value) : Prop :=
  scoping.simulation.Values u v v' ∧ e.definedBy ⊆ u.visibleNames f

/-- The closures in a value are covered, or were made in the frame and want for nothing
but the name. -/
def Awaits (f : FrameId) (name : String) (u : Store) (v v' : Value) : Prop :=
  v = v' ∧ ∀ c ∈ v.closures, u.Covers c ∨ c.frame = f ∧ c.free ⊆ name :: u.visibleNames f

/-- To a depth, expressions are evaluated where their free names are visible. -/
def Hypothesis (n : Nat) : Prop :=
  ∀ {w f e}, f < w.frames.size → e.free ⊆ w.visibleNames f →
    scoping.simulation.Related w (Established f e) (eval n e f) (eval n e f)

variable (hn : Hypothesis n) (hf : f < w.frames.size)
include hn hf

theorem treats (he : e.free ⊆ w.visibleNames f) :
    scoping.simulation.Treats (eval n) (eval n) f f w e :=
  (hn hf he).imp fun _ _ _ _ h => h.1

/-- The value of a definition that is a `lambda` form may be waiting for the name. -/
theorem awaits_related {name : String}
    (hes : (Expr.list [.symbol Keyword.define.name, .symbol name, e]).free ⊆ w.visibleNames f) :
    scoping.simulation.Related w (Awaits f name) (eval n e f) (eval n e f) := by
  by_cases hlambda : e.isLambda = true
  · have hfree : e.free ⊆ [name] ++ w.visibleNames f := by
      intro x hx
      by_cases hname : x = name
      · exact List.mem_append_left _ (List.mem_singleton.mpr hname)
      · exact List.mem_append_right _ (hes (Expr.mem_free_defined hx fun _ => hname))
    refine (eval_lambda_related n hlambda hfree).imp fun u v v' _ h => ?_
    exact ⟨h.1, fun c hc => .inr (h.2 c hc)⟩
  · have hfree : e.free ⊆ w.visibleNames f := by
      intro x hx
      exact hes (Expr.mem_free_defined hx fun h => absurd h hlambda)
    refine (treats hn hf hfree).imp fun u v v' _ h => ?_
    obtain ⟨rfl, hv⟩ := Invariant.values_iff.mp h
    exact ⟨rfl, fun c hc => .inl (hv c hc)⟩

theorem define_related
    (hes : (Expr.list (.symbol Keyword.define.name :: es)).free ⊆ w.visibleNames f) :
    scoping.simulation.Related w (Established f (.list (.symbol Keyword.define.name :: es)))
      (Eval.define (eval n) f es) (Eval.define (eval n) f es) := by
  unfold Eval.define
  split
  · rename_i name e
    refine (awaits_related hn hf hes).bind fun u v v' hu hv => ?_
    obtain ⟨rfl, hv⟩ := hv
    have hdefine : scoping.simulation.Related u (fun u' _ _ => name ∈ u'.visibleNames f)
        (Run.define f name v) (Run.define f name v) := by
      refine (Invariant.onStore_related (I := scoping)
        (P := fun (u' : Store) _ => name ∈ u'.visibleNames f) ?_).imp fun _ _ _ _ h => h.2
      intro _ s hs h
      obtain ⟨rfl, hheld⟩ := h
      refine define_acts hheld (Nat.lt_of_lt_of_le hf (hu.trans hs).size_le) fun c hc => ?_
      rcases hv c hc with hcovers | ⟨hframe, hfree⟩
      · exact .inl (hcovers.mono hs)
      · refine .inr ⟨hframe, List.Subset.trans hfree ?_⟩
        exact List.cons_subset_cons _ (visibleNames_subset_of_extends hs)
    refine hdefine.bind fun u' _ _ _ hname => Simulation.related_pure fun u'' hu'' => ⟨.void, ?_⟩
    intro x hx
    rw [Expr.definedBy_define] at hx
    rw [List.mem_singleton.mp hx]
    exact visibleNames_subset_of_extends hu'' hname
  · exact Simulation.related_malformed _

/-- In a `begin`, what a definition binds is visible to the forms after it. -/
theorem inOrder_related {last last' : Value} (hes : Expr.freeForm .begin es ⊆ w.visibleNames f)
    (hlast : scoping.simulation.Values w last last') :
    scoping.simulation.Related w scoping.simulation.Values
      (Eval.inOrder (eval n) f last es) (Eval.inOrder (eval n) f last' es) := by
  induction es generalizing w last last' with
  | nil => exact Simulation.related_pure fun _ hu => hlast.mono hu
  | cons e es ih =>
    obtain ⟨he, hrest⟩ := List.append_subset.mp hes
    refine (hn hf he).bind fun u v v' hu hv => ?_
    obtain ⟨hv, hdefined⟩ := hv
    refine ih (Nat.lt_of_lt_of_le hf hu.size_le) (fun x hx => ?_) hv
    by_cases hmem : x ∈ e.definedBy
    · exact hdefined hmem
    · exact visibleNames_subset_of_extends hu
        (hrest (List.mem_filter.mpr ⟨hx, by simpa using hmem⟩))

theorem set_related
    (hes : (Expr.list (.symbol Keyword.set.name :: es)).free ⊆ w.visibleNames f) :
    scoping.simulation.Related w scoping.simulation.Values
      (Eval.set (eval n) f es) (Eval.set (eval n) f es) := by
  unfold Eval.set
  split
  · rename_i name e
    have hfree : e.free ⊆ w.visibleNames f := fun x hx => hes (Expr.mem_free_assigned (.inr hx))
    have hname : name ∈ w.visibleNames f := hes (Expr.mem_free_assigned (.inl rfl))
    refine Simulation.thenVoid_related (treats hn hf hfree) fun u v v' hu hvalues => ?_
    obtain ⟨rfl, hv⟩ := Invariant.values_iff.mp hvalues
    have hassign : scoping.simulation.Related u (fun _ a b => a = b ∧ True)
        (Run.assign f name v) (Run.assign f name v) := by
      refine Invariant.onStore_related ?_
      intro _ s hs h
      obtain ⟨rfl, hheld⟩ := h
      exact assign_acts hheld (visibleNames_subset_of_extends (hu.trans hs) hname)
        fun c hc => (hv c hc).mono hs
    exact hassign.imp fun _ _ _ _ _ => trivial
  · exact Simulation.related_malformed _

omit hn hf in
theorem pushFrame_related {ps : List (String × Value)} (hps : ∀ p ∈ ps, scoping.Values w p.2) :
    scoping.simulation.Related w
      (fun u g g' => g = g' ∧ g < u.frames.size ∧
        ps.map Prod.fst ++ w.visibleNames f ⊆ u.visibleNames g)
      (Run.pushFrame f ps) (Run.pushFrame f ps) := by
  refine Invariant.onStore_related ?_
  intro _ s hs h
  obtain ⟨rfl, hheld⟩ := h
  rw [pushPairs_eq]
  refine push_acts hheld (visibleNames_subset_of_extends hs) (fun b hb name v hv c hc => ?_)
    (fun b hb x hx => Bindings.binds_of_extend hb (.inr hx))
    fun e he => Bindings.exists_of_extend_error he
  exact closures_of_extend (fun p hp d hd => (hps p hp d hd).mono hs) hb hv c hc

omit hn hf in
theorem pushCall_related {c : Closure} {self? : Option String} {vs : List Value}
    (hc : w.Covers c) (hvs : ∀ v ∈ vs, scoping.Values w v) (hlength : vs.length = c.params.length) :
    scoping.simulation.Related w
      (fun u g g' => g = g' ∧ g < u.frames.size ∧
        c.params ++ w.visibleNames c.frame ⊆ u.visibleNames g)
      (Run.pushCall c self? vs) (Run.pushCall c self? vs) := by
  refine Invariant.onStore_related ?_
  intro _ s hs h
  obtain ⟨rfl, hheld⟩ := h
  rw [pushCall_eq]
  refine push_acts hheld (visibleNames_subset_of_extends hs) (fun b hb name v hv d hd => ?_)
    (fun b hb x hx => binds_of_callBindings hb hlength hx)
    fun e he => exists_of_callBindings_error he
  exact closures_of_callBindings (hc.mono hs) (fun v hv d hd => (hvs v hv d hd).mono hs) hb hv d hd

theorem let_related
    (hes : (Expr.list (.symbol Keyword.letIn.name :: es)).free ⊆ w.visibleNames f) :
    scoping.simulation.Related w scoping.simulation.Values
      (Eval.letIn (eval n) f es) (Eval.letIn (eval n) f es) := by
  refine Simulation.letIn_related ?_ ?_
  · rintro binders body rfl name e hmem
    exact treats hn hf fun x hx => hes (Expr.mem_free_binder hmem hx)
  · rintro binders body rfl u ps qs hu hps hnames
    obtain ⟨rfl, hvalues⟩ := Invariant.pairs_iff.mp hps
    refine (pushFrame_related (f := f) hvalues).bind fun u' g g' _ hg => ?_
    obtain ⟨rfl, hg, hvisible⟩ := hg
    rw [hnames] at hvisible
    refine treats hn hg fun x hx => hvisible ?_
    by_cases hbound : x ∈ Expr.boundNames binders
    · exact List.mem_append_left _ hbound
    · exact List.mem_append_right _
        (visibleNames_subset_of_extends hu (hes (Expr.mem_free_letBody hx hbound)))

omit hf in
/-- The body of a covered closure finds its names in the frame of a call. -/
theorem enter_related {c : Closure} (hc : w.Covers c) {vs : List Value}
    (hvs : ∀ v ∈ vs, scoping.Values w v) (hlength : vs.length = c.params.length) :
    scoping.simulation.Related w scoping.simulation.Values
      (Eval.enter (eval n) c head vs) (Eval.enter (eval n) c head vs) := by
  refine (pushCall_related hc hvs hlength).bind fun u g g' _ hg => ?_
  obtain ⟨rfl, hg, hvisible⟩ := hg
  refine treats hn hg fun x hx => hvisible ?_
  by_cases hparam : x ∈ c.params
  · exact List.mem_append_left _ hparam
  · exact List.mem_append_right _ (hc (List.mem_filter.mpr ⟨hx, by simpa using hparam⟩))

omit hn hf in
theorem established_of_values {ev : Run EvalError Value} (he : e.definedBy = [])
    (h : scoping.simulation.Related w scoping.simulation.Values ev ev) :
    scoping.simulation.Related w (Established f e) ev ev :=
  h.imp fun _ _ _ _ hv => ⟨hv, by simp [he]⟩

theorem keyword_related (k : Keyword)
    (hes : (Expr.list (.symbol k.name :: es)).free ⊆ w.visibleNames f) :
    scoping.simulation.Related w (Established f (.list (.symbol k.name :: es)))
      (Eval.keyword (eval n) f k es) (Eval.keyword (eval n) f k es) := by
  have hoperands : k = .ifElse ∨ k = .display ∨ k = .writeLine →
      ∀ e ∈ es, scoping.simulation.Treats (eval n) (eval n) f f w e :=
    fun hk e he => treats hn hf fun x hx => hes (Expr.mem_free_operand hk he hx)
  have hwrite : ∀ u text, scoping.simulation.Related u scoping.simulation.NoResult
      (Run.write text) (Run.write text) :=
    fun u text => Simulation.related_write rfl (by rintro r name ⟨⟩) text
  by_cases hdefine : k = .define
  · subst hdefine
    exact define_related hn hf hes
  · refine established_of_values (Expr.definedBy_eq_nil ?_) ?_
    · rw [Expr.keyword?_symbol_name]
      exact fun h => hdefine (Option.some.inj h)
    · cases k with
      | define => exact absurd rfl hdefine
      | ifElse => exact Simulation.ifElse_related (hoperands (.inl rfl))
      | cond =>
        refine Simulation.cond_related fun p r hmem => ⟨treats hn hf ?_, treats hn hf ?_⟩
        · exact fun x hx => hes (Expr.mem_free_clause hmem (List.mem_append_left _ hx))
        · exact fun x hx => hes (Expr.mem_free_clause hmem (List.mem_append_right _ hx))
      | letIn => exact let_related hn hf hes
      | lambda =>
        have hextra : (Expr.list (.symbol Keyword.lambda.name :: es)).free ⊆
          [] ++ w.visibleNames f := hes
        refine (lambda_related hextra).imp fun u v v' _ h => ?_
        refine Invariant.values_iff.mpr ⟨h.1, fun c hc => ?_⟩
        obtain ⟨hframe, hfree⟩ := h.2 c hc
        have hcovers : c.free ⊆ u.visibleNames c.frame := by rwa [hframe]
        exact hcovers
      | set => exact set_related hn hf hes
      | begin => exact inOrder_related hn hf hes .void
      | display =>
        exact Simulation.output_related (hoperands (.inr (.inl rfl))) fun u text _ => hwrite u text
      | writeLine =>
        exact Simulation.output_related (hoperands (.inr (.inr rfl))) fun u text _ => hwrite u text
      | readLine =>
        refine Simulation.readLine_related (Simulation.related_readLine rfl ?_ ?_)
        · rintro r name ⟨⟩
        · rintro name ⟨⟩

theorem form_related (hes : (Expr.list (head :: es)).free ⊆ w.visibleNames f) :
    scoping.simulation.Related w (Established f (.list (head :: es)))
      (Eval.form (eval n) f head es) (Eval.form (eval n) f head es) := by
  cases hk : head.keyword? with
  | some k =>
    obtain rfl := Expr.eq_symbol_of_keyword? hk
    rw [Eval.form_keyword]
    exact keyword_related hn hf k hes
  | none =>
    refine established_of_values (Expr.definedBy_eq_nil (by simp [hk])) ?_
    cases hop : head.operator? with
    | some op =>
      rw [Expr.free_operator hop hk] at hes
      rw [Eval.form_operator hop]
      refine Simulation.operator_related op fun e he => treats hn hf fun x hx => ?_
      exact hes (Expr.mem_freeAll.mpr ⟨e, he, hx⟩)
    | none =>
      rw [Expr.free_call hop hk] at hes
      obtain ⟨hhead, hoperands⟩ := List.append_subset.mp hes
      rw [Eval.form_call hop hk]
      refine Simulation.call_related (treats hn hf hhead)
        (fun e he => treats hn hf fun x hx => ?_) ?_
      · exact hoperands (Expr.mem_freeAll.mpr ⟨e, he, hx⟩)
      · intro u c d vs vs' _ h hvalues hlength
        obtain ⟨rfl, hc⟩ := h
        obtain ⟨rfl, hvs⟩ := Invariant.values_all_iff.mp hvalues
        exact enter_related hn hc hvs hlength

theorem step_related (he : e.free ⊆ w.visibleNames f) :
    scoping.simulation.Related w (Established f e)
      (Eval.step (eval n) e f) (Eval.step (eval n) e f) := by
  unfold Eval.step
  split
  · exact established_of_values rfl (Simulation.related_pure fun _ _ => .integer _)
  · exact established_of_values rfl (Simulation.related_pure fun _ _ => .float _)
  · exact established_of_values rfl (Simulation.related_pure fun _ _ => .boolean _)
  · exact established_of_values rfl (Simulation.related_pure fun _ _ => .list .nil)
  · rename_i name
    split
    · exact established_of_values rfl (Simulation.related_pure fun _ _ => .boolean true)
    · rename_i hname
      refine established_of_values rfl (lookup_related (he ?_))
      unfold Expr.free
      rw [if_neg hname]
      exact List.mem_singleton_self name
  · exact Simulation.related_malformed _
  · exact form_related hn hf he

omit hn hf in
theorem eval_related (n : Nat) : Hypothesis n := by
  induction n with
  | zero => exact fun _ _ => Simulation.related_outOfFuel
  | succ n ih => exact fun hf he => step_related ih hf he

end Rules

end scoping

/-- Well-scoped programs find their names. If an expression is well scoped in a
frame, then its evaluation there never fails with an unbound name, and however it
ends, the expression is still well scoped in the store it leaves, which covers
the closures in the result as well. -/
theorem well_scoped_never_unbound (n : Nat) {e : Expr} {f : FrameId} {m : Machine}
    (hf : f < m.store.frames.size) (he : WellScoped e f m.store) :
    (∀ v m', eval n e f m = .result v m' →
      WellScoped e f m'.store ∧ ∀ c ∈ v.closures, m'.store.Covers c) ∧
    ∀ err m', eval n e f m = .error err m' →
      WellScoped e f m'.store ∧ ∀ name, err ≠ .name (.unbound name) := by
  have hends : scoping.Ends m.store scoping.Values (eval n e f m) :=
    Invariant.ends_of_run (scoping.eval_related n hf he.free_visible)
      (fun _ _ _ _ h => (Invariant.values_iff.mp h.1).2) ⟨rfl, he.held_covered⟩
  have hstill : ∀ m' : Machine, m.store.Grows m'.store →
      (∀ c, m'.store.Holds c → m'.store.Covers c) → WellScoped e f m'.store := fun m' hle hheld =>
    ⟨List.Subset.trans he.free_visible (visibleNames_subset_of_extends hle), hheld⟩
  refine ⟨fun v m' heval => ?_, fun err m' heval => ?_⟩
  · rw [heval] at hends
    obtain ⟨_, hle, ⟨rfl, hheld⟩, hv⟩ := hends
    exact ⟨hstill m' hle hheld, hv⟩
  · rw [heval] at hends
    obtain ⟨htolerates, _, hle, rfl, hheld⟩ := hends
    exact ⟨hstill m' hle hheld, htolerates⟩

/-- A procedure that calls itself may use its own name; here it does so until `car` fails. -/
theorem self_call_is_well_scoped :
    let e : Expr := .list [.symbol "begin", .list [.symbol "define", .symbol "f",
      .list [.symbol "lambda", .list [.symbol "x"], .list [.symbol "f",
        .list [.symbol "car", .symbol "x"]]]], .list [.symbol "f", .null]]
    ∃ m', eval 9 e 0 (Session.start (.ofLines [])) = .error (.emptyList .car) m' ∧
      WellScoped e 0 m'.store := by
  intro e
  have hfree : e.free = [] := by decide
  have he : WellScoped e 0 (Session.start (.ofLines [])).store :=
    ⟨by simp [hfree], fun c hc => absurd hc (Session.not_holds_start _ c)⟩
  obtain ⟨m', heval⟩ := Outcome.exists_of_error?
    (show (eval 9 e 0 (Session.start (.ofLines []))).error? = some (.emptyList .car) by
      decide +kernel)
  exact ⟨m', heval, ((well_scoped_never_unbound 9 (by decide) he).2 _ m' heval).1⟩

end LexicalLisp
