import LexicalLisp.Proofs.Scoping.Occurrence
import LexicalLisp.Proofs.Session.Indistinguishable

/-!
# Evaluation without effects

An expression has effects by assigning, writing and reading, and by definitions in the
frame in which it is evaluated. Definitions in the body of a `let` or of a closure are
no effects: they act on frames that are opened on the way. Without effects, evaluation
leaves all frames there were and the terminal as they are. It may add frames and use up
numbers of closures, so that a second evaluation begins in a larger store; it ends as the
first one did, up to a renaming of what the two of them have added.
-/

namespace LexicalLisp

open Store

namespace Expr

/-- The keywords of the forms that act on any frame or on the terminal. -/
def effects : List Keyword := [.set, .display, .writeLine, .readLine]

/-- No form that assigns, writes or reads may be evaluated on behalf of the expression. -/
def Quiet (e : Expr) : Prop :=
  ∀ k ∈ effects, ∀ es, ¬e.Evaluates (.list (.symbol k.name :: es))

/-- No definition may be evaluated in the frame of the expression, but only in the bodies of
`let` and `lambda` forms. -/
def Contained (e : Expr) : Prop :=
  ∀ es, ¬e.EvaluatesInPlace (.list (.symbol Keyword.define.name :: es))

variable {e e' : Expr} {n : Nat}

theorem Quiet.of_part (h : e.Quiet) (he' : e' ∈ e.parts) : e'.Quiet :=
  fun k hk es hes => h k hk es (hes.of_part he')

theorem Contained.of_part (h : e.Contained) (he' : e' ∈ e.ownParts) : e'.Contained :=
  fun es hes => h es (hes.of_part he')

/-- The expression is no form with one of the keywords. -/
def isOther (ks : List Keyword) : Expr → Bool
  | list (symbol name :: _) => ks.all (·.name ≠ name)
  | _ => true

theorem quiet_of_check (h : e.holdsThroughout parts (isOther effects) n) : e.Quiet := by
  intro k hk es hes
  have hother := List.all_eq_true.mp (of_holdsThroughout h hes) k hk
  exact of_decide_eq_true hother rfl

theorem contained_of_check (h : e.holdsThroughout ownParts (isOther [.define]) n) :
    e.Contained := by
  intro es hes
  have hother := List.all_eq_true.mp (of_holdsThroughout h hes) .define List.mem_cons_self
  exact of_decide_eq_true hother rfl

end Expr

/-- The frames there were stand where they stood, with the same links and bindings. -/
structure Store.Preserves (s s' : Store) : Prop where
  size_le : s.frames.size ≤ s'.frames.size
  frames_eq : ∀ g, g < s.frames.size → s'.frames[g]? = s.frames[g]?

namespace Store.Preserves

variable {s s' : Store} {f : FrameId}

theorem refl (s : Store) : s.Preserves s := ⟨Nat.le_refl _, fun _ _ => rfl⟩

theorem bindingsOf_eq (h : s.Preserves s') (hf : f < s.frames.size) :
    s'.bindingsOf f = s.bindingsOf f := by
  unfold bindingsOf
  rw [h.frames_eq f hf]

theorem bind (h : s.Preserves s') (hf : s.frames.size ≤ f) (x : String) (v : Value) :
    s.Preserves (s'.bind f x v) where
  size_le := by
    rw [size_bind]
    exact h.size_le
  frames_eq g hg := by
    have hgf : g ≠ f := Nat.ne_of_lt (Nat.lt_of_lt_of_le hg hf)
    exact (frames_setBindings_of_ne s' f g _ hgf).trans (h.frames_eq g hg)

theorem push (h : s.Preserves s') (outer : Option FrameId) (b : Bindings) :
    s.Preserves (s'.push outer b).2 where
  size_le := by
    rw [size_push]
    exact Nat.le_succ_of_le h.size_le
  frames_eq g hg := by
    have hlast : g ≠ s'.frames.size := Nat.ne_of_lt (Nat.lt_of_lt_of_le hg h.size_le)
    unfold Store.push
    rw [Array.getElem?_push, if_neg hlast]
    exact h.frames_eq g hg

end Store.Preserves

/-- Neither the frames there were nor the terminal have changed. -/
structure Machine.Undisturbed (m m' : Machine) : Prop where
  store : m.store.Preserves m'.store
  terminal : m'.terminal = m.terminal

/-- Neither the expression nor a closure of the store has effects. -/
structure EffectFree (e : Expr) (s : Store) : Prop where
  quiet : e.Quiet
  contained : e.Contained
  held : ∀ c, s.Holds c → c.body.Quiet

/-- One run, compared with itself, that leaves the frames of a store and the terminal alone. -/
def undisturbing (m : Machine) : Simulation where
  World := Unit
  le _ _ := True
  stores _ s t := s = t ∧ m.store.Preserves s ∧ ∀ c, s.Holds c → c.body.Quiet
  terminals t t' := t = t' ∧ t = m.terminal
  closures _ c d := c = d ∧ c.body.Quiet
  tolerates _ := True
  le_refl _ := trivial
  le_trans _ _ _ _ _ := trivial
  closures_mono _ _ _ h := h
  keepsParams _ _ _ h := congrArg _ h.1
  keepsIdentity _ _ _ _ _ h h' := by rw [h.1, h'.1]
  tolerates_local _ := trivial

namespace undisturbing

variable {m : Machine} {w : (undisturbing m).World} {s : Store} {f : FrameId} {e : Expr}

/-- In the frames there were, code must not define anything. -/
def Runs (m : Machine) (_ : (undisturbing m).World) (e : Expr) (f g : FrameId) : Prop :=
  f = g ∧ e.Quiet ∧ (f < m.store.frames.size → e.Contained)

theorem values_iff {v v' : Value} :
    (undisturbing m).Values w v v' ↔ v = v' ∧ ∀ c ∈ v.closures, c.body.Quiet :=
  Value.Related.same_iff

theorem push_acts (h : (undisturbing m).stores w s s) (he : e.Quiet) (outer : Option FrameId)
    {b? : Except NameError Bindings}
    (hb : ∀ b, b? = .ok b → ∀ x v, b.lookup x = some v → ∀ c ∈ v.closures, c.body.Quiet) :
    (undisturbing m).Acts w (fun u => Runs m u e) (s.pushResult outer b?)
      (s.pushResult outer b?) := by
  obtain ⟨-, hpres, hheld⟩ := h
  cases b? with
  | error err => exact .error (u := w) trivial ⟨rfl, hpres, hheld⟩ trivial
  | ok b =>
    refine .ok (u := w) trivial ⟨rfl, hpres.push outer b, fun c hc => ?_⟩ ⟨rfl, he, fun hlt => ?_⟩
    · rcases holds_of_holds_push hc with hold | ⟨x, v, hv, hnew⟩
      · exact hheld c hold
      · exact hb b rfl x v hv c hnew
    · exact absurd hlt (Nat.not_lt_of_le hpres.size_le)

theorem supports (m : Machine) : (undisturbing m).Supports (Runs m) where
  mono _ _ _ _ h := h
  parts {_ e _ _} h e' he' :=
    ⟨h.1, h.2.1.of_part (e.ownParts_subset he'), fun hf => (h.2.2 hf).of_part he'⟩
  body h := congrArg _ h.1
  lookup := by
    rintro w f _ x ⟨rfl, -⟩ -
    refine Simulation.related_lookup fun u s _ _ h => ?_
    obtain ⟨rfl, hpres, hheld⟩ := h
    cases hlookup : s.lookup f x with
    | error err => exact .error (u := u) trivial ⟨rfl, hpres, hheld⟩ trivial
    | ok v =>
      have hv : ∀ c ∈ v.closures, c.body.Quiet :=
        fun c hc => hheld c (holds_of_lookup hlookup hc)
      exact .ok (u := u) trivial ⟨rfl, hpres, hheld⟩ (values_iff.mpr ⟨rfl, hv⟩)
  define := by
    rintro w f _ x e v _ ⟨rfl, -, hcontained⟩ hvalues
    obtain ⟨rfl, hv⟩ := values_iff.mp hvalues
    -- A definition is evaluated here, so the frame is a new one.
    have hf : m.store.frames.size ≤ f := Nat.le_of_not_lt fun hlt => hcontained hlt _ (.refl _)
    refine Simulation.related_onStore fun u s _ _ h => ?_
    obtain ⟨rfl, hpres, hheld⟩ := h
    unfold Store.define
    split
    · exact .error (u := u) trivial ⟨rfl, hpres, hheld⟩ trivial
    · refine .ok (u := u) trivial ⟨rfl, hpres.bind hf x v, fun c hc => ?_⟩ trivial
      rcases holds_of_holds_bind hc with hold | hnew
      · exact hheld c hold
      · exact hv c hnew
  assign := by
    rintro w f _ x e v _ ⟨-, hquiet, -⟩ -
    exact absurd (Expr.Evaluates.refl _) (hquiet .set (by simp [Expr.effects]) _)
  openLet := by
    rintro w f _ binders body ps _ ⟨rfl, hquiet, -⟩ hpairs
    have hbody : body.Quiet := hquiet.of_part (Expr.mem_parts_letBody binders body)
    obtain ⟨rfl, hps⟩ := Value.Related.same_pairs_iff.mp hpairs
    refine Simulation.related_onStore fun u s _ _ h => ?_
    obtain ⟨rfl, hs⟩ := h
    exact push_acts ⟨rfl, hs⟩ hbody (some f) fun b hb x v hv => closures_of_extend hps hb hv
  openCall := by
    rintro w c _ self? vs _ ⟨rfl, hc⟩ hvalues -
    obtain ⟨rfl, hvs⟩ := Value.Related.same_all_iff.mp hvalues
    refine Simulation.related_onStore fun u s _ _ h => ?_
    obtain ⟨rfl, hs⟩ := h
    rw [pushCall_eq]
    exact push_acts ⟨rfl, hs⟩ hc (some c.frame)
      fun b hb x v hv => closures_of_callBindings hc hvs hb hv
  makeClosure := by
    rintro w f _ parameters body params ⟨rfl, hquiet, -⟩ -
    have hbody : body.Quiet := hquiet.of_part (Expr.mem_parts_lambdaBody parameters body)
    refine Simulation.related_onStore fun u s _ _ h => ?_
    obtain ⟨rfl, hpres, hheld⟩ := h
    exact .ok (u := u) trivial ⟨rfl, ⟨hpres.size_le, hpres.frames_eq⟩, hheld⟩ ⟨rfl, hbody⟩
  write := by
    rintro w f g es text k hk ⟨-, hquiet, -⟩
    have heffect : k ∈ Expr.effects := by
      rcases hk with rfl | rfl
      · simp [Expr.effects]
      · simp [Expr.effects]
    exact absurd (Expr.Evaluates.refl _) (hquiet k heffect _)
  readLine := by
    rintro w f g es ⟨-, hquiet, -⟩
    exact absurd (Expr.Evaluates.refl _) (hquiet .readLine (by simp [Expr.effects]) _)

end undisturbing

/-- Evaluation without effects changes nothing, and brings no closures with effects about. -/
theorem eval_undisturbed (n : Nat) {e : Expr} (f : FrameId) {m : Machine}
    (h : EffectFree e m.store) :
    (eval n e f m).Leaves fun m' => m.Undisturbed m' ∧ EffectFree e m'.store := by
  have hruns : undisturbing.Runs m () e f f := ⟨rfl, h.quiet, fun _ => h.contained⟩
  have hends := (undisturbing.supports m).eval_related n hruns () m m trivial
    ⟨⟨rfl, .refl m.store, h.held⟩, rfl, rfl⟩
  cases heval : eval n e f m with
  | outOfFuel => trivial
  | result v m' =>
    rw [heval] at hends
    cases hends with
    | result _ hm _ =>
      obtain ⟨⟨-, hpres, hheld⟩, -, hterminal⟩ := hm
      exact ⟨⟨hpres, hterminal⟩, h.quiet, h.contained, hheld⟩
  | error err m' =>
    rw [heval] at hends
    cases hends with
    | error _ hm _ =>
      obtain ⟨⟨-, hpres, hheld⟩, -, hterminal⟩ := hm
      exact ⟨⟨hpres, hterminal⟩, h.quiet, h.contained, hheld⟩

/-- How a run from the machine `m` and a second one right after it end: neither changes
anything there was before it, and the second one ends with the same error as the first, or
with a value that prints the same and is the same up to a renaming. All frames and closures
of `m` keep their names in it, and the frames with new names bind what the old ones do. -/
inductive Outcome.Repeats (m : Machine) :
    Outcome EvalError Value → Outcome EvalError Value → Prop
  | result {v w : Value} {m' m'' : Machine} {ρ : Renaming} :
    m.Undisturbed m' → m'.Undisturbed m'' → (Renaming.existing m.store).Within ρ →
    ρ.Stores m''.store m'.store → ρ.Values w v → w.text = v.text →
    Repeats m (.result v m') (.result w m'')
  | error {err : EvalError} {m' m'' : Machine} :
    m.Undisturbed m' → m'.Undisturbed m'' → Repeats m (.error err m') (.error err m'')

/-- On a machine that has more frames and is otherwise the same, evaluation ends alike. -/
theorem eval_again (n : Nat) (e : Expr) {f : FrameId} {m m' : Machine}
    {closed : FrameId → Prop} (hm : m.store.WellFormed) (hf : f < m.store.frames.size)
    (h : m.Undisturbed m') (hext : m.store.Extends closed m'.store) :
    Renaming.simulation.Ends (Renaming.existing m.store) Renaming.simulation.Values
      (eval n e f m') (eval n e f m) := by
  have hsame : ∀ g, g < m.store.frames.size → ∀ name,
      (m'.store.bindingsOf g).lookup name = (m.store.bindingsOf g).lookup name := by
    intro g hg name
    rw [h.store.bindingsOf_eq hg]
  have hstores := Renaming.existing_stores hm hext hsame
  have hframe : (Renaming.existing m.store).frames f f := ⟨rfl, hf⟩
  exact Renaming.sound.eval_related n hframe trivial _ m' m (.refl _) ⟨hstores, h.terminal⟩

/-- Expressions without effects can be evaluated again. Evaluation ends as it does the first
time, and neither the frames there were nor the terminal are changed by it. -/
theorem effect_free_evaluation_repeats (n : Nat) {e : Expr} {f : FrameId} {m : Machine}
    (hm : m.store.WellFormed) (hf : f < m.store.frames.size) (h : EffectFree e m.store) :
    (eval n e f m).Leaves fun m' => (eval n e f m).Repeats m (eval n e f m') := by
  have hfirst := (eval_undisturbed n f h).and (eval_extends n e f m)
  have hboth := hfirst.imp fun m' hm' =>
    (⟨hm'.1.1, eval_undisturbed n f hm'.1.2, eval_again n e hm hf hm'.1.1 hm'.2⟩ :
      m.Undisturbed m' ∧ (eval n e f m').Leaves _ ∧ Renaming.simulation.Ends _ _ _ _)
  cases heval : eval n e f m with
  | outOfFuel => trivial
  | result v m' =>
    rw [heval] at hboth
    obtain ⟨hm', hsecond, hends⟩ := hboth
    simp only [Outcome.Leaves]
    generalize eval n e f m' = o at hends hsecond
    cases hends with
    | result hρ hstores hvalues =>
      have htext := hvalues.text_eq fun c d hcd => hcd.params
      exact .result hm' hsecond.1 hρ hstores.1 hvalues htext
  | error err m' =>
    rw [heval] at hboth
    obtain ⟨hm', hsecond, hends⟩ := hboth
    simp only [Outcome.Leaves]
    generalize eval n e f m' = o at hends hsecond
    cases hends with
    | error _ _ _ => exact .error hm' hsecond.1

/-- The body of `keep` defines a name in the frame of the call, and each evaluation makes a
closure in such a frame of its own. -/
theorem closure_is_made_again :
    let keep : Closure := ⟨0, ["x"], .list [.symbol "begin",
      .list [.symbol "define", .symbol "y", .symbol "x"],
      .list [.symbol "lambda", .list [], .symbol "y"]], 0⟩
    let s : Store := ((Session.start (.ofLines [])).store.makeClosure keep.params keep.body 0).2
    let m : Machine := ⟨s.bind 0 "keep" (.closure keep), .ofLines []⟩
    let e : Expr := .list [.symbol "let", .list [],
      .list [.symbol "begin", .list [.symbol "define", .symbol "z", .integer 1],
        .list [.symbol "keep", .symbol "z"]]]
    ∃ v m', eval 6 e 0 m = .result v m' ∧ v.text = "#<closure ()>" ∧
      Outcome.Repeats m (.result v m') (eval 6 e 0 m') := by
  intro keep s m e
  have hs : s.WellFormed := (Session.start_wellFormed (.ofLines [])).makeClosure _ _ _
  have hm : m.store.WellFormed := by
    refine hs.bind "keep" fun c hc => ?_
    obtain rfl : c = keep := by simpa [Value.closures] using hc
    exact ⟨Nat.zero_lt_one, Nat.zero_lt_one⟩
  have hkeep : keep.body.Quiet := Expr.quiet_of_check (n := 4) (by decide +kernel)
  have hquiet : e.Quiet := Expr.quiet_of_check (n := 5) (by decide +kernel)
  have hcontained : e.Contained := Expr.contained_of_check (n := 5) (by decide +kernel)
  have h : EffectFree e m.store := by
    refine ⟨hquiet, hcontained, fun c hc => ?_⟩
    rcases holds_of_holds_bind hc with hold | hnew
    · exact absurd hold (Session.not_holds_start (.ofLines []) c)
    · obtain rfl : c = keep := by simpa [Value.closures] using hnew
      exact hkeep
  have hf : 0 < m.store.frames.size := Nat.zero_lt_one
  obtain ⟨v, m', heval, htext⟩ := Outcome.exists_of_value?
    (show (eval 6 e 0 m).value?.map Value.text = some "#<closure ()>" by decide +kernel)
  -- From here on it does not matter which expression it is.
  clear_value e m
  have hrepeats := effect_free_evaluation_repeats 6 hm hf h
  rw [heval] at hrepeats
  exact ⟨v, m', heval, htext, hrepeats⟩

end LexicalLisp
