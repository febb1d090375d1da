import LexicalLisp.Proofs.Operator.Related
import LexicalLisp.Proofs.Terminal.Progress
import LexicalLisp.Session

/-!
# Evaluation as an interaction

All that a run comes to know about the terminal is what it is told: that a text was taken, or
which line was read. So what a run does from a given store can be drawn as a tree, which is the
same for all terminals: the run writes a text or reads a line, goes on as it is answered, and in
the end has a result or an error. If it is refused what it asks for, it ends at once. What is true
of such trees on two terminals is thus true of evaluation (`Session.run_interacts`).
-/

namespace LexicalLisp

/-- Errors that come from the terminal. -/
def EvalError.FromTerminal : EvalError → Prop
  | .endOfInput | .refused _ => True
  | _ => False

theorem EvalError.IsLocal.not_fromTerminal {e : EvalError} (h : e.IsLocal) : ¬e.FromTerminal := by
  cases e with
  | endOfInput | refused r => cases h
  | _ => exact id

instance {ε α : Type} {P : Machine → Prop} [DecidablePred P] (o : Outcome ε α) :
    Decidable (o.Leaves P) :=
  match o with
  | .result _ m | .error _ m => inferInstanceAs (Decidable (P m))
  | .outOfFuel => inferInstanceAs (Decidable True)

theorem Outcome.Leaves.all {ι ε α : Type} {P : ι → Machine → Prop} {o : Outcome ε α}
    (h : ∀ i, o.Leaves (P i)) : o.Leaves fun m => ∀ i, P i m := by
  cases o with
  | result a m => exact h
  | error e m => exact h
  | outOfFuel => trivial

def Outcome.mapTerminal {ε α : Type} (g : Terminal → Terminal) : Outcome ε α → Outcome ε α
  | result a m => result a { m with terminal := g m.terminal }
  | error e m => error e { m with terminal := g m.terminal }
  | outOfFuel => outOfFuel

/-- What a run does, as far as it depends on the terminal only by its answers. The store is the
one with which the run ends, or would end if it got no answer. -/
inductive Interaction (α : Type) : Type where
  | result (a : α) (s : Store)
  | error (e : EvalError) (own : ¬e.FromTerminal) (s : Store)
  | outOfFuel
  | write (text : String) (s : Store) (next : Interaction α)
  | readLine (s : Store) (next : String → Interaction α)

/-- Something that passes between a run and the terminal. -/
inductive Exchange where
  | wrote (text : String)
  | read (line : String)

namespace Exchange

def text? : Exchange → Option String
  | wrote text => some text
  | read _ => none

def line? : Exchange → Option String
  | wrote _ => none
  | read line => some line

def texts (es : List Exchange) : List String := es.filterMap text?

def lines (es : List Exchange) : List String := es.filterMap line?

@[simp] theorem texts_nil : texts [] = [] := rfl

@[simp] theorem texts_wrote (text : String) (es : List Exchange) :
    texts (wrote text :: es) = text :: texts es := rfl

@[simp] theorem texts_read (line : String) (es : List Exchange) :
    texts (read line :: es) = texts es := rfl

@[simp] theorem lines_nil : lines [] = [] := rfl

@[simp] theorem lines_wrote (text : String) (es : List Exchange) :
    lines (wrote text :: es) = lines es := rfl

@[simp] theorem lines_read (line : String) (es : List Exchange) :
    lines (read line :: es) = line :: lines es := rfl

end Exchange

namespace Interaction

variable {α β : Type}

/-- How the interaction goes with a terminal. -/
def on : Interaction α → Terminal → Outcome EvalError α
  | result a s, t => .result a ⟨s, t⟩
  | error e _ s, t => .error e ⟨s, t⟩
  | outOfFuel, _ => .outOfFuel
  | write text s next, t =>
    match t.write text with
    | (.ok (), t') => next.on t'
    | (.error r, t') => .error (.refused r) ⟨s, t'⟩
  | readLine s next, t =>
    match t.readLine with
    | (.ok (some line), t') => (next line).on t'
    | (.ok none, t') => .error .endOfInput ⟨s, t'⟩
    | (.error r, t') => .error (.refused r) ⟨s, t'⟩

def transcript : Interaction α → Terminal → List Exchange
  | write text _ next, t =>
    match t.write text with
    | (.ok (), t') => .wrote text :: next.transcript t'
    | (.error _, _) => []
  | readLine _ next, t =>
    match t.readLine with
    | (.ok (some line), t') => .read line :: (next line).transcript t'
    | _ => []
  | _, _ => []

def bind : Interaction α → (α → Store → Interaction β) → Interaction β
  | result a s, k => k a s
  | error e own s, _ => error e own s
  | outOfFuel, _ => outOfFuel
  | write text s next, k => write text s (next.bind k)
  | readLine s next, k => readLine s fun line => (next line).bind k

theorem on_bind (i : Interaction α) (k : α → Store → Interaction β) (t : Terminal) :
    (i.bind k).on t = match i.on t with
      | .result a m => (k a m.store).on m.terminal
      | .error e m => .error e m
      | .outOfFuel => .outOfFuel := by
  induction i generalizing t with
  | result a s => rfl
  | error e own s => rfl
  | outOfFuel => rfl
  | write text s next ih =>
    simp only [bind, on]
    rcases t.write text with ⟨_ | _, t'⟩
    · rfl
    · exact ih t'
  | readLine s next ih =>
    simp only [bind, on]
    rcases t.readLine with ⟨_ | _ | line, t'⟩
    · rfl
    · rfl
    · exact ih line t'

theorem on_leads (i : Interaction α) (t : Terminal) :
    (i.on t).Leaves fun m => t.Leads m.terminal := by
  induction i generalizing t with
  | result a s => exact .refl
  | error e own s => exact .refl
  | outOfFuel => trivial
  | write text s next ih =>
    simp only [on]
    rcases h : t.write text with ⟨r | _, t'⟩
    · exact Terminal.Leads.write h .refl
    · exact (ih t').imp fun m => Terminal.Leads.write h
  | readLine s next ih =>
    simp only [on]
    rcases h : t.readLine with ⟨r | _ | line, t'⟩
    · exact Terminal.Leads.readLine h .refl
    · exact Terminal.Leads.readLine h .refl
    · exact (ih line t').imp fun m => Terminal.Leads.readLine h

theorem on_writes (i : Interaction α) (t : Terminal) :
    (i.on t).Leaves fun m =>
      m.terminal.writes.toList = t.writes.toList ++ Exchange.texts (i.transcript t) := by
  induction i generalizing t with
  | result a s => exact (List.append_nil _).symm
  | error e own s => exact (List.append_nil _).symm
  | outOfFuel => trivial
  | write text s next ih =>
    have hwrites := t.writes_write text
    simp only [on, transcript]
    rcases h : t.write text with ⟨r | _, t'⟩
    · rw [h] at hwrites
      simpa [Outcome.Leaves] using hwrites
    · rw [h] at hwrites
      refine (ih t').imp fun m hm => ?_
      rw [hm, hwrites]
      simp
  | readLine s next ih =>
    have hwrites := t.writes_readLine
    simp only [on, transcript]
    rcases h : t.readLine with ⟨r | _ | line, t'⟩
    · rw [h] at hwrites
      simpa [Outcome.Leaves] using hwrites
    · rw [h] at hwrites
      simpa [Outcome.Leaves] using hwrites
    · rw [h] at hwrites
      refine (ih line t').imp fun m hm => ?_
      rw [hm, hwrites]
      simp

/-- The run does this when it begins with the store, whatever the terminal. -/
def Describes (i : Interaction α) (x : Run EvalError α) (s : Store) : Prop :=
  ∀ t, x ⟨s, t⟩ = i.on t

end Interaction

namespace Run

variable {α β : Type}

/-- The run depends on the terminal only by its answers. -/
def Interacts (x : Run EvalError α) : Prop :=
  ∀ s, ∃ i : Interaction α, i.Describes x s

theorem interacts_pure (a : α) : Interacts (pure a) :=
  fun s => ⟨.result a s, fun _ => rfl⟩

theorem interacts_fail {e : EvalError} (he : ¬e.FromTerminal) : Interacts (fail e : Run _ α) :=
  fun s => ⟨.error e he s, fun _ => rfl⟩

theorem interacts_malformed (cause : Malformed) :
    Interacts (fail (.malformed cause) : Run _ α) :=
  interacts_fail id

theorem interacts_outOfFuel : Interacts (outOfFuel : Run _ α) :=
  fun _ => ⟨.outOfFuel, fun _ => rfl⟩

theorem interacts_ofExcept {r : Except EvalError α} (h : ∀ e, r = .error e → ¬e.FromTerminal) :
    Interacts (ofExcept r) := by
  cases r with
  | ok a => exact interacts_pure a
  | error e => exact interacts_fail (h e rfl)

theorem interacts_onStore (act : Store → Except NameError α × Store) :
    Interacts (onStore act) := by
  intro s
  rcases hact : act s with ⟨e | a, s'⟩
  · exact ⟨.error (.name e) id s', fun t => by simp only [onStore, hact, Interaction.on]⟩
  · exact ⟨.result a s', fun t => by simp only [onStore, hact, Interaction.on]⟩

theorem lookup_eq_onStore (f : FrameId) (name : String) :
    lookup f name = onStore fun s => (s.lookup f name, s) := by
  funext m
  simp only [lookup, onStore]
  cases m.store.lookup f name <;> rfl

theorem interacts_lookup (f : FrameId) (name : String) : Interacts (lookup f name) := by
  rw [lookup_eq_onStore]
  exact interacts_onStore _

theorem interacts_write (text : String) : Interacts (write text) :=
  fun s => ⟨.write text s (.result () s), fun _ => rfl⟩

theorem interacts_readLine : Interacts readLine := by
  intro s
  refine ⟨.readLine s fun line => .result line s, fun t => ?_⟩
  rcases h : t.readLine with ⟨_ | _ | line, t'⟩ <;> simp only [readLine, Interaction.on, h]

theorem Interacts.bind {x : Run EvalError α} {k : α → Run EvalError β} (hx : x.Interacts)
    (hk : ∀ a, (k a).Interacts) : (x >>= k).Interacts := by
  intro s
  obtain ⟨i, hi⟩ := hx s
  choose j hj using hk
  refine ⟨i.bind j, fun t => ?_⟩
  rw [bind_apply, hi t, Interaction.on_bind]
  cases i.on t with
  | result a m => exact hj a m.store m.terminal
  | error e m => rfl
  | outOfFuel => rfl

end Run

namespace Eval

open Run

def Interacts (ev : Evaluator) : Prop := ∀ e f, (ev e f).Interacts

variable {ev : Evaluator} (hev : Interacts ev) (f : FrameId)
include hev

theorem operands_interacts (es : List Expr) : (operands ev f es).Interacts := by
  induction es with
  | nil => exact interacts_pure []
  | cons e es ih => exact (hev e f).bind fun v => ih.bind fun vs => interacts_pure (v :: vs)

theorem inOrder_interacts (last : Value) (es : List Expr) : (inOrder ev f last es).Interacts := by
  induction es generalizing last with
  | nil => exact interacts_pure last
  | cons e es ih => exact (hev e f).bind ih

theorem conjunction_interacts (last : Value) (es : List Expr) :
    (conjunction ev f last es).Interacts := by
  induction es generalizing last with
  | nil => exact interacts_pure last
  | cons e es ih =>
    refine (hev e f).bind fun v => ?_
    split
    · exact ih v
    · exact interacts_pure _

theorem disjunction_interacts (es : List Expr) : (disjunction ev f es).Interacts := by
  induction es with
  | nil => exact interacts_pure _
  | cons e es ih =>
    refine (hev e f).bind fun v => ?_
    split
    · exact interacts_pure v
    · exact ih

theorem operator_interacts (op : Operator) (es : List Expr) : (operator ev f op es).Interacts := by
  have hstrict : op.isLazy = false →
      (operands ev f es >>= fun args => ofExcept (op.apply args)).Interacts := by
    intro hop
    exact (operands_interacts hev f es).bind fun args =>
      interacts_ofExcept fun e he => (Operator.isLocal_of_apply hop he).not_fromTerminal
  cases op with
  | and => exact conjunction_interacts hev f _ es
  | or => exact disjunction_interacts hev f es
  | _ => exact hstrict rfl

theorem ifElse_interacts (es : List Expr) : (ifElse ev f es).Interacts := by
  unfold ifElse
  split
  · refine (hev _ f).bind fun v => ?_
    split
    · exact hev _ f
    · exact hev _ f
  · exact interacts_malformed _

theorem cond_interacts (clauses : List Expr) : (cond ev f clauses).Interacts := by
  fun_induction cond ev f clauses with
  | case1 => exact interacts_malformed _
  | case2 predicate result clauses ih =>
    refine (hev predicate f).bind fun v => ?_
    split
    · exact hev result f
    · exact ih
  | case3 => exact interacts_malformed _

theorem bindings_interacts (binders : List Expr) : (bindings ev f binders).Interacts := by
  fun_induction bindings ev f binders with
  | case1 => exact interacts_pure []
  | case2 name e rest ih => exact (hev e f).bind fun v => ih.bind fun pairs => interacts_pure _
  | case3 => exact interacts_malformed _

theorem letIn_interacts (es : List Expr) : (letIn ev f es).Interacts := by
  unfold letIn
  split
  · refine (bindings_interacts hev f _).bind fun pairs => ?_
    exact (interacts_onStore _).bind fun inner => hev _ inner
  · exact interacts_malformed _

theorem thenVoid_interacts (e : Expr) {act : Value → Run EvalError Unit}
    (hact : ∀ v, (act v).Interacts) :
    Run.Interacts (do
      let v ← ev e f
      act v
      return Value.void) :=
  (hev e f).bind fun v => (hact v).bind fun _ => interacts_pure _

theorem define_interacts (es : List Expr) : (define ev f es).Interacts := by
  unfold define
  split
  · exact thenVoid_interacts hev f _ fun _ => interacts_onStore _
  · exact interacts_malformed _

theorem set_interacts (es : List Expr) : (set ev f es).Interacts := by
  unfold set
  split
  · exact thenVoid_interacts hev f _ fun _ => interacts_onStore _
  · exact interacts_malformed _

omit hev in
theorem lambda_interacts (es : List Expr) : (lambda f es).Interacts := by
  unfold lambda
  split
  · split
    · exact (interacts_onStore _).bind fun c => interacts_pure _
    · exact interacts_malformed _
  · exact interacts_malformed _

theorem output_interacts (ending : String) (es : List Expr) :
    (output ev f ending es).Interacts := by
  unfold output
  split
  · exact thenVoid_interacts hev f _ fun _ => interacts_write _
  · exact interacts_malformed _

omit hev in
theorem readLine_interacts (es : List Expr) : (readLine es).Interacts := by
  unfold readLine
  split
  · exact interacts_readLine.bind fun line => interacts_pure _
  · exact interacts_malformed _

theorem keyword_interacts (k : Keyword) (es : List Expr) : (keyword ev f k es).Interacts := by
  cases k with
  | ifElse => exact ifElse_interacts hev f es
  | cond => exact cond_interacts hev f es
  | letIn => exact letIn_interacts hev f es
  | define => exact define_interacts hev f es
  | lambda => exact lambda_interacts f es
  | set => exact set_interacts hev f es
  | begin => exact inOrder_interacts hev f _ es
  | display => exact output_interacts hev f _ es
  | writeLine => exact output_interacts hev f _ es
  | readLine => exact readLine_interacts es

theorem call_interacts (head : Expr) (es : List Expr) : (call ev f head es).Interacts := by
  refine (hev head f).bind fun v => ?_
  split
  · rename_i c
    refine (operands_interacts hev f es).bind fun args => ?_
    split
    · exact (interacts_onStore _).bind fun inner => hev c.body inner
    · exact interacts_fail id
  · exact interacts_fail id

theorem form_interacts (head : Expr) (es : List Expr) : (form ev f head es).Interacts := by
  unfold form
  split
  · split
    · exact operator_interacts hev f _ es
    · split
      · exact keyword_interacts hev f _ es
      · exact call_interacts hev f _ es
  · exact call_interacts hev f head es

omit f in
/-- One level of evaluation depends on the terminal only by its answers, if the evaluator of the
parts does. -/
theorem step_interacts : Interacts (step ev) := by
  intro e f
  unfold step
  split
  · exact interacts_pure _
  · exact interacts_pure _
  · exact interacts_pure _
  · exact interacts_pure _
  · split
    · exact interacts_pure _
    · exact interacts_lookup f _
  · exact interacts_malformed _
  · exact form_interacts hev f _ _

end Eval

theorem eval_interacts (n : Nat) : Eval.Interacts (eval n) := by
  induction n with
  | zero => exact fun _ _ => Run.interacts_outOfFuel
  | succ n ih => exact Eval.step_interacts ih

theorem Session.run_interacts (depth : Nat) (program : List Expr) (f : FrameId) :
    (run depth program f).Interacts :=
  Eval.inOrder_interacts (eval_interacts depth) f .void program

end LexicalLisp
