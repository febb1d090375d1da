import Mathlib.Order.Monotone.Basic
import LexicalLisp.Eval

/-!
# Depths of evaluation

Evaluation is bounded by a depth of nesting. An evaluation that ends within some depth
ends in the same way within every greater one, because every rule hands this on from the
evaluator of the parts (`Eval.step_mono`). So how an evaluation ends does not depend on the
depth, and neither does whether two expressions can be told apart by evaluating them.
-/

namespace LexicalLisp

namespace Run

variable {ε α β : Type}

/-- Where the lesser run ends, the greater one ends in the same way. -/
instance : Preorder (Run ε α) where
  le x y := ∀ m, x m = .outOfFuel ∨ x m = y m
  le_refl _ _ := .inr rfl
  le_trans x y z hxy hyz m := by
    rcases hxy m with hx | hx
    · exact .inl hx
    · rw [hx]
      exact hyz m

theorem outOfFuel_le (x : Run ε α) : outOfFuel ≤ x := fun _ => .inl rfl

theorem bind_mono {x y : Run ε α} {k l : α → Run ε β} (h : x ≤ y) (hk : ∀ a, k a ≤ l a) :
    x >>= k ≤ y >>= l := by
  intro m
  rw [bind_apply, bind_apply]
  rcases h m with hx | hx
  · rw [hx]
    exact .inl rfl
  · rw [hx]
    cases y m with
    | result a m' => exact hk a m'
    | error e m' => exact .inr rfl
    | outOfFuel => exact .inl rfl

theorem ite_mono {c : Prop} [Decidable c] {x x' y y' : Run ε α} (hx : x ≤ x') (hy : y ≤ y') :
    (if c then x else y) ≤ if c then x' else y' := by
  split
  · exact hx
  · exact hy

end Run

namespace Eval

open Run (bind_mono ite_mono)

section Rules

variable {ev ev' : Evaluator} (h : ev ≤ ev') (f : FrameId)
include h

theorem operands_mono (es : List Expr) : operands ev f es ≤ operands ev' f es := by
  induction es with
  | nil => exact le_rfl
  | cons e es ih => exact bind_mono (h e f) fun v => bind_mono ih fun vs => le_rfl

theorem inOrder_mono (last : Value) (es : List Expr) :
    inOrder ev f last es ≤ inOrder ev' f last es := by
  induction es generalizing last with
  | nil => exact le_rfl
  | cons e es ih => exact bind_mono (h e f) ih

theorem conjunction_mono (last : Value) (es : List Expr) :
    conjunction ev f last es ≤ conjunction ev' f last es := by
  induction es generalizing last with
  | nil => exact le_rfl
  | cons e es ih => exact bind_mono (h e f) fun v => ite_mono (ih v) le_rfl

theorem disjunction_mono (es : List Expr) : disjunction ev f es ≤ disjunction ev' f es := by
  induction es with
  | nil => exact le_rfl
  | cons e es ih => exact bind_mono (h e f) fun v => ite_mono le_rfl ih

theorem operator_mono (op : Operator) (es : List Expr) :
    operator ev f op es ≤ operator ev' f op es := by
  unfold operator
  split
  · exact conjunction_mono h f _ es
  · exact disjunction_mono h f es
  · exact bind_mono (operands_mono h f es) fun args => le_rfl

theorem ifElse_mono (es : List Expr) : ifElse ev f es ≤ ifElse ev' f es := by
  unfold ifElse
  split
  · exact bind_mono (h _ f) fun v => ite_mono (h _ f) (h _ f)
  · exact le_rfl

theorem cond_mono (clauses : List Expr) : cond ev f clauses ≤ cond ev' f clauses := by
  induction clauses with
  | nil => exact le_rfl
  | cons clause clauses ih =>
    unfold cond
    split
    · exact le_rfl
    · rename_i p r rest heq
      obtain ⟨rfl, rfl⟩ := List.cons.inj heq
      exact bind_mono (h p f) fun v => ite_mono (h r f) ih
    · exact le_rfl

theorem bindings_mono (binders : List Expr) : bindings ev f binders ≤ bindings ev' f binders := by
  induction binders with
  | nil => exact le_rfl
  | cons binder binders ih =>
    unfold bindings
    split
    · exact le_rfl
    · rename_i name e rest heq
      obtain ⟨rfl, rfl⟩ := List.cons.inj heq
      exact bind_mono (h e f) fun v => bind_mono ih fun pairs => le_rfl
    · exact le_rfl

theorem letIn_mono (es : List Expr) : letIn ev f es ≤ letIn ev' f es := by
  unfold letIn
  split
  · rename_i binders body
    exact bind_mono (bindings_mono h f binders) fun pairs => bind_mono le_rfl (h body)
  · exact le_rfl

theorem define_mono (es : List Expr) : define ev f es ≤ define ev' f es := by
  unfold define
  split
  · exact bind_mono (h _ f) fun v => le_rfl
  · exact le_rfl

theorem set_mono (es : List Expr) : set ev f es ≤ set ev' f es := by
  unfold set
  split
  · exact bind_mono (h _ f) fun v => le_rfl
  · exact le_rfl

theorem output_mono (ending : String) (es : List Expr) :
    output ev f ending es ≤ output ev' f ending es := by
  unfold output
  split
  · exact bind_mono (h _ f) fun v => le_rfl
  · exact le_rfl

theorem keyword_mono (k : Keyword) (es : List Expr) : keyword ev f k es ≤ keyword ev' f k es := by
  cases k with
  | ifElse => exact ifElse_mono h f es
  | cond => exact cond_mono h f es
  | letIn => exact letIn_mono h f es
  | define => exact define_mono h f es
  | lambda => exact le_rfl
  | set => exact set_mono h f es
  | begin => exact inOrder_mono h f .void es
  | display => exact output_mono h f "" es
  | writeLine => exact output_mono h f "\n" es
  | readLine => exact le_rfl

theorem call_mono (head : Expr) (es : List Expr) : call ev f head es ≤ call ev' f head es := by
  refine bind_mono (h head f) fun v => ?_
  cases v with
  | closure c =>
    refine bind_mono (operands_mono h f es) fun args => ite_mono ?_ le_rfl
    exact bind_mono le_rfl (h c.body)
  | _ => exact le_rfl

theorem form_mono (head : Expr) (es : List Expr) : form ev f head es ≤ form ev' f head es := by
  unfold form
  split
  · split
    · exact operator_mono h f _ es
    · split
      · exact keyword_mono h f _ es
      · exact call_mono h f _ es
  · exact call_mono h f head es

end Rules

theorem step_mono : Monotone step := by
  intro ev ev' h e f
  unfold step
  split
  iterate 6 exact le_rfl
  exact form_mono h f _ _

end Eval

/-- More depth changes nothing but that more evaluations end. -/
theorem eval_mono : Monotone eval := by
  refine monotone_nat_of_le_succ fun n => ?_
  induction n with
  | zero => exact fun e f => Run.outOfFuel_le _
  | succ n ih => exact Eval.step_mono ih

namespace Expr

/-- The evaluation of the expression ends in this way, at every sufficient depth. -/
def Yields (e : Expr) (f : FrameId) (m : Machine) (o : Outcome EvalError Value) : Prop :=
  o ≠ .outOfFuel ∧ ∃ n, eval n e f m = o

/-- To evaluate the one expression is to evaluate the other one: in every frame and on every
machine both end with the same value or error and leave the same machine, or neither ends. -/
def Equivalent (e e' : Expr) : Prop := ∀ f m o, e.Yields f m o ↔ e'.Yields f m o

variable {e e' : Expr} {f : FrameId} {m : Machine} {o o' : Outcome EvalError Value}

theorem eval_eq_of_le {n k : Nat} (hnk : n ≤ k) (h : eval n e f m = o) (ho : o ≠ .outOfFuel) :
    eval k e f m = o := by
  rcases eval_mono hnk e f m with hout | heq
  · exact absurd (h ▸ hout) ho
  · rw [← heq, h]

theorem Yields.unique (h : e.Yields f m o) (h' : e.Yields f m o') : o = o' := by
  obtain ⟨ho, n, hn⟩ := h
  obtain ⟨ho', k, hk⟩ := h'
  rw [← eval_eq_of_le (Nat.le_max_left n k) hn ho, eval_eq_of_le (Nat.le_max_right n k) hk ho']

/-- It is enough that each of them does what the other one does with some more depth. -/
theorem equivalent_of_le (d : Nat) (h : ∀ n f, eval n e f ≤ eval (n + d) e' f)
    (h' : ∀ n f, eval n e' f ≤ eval (n + d) e f) : e.Equivalent e' := by
  have hyields : ∀ {a b : Expr}, (∀ n f, eval n a f ≤ eval (n + d) b f) → ∀ f m o,
      a.Yields f m o → b.Yields f m o := by
    rintro a b hle f m o ⟨ho, n, rfl⟩
    rcases hle n f m with hout | heq
    · exact absurd hout ho
    · exact ⟨ho, n + d, heq.symm⟩
  exact fun f m o => ⟨hyields h f m o, hyields h' f m o⟩

end Expr

end LexicalLisp
