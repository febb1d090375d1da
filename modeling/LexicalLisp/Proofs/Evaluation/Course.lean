import LexicalLisp.Proofs.Evaluation.Conditional
import LexicalLisp.Proofs.Evaluation.Invariant
import LexicalLisp.Proofs.Scoping.FreeNames

/-!
# The course of an evaluation

An evaluation passes from a form to its parts, to each of them in the frame in which it is
evaluated and on the machine that is left by what was evaluated before it, and from a call to the
body of the closure. An invariant holds wherever an evaluation comes in this way.
-/

namespace LexicalLisp

/-- The value of an operand is a reason not to evaluate the operands behind it. -/
def Operator.stopsAt : Operator → Value → Bool
  | .and, v => !v.isTruthy
  | .or, v => v.isTruthy
  | _, _ => false

/-- The expressions of a binding list, up to the first pair that is malformed. -/
def Expr.boundExprs : List Expr → List Expr
  | .list [.symbol _, e] :: binders => e :: boundExprs binders
  | _ => []

namespace Eval

/-- When the expressions are evaluated in order, from the machine `m` on, it is the turn of `e` on
the machine `m'`; none of the values before it is a reason to stop. -/
inductive Reaches (ev : Evaluator) (f : FrameId) (stops : Value → Bool) :
    List Expr → Machine → Expr → Machine → Prop
  | first {e : Expr} {es : List Expr} {m : Machine} : Reaches ev f stops (e :: es) m e m
  | later {d e : Expr} {es : List Expr} {m m₁ m' : Machine} {v : Value} :
    ev d f m = .result v m₁ → stops v = false → Reaches ev f stops es m₁ e m' →
    Reaches ev f stops (d :: es) m e m'

theorem Reaches.mem {ev : Evaluator} {f : FrameId} {stops : Value → Bool} {es : List Expr}
    {e : Expr} {m m' : Machine} (h : Reaches ev f stops es m e m') : e ∈ es := by
  induction h with
  | first => exact List.mem_cons_self
  | later _ _ _ ih => exact List.mem_cons_of_mem _ ih

end Eval

/-- An expression is about to be evaluated in a frame, to some depth of nesting. -/
structure Point where
  depth : Nat
  expr : Expr
  frame : FrameId
  machine : Machine

namespace Point

open Eval (Reaches)
open LexicalLisp.Expr (keywordForm operatorForm)

def outcome (p : Point) : Outcome EvalError Value := eval p.depth p.expr p.frame p.machine

/-- At the point a closure is called, with as many arguments as it has parameters; the machine
is the one that the evaluation of the arguments leaves. The name is the one it is called by. -/
inductive Calls : Point → Closure → Option String → List Value → Machine → Prop
  | intro {n : Nat} {head : Expr} {es : List Expr} {f : FrameId} {m m₁ m' : Machine}
    {c : Closure} {args : List Value} :
    head.operator? = none → head.keyword? = none → eval n head f m = .result (.closure c) m₁ →
    Eval.operands (eval n) f es m₁ = .result args m' → args.length = c.params.length →
    Calls ⟨n + 1, .list (head :: es), f, m⟩ c head.symbolName? args m'

theorem Calls.length_eq {p : Point} {c : Closure} {self? : Option String} {args : List Value}
    {m : Machine} (h : p.Calls c self? args m) : args.length = c.params.length := by
  cases h with
  | intro _ _ _ _ hlength => exact hlength

/-- From the first point the evaluation passes to the second one, one level below. -/
inductive Next : Point → Point → Prop
  | operand {n : Nat} {op : Operator} {es : List Expr} {e : Expr} {f : FrameId} {m m' : Machine} :
    Reaches (eval n) f op.stopsAt es m e m' → Next ⟨n + 1, operatorForm op es, f, m⟩ ⟨n, e, f, m'⟩
  | condition {n : Nat} {c a b : Expr} {f : FrameId} {m : Machine} :
    Next ⟨n + 1, keywordForm .ifElse [c, a, b], f, m⟩ ⟨n, c, f, m⟩
  | branch {n : Nat} {c a b : Expr} {f : FrameId} {m m' : Machine} {v : Value} :
    eval n c f m = .result v m' →
    Next ⟨n + 1, keywordForm .ifElse [c, a, b], f, m⟩ ⟨n, if v.isTruthy then a else b, f, m'⟩
  | predicate {n : Nat} {p r : Expr} {clauses : List Expr} {f : FrameId} {m : Machine} :
    Next ⟨n + 1, keywordForm .cond (.list [p, r] :: clauses), f, m⟩ ⟨n, p, f, m⟩
  | consequence {n : Nat} {p r : Expr} {clauses : List Expr} {f : FrameId} {m m' : Machine}
    {v : Value} : eval n p f m = .result v m' → v.isTruthy = true →
    Next ⟨n + 1, keywordForm .cond (.list [p, r] :: clauses), f, m⟩ ⟨n, r, f, m'⟩
  | nextClause {n : Nat} {p r : Expr} {clauses : List Expr} {f : FrameId} {m m' : Machine}
    {v : Value} {q : Point} : eval n p f m = .result v m' → v.isTruthy = false →
    Next ⟨n + 1, keywordForm .cond clauses, f, m'⟩ q →
    Next ⟨n + 1, keywordForm .cond (.list [p, r] :: clauses), f, m⟩ q
  | bound {n : Nat} {binders : List Expr} {body e : Expr} {f : FrameId} {m m' : Machine} :
    Reaches (eval n) f (fun _ => false) (Expr.boundExprs binders) m e m' →
    Next ⟨n + 1, keywordForm .letIn [.list binders, body], f, m⟩ ⟨n, e, f, m'⟩
  | letBody {n : Nat} {binders : List Expr} {body : Expr} {f inner : FrameId}
    {m m₁ m' : Machine} {pairs : List (String × Value)} :
    Eval.bindings (eval n) f binders m = .result pairs m₁ →
    Run.pushFrame f pairs m₁ = .result inner m' →
    Next ⟨n + 1, keywordForm .letIn [.list binders, body], f, m⟩ ⟨n, body, inner, m'⟩
  | newValue {n : Nat} {k : Keyword} {x : String} {e : Expr} {f : FrameId} {m : Machine} :
    k = .define ∨ k = .set → Next ⟨n + 1, keywordForm k [.symbol x, e], f, m⟩ ⟨n, e, f, m⟩
  | member {n : Nat} {es : List Expr} {e : Expr} {f : FrameId} {m m' : Machine} :
    Reaches (eval n) f (fun _ => false) es m e m' →
    Next ⟨n + 1, keywordForm .begin es, f, m⟩ ⟨n, e, f, m'⟩
  | shown {n : Nat} {k : Keyword} {e : Expr} {f : FrameId} {m : Machine} :
    k = .display ∨ k = .writeLine → Next ⟨n + 1, keywordForm k [e], f, m⟩ ⟨n, e, f, m⟩
  | head {n : Nat} {head : Expr} {es : List Expr} {f : FrameId} {m : Machine} :
    head.operator? = none → head.keyword? = none →
    Next ⟨n + 1, .list (head :: es), f, m⟩ ⟨n, head, f, m⟩
  | argument {n : Nat} {head e : Expr} {es : List Expr} {f : FrameId} {m m₁ m' : Machine}
    {c : Closure} : head.operator? = none → head.keyword? = none →
    eval n head f m = .result (.closure c) m₁ → Reaches (eval n) f (fun _ => false) es m₁ e m' →
    Next ⟨n + 1, .list (head :: es), f, m⟩ ⟨n, e, f, m'⟩
  | callBody {n : Nat} {e : Expr} {f inner : FrameId} {m m₁ m' : Machine} {c : Closure}
    {self? : Option String} {args : List Value} :
    Calls ⟨n + 1, e, f, m⟩ c self? args m₁ → Run.pushCall c self? args m₁ = .result inner m' →
    Next ⟨n + 1, e, f, m⟩ ⟨n, c.body, inner, m'⟩

/-- In the course of the evaluation from the first point the second one is come to. -/
abbrev ComesTo : Point → Point → Prop := Relation.ReflTransGen Next

end Point

namespace Expr

variable {head e body : Expr} {es binders : List Expr}

theorem parts_keywordForm (k : Keyword) (es : List Expr) : (keywordForm k es).parts = k.parts es :=
  parts_keyword k es

theorem parts_operatorForm (op : Operator) (es : List Expr) : (operatorForm op es).parts = es := by
  simp only [operatorForm, parts, Operator.ofName?_name]

theorem parts_call (hop : head.operator? = none) (hk : head.keyword? = none) :
    (list (head :: es)).parts = head :: es := by
  cases head with
  | symbol name =>
    simp only [parts, show Operator.ofName? name = none from hop,
      show Keyword.ofName? name = none from hk]
  | _ => rfl

theorem mem_parts_boundExpr (h : e ∈ boundExprs binders) :
    e ∈ (keywordForm .letIn [.list binders, body]).parts := by
  rw [parts_keywordForm]
  refine List.mem_append_left _ ?_
  fun_induction boundExprs binders with
  | case1 name e' binders ih =>
    rcases List.mem_cons.mp h with rfl | h
    · exact List.mem_cons_self
    · exact List.mem_cons_of_mem _ (ih h)
  | case2 => cases h

end Expr

namespace Invariant

variable {I : Invariant} {frames : I.World → FrameId → Prop} {admits : Expr → Prop} {w : I.World}

/-- The invariant holds of the machine at the point, and the code there may run in the frame. -/
structure HoldsAt (I : Invariant) (frames : I.World → FrameId → Prop) (admits : Expr → Prop)
    (w : I.World) (p : Point) : Prop where
  frame : frames w p.frame
  expr : admits p.expr
  store : I.holds w p.machine.store

theorem Acts.of_result {α : Type} {P : I.World → α → Prop}
    {act : Store → Except NameError α × Store} {m m' : Machine} {a : α}
    (h : I.Acts w P (act m.store)) (ha : Run.onStore act m = .result a m') :
    ∃ u, w ≤ u ∧ I.holds u m'.store ∧ P u a := by
  rw [(Run.onStore_eq_result_iff.mp ha).1] at h
  exact h

namespace Sound

variable {n : Nat} {f : FrameId} {m m' : Machine} {p q : Point} (hI : I.Sound frames admits)
include hI

theorem exists_of_eval_result {e : Expr} {v : Value} (h : eval n e f m = .result v m')
    (hf : frames w f) (he : admits e) (hm : I.holds w m.store) :
    ∃ u, w ≤ u ∧ I.holds u m'.store ∧ I.Values u v := by
  have hends := hI.eval_keeps n hf he hm
  rw [h] at hends
  exact hends

theorem reaches_keeps {stops : Value → Bool} {es : List Expr} {e : Expr}
    (h : Eval.Reaches (eval n) f stops es m e m') (hf : frames w f) (hes : ∀ e ∈ es, admits e)
    (hm : I.holds w m.store) : ∃ u, w ≤ u ∧ I.holds u m'.store := by
  induction h generalizing w with
  | first => exact ⟨w, le_rfl, hm⟩
  | later hd _ _ ih =>
    obtain ⟨u, hu, hm₁, -⟩ := hI.exists_of_eval_result hd hf (hes _ List.mem_cons_self) hm
    obtain ⟨u', hu', hm'⟩ := ih (hI.frames_mono hu hf)
      (fun e he => hes e (List.mem_cons_of_mem _ he)) hm₁
    exact ⟨u', hu.trans hu', hm'⟩

theorem calls_keeps {c : Closure} {self? : Option String} {args : List Value}
    (h : p.Calls c self? args m') (hf : frames w p.frame)
    (hparts : ∀ e ∈ p.expr.parts, admits e) (hm : I.holds w p.machine.store) :
    ∃ u, w ≤ u ∧ I.holds u m'.store ∧ I.closures u c ∧ ∀ v ∈ args, I.Values u v := by
  cases h with
  | @intro n _ _ _ _ _ _ _ _ hop hk hhead hargs _ =>
    rw [Expr.parts_call hop hk] at hparts
    obtain ⟨u, hu, hm₁, hc⟩ := hI.exists_of_eval_result hhead hf (hparts _ List.mem_cons_self) hm
    have hends := hI.operands_keep n (hI.frames_mono hu hf)
      (fun e he => hparts e (List.mem_cons_of_mem _ he)) hm₁
    rw [hargs] at hends
    obtain ⟨u', hu', hm', hvalues⟩ := hends
    exact ⟨u', hu.trans hu', hm', I.closures_mono hu' c (hc c List.mem_cons_self), hvalues⟩

theorem bindings_keep {binders : List Expr} {pairs : List (String × Value)}
    (h : Eval.bindings (eval n) f binders m = .result pairs m') (hf : frames w f)
    (hbinders : ∀ name e, .list [.symbol name, e] ∈ binders → admits e) (hm : I.holds w m.store) :
    ∃ u, w ≤ u ∧ I.holds u m'.store ∧ ∀ p ∈ pairs, I.Values u p.2 := by
  have hends : I.Ends w (fun u pairs => ∀ p ∈ pairs, I.Values u p.2)
      (Eval.bindings (eval n) f binders m) :=
    ends_of_run (Simulation.bindings_related fun name e he =>
        hI.simulation.eval_related n ⟨rfl, hf⟩ (hbinders name e he))
      (fun _ _ _ _ hpairs => (pairs_iff.mp hpairs.1).2) hm
  rw [h] at hends
  exact hends

/-- From a point where the invariant holds an evaluation passes to such points only. What comes
next is a part of the form or the body of a closure. -/
theorem next_keeps (h : p.Next q) (hf : frames w p.frame) (hparts : ∀ e ∈ p.expr.parts, admits e)
    (hm : I.holds w p.machine.store) : ∃ u, w ≤ u ∧ I.HoldsAt frames admits u q := by
  have hkeyword : ∀ {k : Keyword} {es e}, (∀ e ∈ (Expr.keywordForm k es).parts, admits e) →
      e ∈ k.parts es → admits e := fun hparts he => hparts _ (by rwa [Expr.parts_keywordForm])
  induction h generalizing w with
  | operand hreach =>
    rw [Expr.parts_operatorForm] at hparts
    obtain ⟨u, hu, hm'⟩ := hI.reaches_keeps hreach hf hparts hm
    exact ⟨u, hu, hI.frames_mono hu hf, hparts _ hreach.mem, hm'⟩
  | condition => exact ⟨w, le_rfl, hf, hkeyword hparts (by simp [Keyword.parts]), hm⟩
  | @branch n c a b f m m' v hv =>
    have hc : admits c := hkeyword hparts (by simp [Keyword.parts])
    have hbranch : admits (if v.isTruthy then a else b) :=
      hkeyword hparts (by split <;> simp [Keyword.parts])
    obtain ⟨u, hu, hm', -⟩ := hI.exists_of_eval_result hv hf hc hm
    exact ⟨u, hu, hI.frames_mono hu hf, hbranch, hm'⟩
  | predicate => exact ⟨w, le_rfl, hf, hkeyword hparts (by simp [Keyword.parts]), hm⟩
  | @consequence n p r clauses f m m' v hv _ =>
    have hp : admits p := hkeyword hparts (by simp [Keyword.parts])
    obtain ⟨u, hu, hm', -⟩ := hI.exists_of_eval_result hv hf hp hm
    exact ⟨u, hu, hI.frames_mono hu hf, hkeyword hparts (by simp [Keyword.parts]), hm'⟩
  | @nextClause n p r clauses f m m' v q hv _ _ ih =>
    have hp : admits p := hkeyword hparts (by simp [Keyword.parts])
    have hrest : ∀ e ∈ (Expr.keywordForm .cond clauses).parts, admits e := by
      intro e he
      rw [Expr.parts_keywordForm] at he
      exact hkeyword hparts (List.mem_append_right [p, r] he)
    obtain ⟨u, hu, hm', -⟩ := hI.exists_of_eval_result hv hf hp hm
    obtain ⟨u', hu', hq⟩ := ih (hI.frames_mono hu hf) hrest hm'
    exact ⟨u', hu.trans hu', hq⟩
  | bound hreach =>
    have hbound : ∀ e ∈ Expr.boundExprs _, admits e :=
      fun e he => hparts e (Expr.mem_parts_boundExpr he)
    obtain ⟨u, hu, hm'⟩ := hI.reaches_keeps hreach hf hbound hm
    exact ⟨u, hu, hI.frames_mono hu hf, hbound _ hreach.mem, hm'⟩
  | letBody hpairs hinner =>
    have hbinders : ∀ name e, Expr.list [.symbol name, e] ∈ _ → admits e := fun name e he =>
      hkeyword hparts (List.mem_append_left _ (List.mem_flatMap.mpr ⟨_, he, by simp⟩))
    obtain ⟨u, hu, hm₁, hvalues⟩ := hI.bindings_keep hpairs hf hbinders hm
    obtain ⟨u', hu', hm', hf'⟩ :=
      (hI.openLet hm₁ (hI.frames_mono hu hf) hvalues).of_result hinner
    exact ⟨u', hu.trans hu', hf', hkeyword hparts (by simp [Keyword.parts]), hm'⟩
  | newValue hk =>
    rcases hk with rfl | rfl <;>
      exact ⟨w, le_rfl, hf, hkeyword hparts (by simp [Keyword.parts]), hm⟩
  | member hreach =>
    obtain ⟨u, hu, hm'⟩ := hI.reaches_keeps hreach hf (fun e he => hkeyword hparts he) hm
    exact ⟨u, hu, hI.frames_mono hu hf, hkeyword hparts hreach.mem, hm'⟩
  | shown hk =>
    rcases hk with rfl | rfl <;>
      exact ⟨w, le_rfl, hf, hkeyword hparts (by simp [Keyword.parts]), hm⟩
  | head hop hk =>
    rw [Expr.parts_call hop hk] at hparts
    exact ⟨w, le_rfl, hf, hparts _ List.mem_cons_self, hm⟩
  | argument hop hk hhead hreach =>
    rw [Expr.parts_call hop hk] at hparts
    have hes : ∀ e ∈ _, admits e := fun e he => hparts e (List.mem_cons_of_mem _ he)
    obtain ⟨u, hu, hm₁, -⟩ := hI.exists_of_eval_result hhead hf (hparts _ List.mem_cons_self) hm
    obtain ⟨u', hu', hm'⟩ := hI.reaches_keeps hreach (hI.frames_mono hu hf) hes hm₁
    exact ⟨u', hu.trans hu', hI.frames_mono (hu.trans hu') hf, hes _ hreach.mem, hm'⟩
  | callBody hcall hinner =>
    obtain ⟨u, hu, hm₁, hc, hargs⟩ := hI.calls_keeps hcall hf hparts hm
    obtain ⟨u', hu', hm', hf'⟩ := (hI.openCall hm₁ hc hargs hcall.length_eq).of_result hinner
    exact ⟨u', hu.trans hu', hf', hI.body (I.closures_mono hu' _ hc), hm'⟩

theorem comesTo_keeps (h : p.ComesTo q) (hp : I.HoldsAt frames admits w p) :
    ∃ u, w ≤ u ∧ I.HoldsAt frames admits u q := by
  induction h with
  | refl => exact ⟨w, le_rfl, hp⟩
  | tail _ hnext ih =>
    obtain ⟨u, hu, hmid⟩ := ih
    obtain ⟨u', hu', hend⟩ := hI.next_keeps hnext hmid.frame (hI.parts hmid.expr) hmid.store
    exact ⟨u', hu.trans hu', hend⟩

end Sound

end Invariant

end LexicalLisp
