import Mathlib.Logic.Relation
import LexicalLisp.Proofs.Evaluation.Rules

/-!
# Occurrences

An expression occurs in another one if it stands anywhere in it, whether it would
be evaluated there or not. All that is ever evaluated on behalf of an expression
occurs in it, so what does not occur in it plays no part in its evaluation.

Of what occurs in an expression, less may be evaluated on its behalf: not the names
and parameters that a form binds, for instance. Less still is evaluated in the frame
of the expression itself, since the bodies of `let` and `lambda` forms are not.
-/

namespace LexicalLisp

namespace Expr

/-- The expression stands somewhere in the other one, at any depth. -/
inductive OccursIn (e : Expr) : Expr → Prop
  | here : OccursIn e e
  | inside {e' : Expr} {es : List Expr} : e' ∈ es → OccursIn e e' → OccursIn e (.list es)

variable {e e' e'' : Expr} {es : List Expr}

theorem OccursIn.trans (h : e.OccursIn e') (h' : e'.OccursIn e'') : e.OccursIn e'' := by
  induction h' with
  | here => exact h
  | inside hmem _ ih => exact .inside hmem ih

theorem occursIn_list_iff : e.OccursIn (.list es) ↔ e = .list es ∨ ∃ e' ∈ es, e.OccursIn e' := by
  constructor
  · intro h
    cases h with
    | here => exact .inl rfl
    | inside hmem h => exact .inr ⟨_, hmem, h⟩
  · rintro (rfl | ⟨e', hmem, h⟩)
    · exact .here
    · exact .inside hmem h

theorem occursIn_atom_iff (hatom : ∀ es, e' ≠ .list es) : e.OccursIn e' ↔ e = e' := by
  constructor
  · intro h
    cases h with
    | here => rfl
    | inside => exact absurd rfl (hatom _)
  · rintro rfl
    exact .here

@[simp] theorem occursIn_symbol_iff {name : String} :
    e.OccursIn (.symbol name) ↔ e = .symbol name := occursIn_atom_iff nofun

@[simp] theorem occursIn_integer_iff {n : Int64} : e.OccursIn (.integer n) ↔ e = .integer n :=
  occursIn_atom_iff nofun

@[simp] theorem occursIn_float_iff {x : Float} : e.OccursIn (.float x) ↔ e = .float x :=
  occursIn_atom_iff nofun

@[simp] theorem occursIn_null_iff : e.OccursIn .null ↔ e = .null := occursIn_atom_iff nofun

theorem occursIn_of_mem_keyword_parts {k : Keyword} (h : e ∈ k.parts es) :
    ∃ e' ∈ es, e.OccursIn e' := by
  have hwhole : e ∈ es → ∃ e' ∈ es, e.OccursIn e' := fun hmem => ⟨e, hmem, .here⟩
  unfold Keyword.parts at h
  split at h
  · obtain ⟨clause, hclause, he⟩ := List.mem_flatMap.mp h
    split at he
    · exact ⟨_, hclause, .inside he .here⟩
    · cases he
  · rename_i binders body
    rcases List.mem_append.mp h with h | h
    · obtain ⟨binder, hbinder, he⟩ := List.mem_flatMap.mp h
      split at he
      · rename_i name value
        have hvalue : e ∈ [.symbol name, value] := by simp_all
        exact ⟨.list binders, by simp, .inside hbinder (.inside hvalue .here)⟩
      · cases he
    · exact ⟨body, by simp, by simp_all [OccursIn.here]⟩
  · exact hwhole (by simp_all)
  · exact hwhole (by simp_all)
  · exact hwhole (by simp_all)
  · exact hwhole h
  · exact hwhole h
  · exact hwhole h
  · exact hwhole h
  · cases h

theorem occursIn_of_mem_parts (h : e ∈ e'.parts) : e.OccursIn e' := by
  unfold parts at h
  split at h
  · rename_i name es
    split at h
    · exact .inside (List.mem_cons_of_mem _ h) .here
    · split at h
      · obtain ⟨e'', hmem, he⟩ := occursIn_of_mem_keyword_parts h
        exact .inside (List.mem_cons_of_mem _ hmem) he
      · exact .inside h .here
  · exact .inside h .here
  · cases h

/-- The other expression may be evaluated on behalf of this one: it is this one, a part of
it, a part of such a part and so on. -/
def Evaluates : Expr → Expr → Prop := Relation.ReflTransGen fun e e' => e' ∈ e.parts

def EvaluatesInPlace : Expr → Expr → Prop := Relation.ReflTransGen fun e e' => e' ∈ e.ownParts

theorem Evaluates.refl (e : Expr) : e.Evaluates e := Relation.ReflTransGen.refl

theorem Evaluates.of_part (h : e' ∈ e.parts) (h' : e'.Evaluates e'') : e.Evaluates e'' :=
  Relation.ReflTransGen.head h h'

theorem EvaluatesInPlace.refl (e : Expr) : e.EvaluatesInPlace e := Relation.ReflTransGen.refl

theorem EvaluatesInPlace.of_part (h : e' ∈ e.ownParts) (h' : e'.EvaluatesInPlace e'') :
    e.EvaluatesInPlace e'' := Relation.ReflTransGen.head h h'

/-- Whether the condition holds of the expression, of its parts by the given function and so
on, all of which have to come to an end within the depth. -/
def holdsThroughout (partsOf : Expr → List Expr) (p : Expr → Bool) : Nat → Expr → Bool
  | 0, _ => false
  | n + 1, e => p e && (partsOf e).all (holdsThroughout partsOf p n)

theorem of_holdsThroughout {partsOf : Expr → List Expr} {p : Expr → Bool} {n : Nat}
    (h : e.holdsThroughout partsOf p n)
    (he : Relation.ReflTransGen (fun e e' => e' ∈ partsOf e) e e') : p e' := by
  induction he using Relation.ReflTransGen.head_induction_on generalizing n with
  | refl =>
    cases n with
    | zero => cases h
    | succ n => exact (Bool.and_eq_true_iff.mp h).1
  | head hpart _ ih =>
    cases n with
    | zero => cases h
    | succ n => exact ih (List.all_eq_true.mp (Bool.and_eq_true_iff.mp h).2 _ hpart)

/-- A form with this keyword and this name after it occurs in the expression. -/
def Targets (e : Expr) (k : Keyword) (x : String) : Prop :=
  ∃ es, (Expr.list (.symbol k.name :: .symbol x :: es)).OccursIn e

theorem Targets.of_occursIn {k : Keyword} {x : String} (h : e.OccursIn e') (he : e.Targets k x) :
    e'.Targets k x := by
  obtain ⟨es, hes⟩ := he
  exact ⟨es, hes.trans h⟩

theorem targets_form (k : Keyword) (x : String) (es : List Expr) :
    (Expr.list (.symbol k.name :: .symbol x :: es)).Targets k x := ⟨es, .here⟩

end Expr

end LexicalLisp
