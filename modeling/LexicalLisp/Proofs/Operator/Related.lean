import LexicalLisp.Proofs.Value.Related

/-!
# Operators on related values

An operator applied to related operands gives related results or the same error.
The errors of operators are local: they blame the operands, never a name or the
terminal.
-/

namespace LexicalLisp

/-- Errors that would be a fault of the evaluator itself: it has applied an operator that is
not meant to be applied in this way. -/
def EvalError.IsInternal : EvalError → Prop
  | .lazyOperator _ | .notArithmetic _ => True
  | _ => False

/-- Errors for which a form and the values of its parts are to blame, and neither
a name nor the terminal nor the evaluator. -/
def EvalError.IsLocal : EvalError → Prop
  | .name _ | .endOfInput | .refused _ | .lazyOperator _ | .notArithmetic _ => False
  | _ => True

/-- Both succeed, with results that are related, or both fail with the same local error. -/
inductive Agree {α β : Type} (Q : α → β → Prop) : Except EvalError α → Except EvalError β → Prop
  | ok {a : α} {b : β} : Q a b → Agree Q (.ok a) (.ok b)
  | error {e : EvalError} : e.IsLocal → Agree Q (.error e) (.error e)

theorem Agree.bind {α β γ δ : Type} {P : α → β → Prop} {Q : γ → δ → Prop}
    {x : Except EvalError α} {y : Except EvalError β} {f : α → Except EvalError γ}
    {g : β → Except EvalError δ} (h : Agree P x y) (hf : ∀ a b, P a b → Agree Q (f a) (g b)) :
    Agree Q (x >>= f) (y >>= g) := by
  cases h with
  | ok hab => exact hf _ _ hab
  | error he => exact .error he

open Value (Related)

variable {R : Closure → Closure → Prop}

theorem Number.ofValue_agree (op : Operator) {v w : Value} (h : Related R v w) :
    Agree Eq (Number.ofValue op v) (Number.ofValue op w) := by
  cases h with
  | integer | float => exact .ok rfl
  | boolean | string | list | closure | void => exact .error trivial

theorem Arithmetic.combine_agree (op : Arithmetic) (a b : Number) :
    Agree Eq (op.combine a b) (op.combine a b) := by
  unfold combine
  split
  · split
    · exact .error trivial
    · split
      · exact .ok rfl
      · exact .error trivial
  · split
    · exact .error trivial
    · exact .ok rfl

namespace Operator

theorem foldFrom_agree (kind : Arithmetic) {vs ws : List Value}
    (h : List.Forall₂ (Related R) vs ws) (acc : Number) :
    Agree Eq ((arithmetic kind).foldFrom acc vs) ((arithmetic kind).foldFrom acc ws) := by
  induction h generalizing acc with
  | nil => exact .ok rfl
  | cons hv _ ih =>
    refine (Number.ofValue_agree _ hv).bind ?_
    rintro n _ rfl
    refine (kind.combine_agree acc n).bind ?_
    rintro acc' _ rfl
    exact ih acc'

theorem compareValues_agree (op : Comparison) {v w v' w' : Value} (h : Related R v w)
    (h' : Related R v' w') :
    Agree (Related R) (compareValues op v v') (compareValues op w w') := by
  refine (Number.ofValue_agree _ h).bind ?_
  rintro x _ rfl
  refine (Number.ofValue_agree _ h').bind ?_
  rintro y _ rfl
  exact .ok (.boolean _)

theorem moduloValues_agree {v w v' w' : Value} (h : Related R v w) (h' : Related R v' w') :
    Agree (Related R) (moduloValues v v') (moduloValues w w') := by
  refine (Number.ofValue_agree _ h).bind ?_
  rintro x _ rfl
  refine (Number.ofValue_agree _ h').bind ?_
  rintro y _ rfl
  split
  · exact .error trivial
  · split
    · exact .ok (.integer _)
    · exact .error trivial
  · split
    · exact .error trivial
    · exact .ok (.float _)

theorem consValues_agree {v w v' w' : Value} (h : Related R v w) (h' : Related R v' w') :
    Agree (Related R) (consValues v v') (consValues w w') := by
  cases h' with
  | list hs => exact .ok (.list (.cons h hs))
  | integer | float | boolean | string | closure | void => exact .error trivial

theorem splitList_agree (op : Operator) {v w : Value} (h : Related R v w) :
    Agree (fun a b => Related R a.1 b.1 ∧ List.Forall₂ (Related R) a.2 b.2)
      (splitList op v) (splitList op w) := by
  cases h with
  | list hs =>
    cases hs with
    | nil => exact .error trivial
    | cons hv hs => exact .ok ⟨hv, hs⟩
  | integer | float | boolean | string | closure | void => exact .error trivial

theorem boolean_agree {a b : Bool} (h : a = b) :
    Agree (Related R) (.ok (.boolean a)) (.ok (.boolean b)) :=
  h ▸ .ok (.boolean a)

theorem isNull_eq : ∀ {v w : Value}, Related R v w →
    (v matches .list []) = (w matches .list []) := by
  intro v w h
  cases h with
  | list hs => cases hs <;> rfl
  | integer | float | boolean | string | closure | void => rfl

theorem exists_of_one {vs ws : List Value} (h : List.Forall₂ (Related R) vs ws)
    (hl : (Arity.exactly 1).accepts ws.length = true) :
    ∃ v w, vs = [v] ∧ ws = [w] ∧ Related R v w := by
  obtain ⟨w, rfl⟩ := List.length_eq_one_iff.mp (beq_iff_eq.mp hl)
  obtain ⟨v, vs', hv, hs, rfl⟩ := List.forall₂_cons_right_iff.mp h
  cases hs
  exact ⟨v, w, rfl, rfl, hv⟩

theorem exists_of_two {vs ws : List Value} (h : List.Forall₂ (Related R) vs ws)
    (hl : (Arity.exactly 2).accepts ws.length = true) :
    ∃ v v' w w', vs = [v, v'] ∧ ws = [w, w'] ∧ Related R v w ∧ Related R v' w' := by
  obtain ⟨w, w', rfl⟩ := List.length_eq_two.mp (beq_iff_eq.mp hl)
  obtain ⟨v, vs', hv, hs, rfl⟩ := List.forall₂_cons_right_iff.mp h
  obtain ⟨v', w₂, rfl, _, hv'⟩ := exists_of_one hs rfl
  exact ⟨v, v', w, w', rfl, rfl, hv, by simp_all⟩

/-- Related operands lead to related results or to the same local error. -/
theorem apply_agree (hid : Closure.KeepsIdentity R) {op : Operator} (hop : op.isLazy = false)
    {vs ws : List Value} (h : List.Forall₂ (Related R) vs ws) :
    Agree (Related R) (op.apply vs) (op.apply ws) := by
  unfold apply checkCount
  rw [h.length_eq]
  split
  · rename_i hcount
    cases op with
    | and | or => cases hop
    | list => exact .ok (.list h)
    | arithmetic kind =>
      cases h with
      | nil => cases hcount
      | cons hv hs =>
        refine (Number.ofValue_agree _ hv).bind ?_
        rintro acc _ rfl
        refine (foldFrom_agree kind hs acc).bind ?_
        rintro n _ rfl
        cases n with
        | whole n => exact .ok (.integer n)
        | real x => exact .ok (.float x)
    | comparison op =>
      obtain ⟨v, v', w, w', rfl, rfl, hv, hv'⟩ := exists_of_two h hcount
      exact compareValues_agree op hv hv'
    | equal =>
      obtain ⟨v, v', w, w', rfl, rfl, hv, hv'⟩ := exists_of_two h hcount
      exact boolean_agree (hv.equal_eq hid hv')
    | modulo =>
      obtain ⟨v, v', w, w', rfl, rfl, hv, hv'⟩ := exists_of_two h hcount
      exact moduloValues_agree hv hv'
    | cons =>
      obtain ⟨v, v', w, w', rfl, rfl, hv, hv'⟩ := exists_of_two h hcount
      exact consValues_agree hv hv'
    | car =>
      obtain ⟨v, w, rfl, rfl, hv⟩ := exists_of_one h hcount
      exact (splitList_agree .car hv).bind fun _ _ hab => .ok hab.1
    | cdr =>
      obtain ⟨v, w, rfl, rfl, hv⟩ := exists_of_one h hcount
      exact (splitList_agree .cdr hv).bind fun _ _ hab => .ok (.list hab.2)
    | isNull =>
      obtain ⟨v, w, rfl, rfl, hv⟩ := exists_of_one h hcount
      exact boolean_agree (isNull_eq hv)
    | not =>
      obtain ⟨v, w, rfl, rfl, hv⟩ := exists_of_one h hcount
      exact boolean_agree (congrArg (!·) hv.isTruthy_eq)
  · exact .error trivial

theorem isLocal_of_apply {op : Operator} (hop : op.isLazy = false) {vs : List Value}
    {e : EvalError} (h : op.apply vs = .error e) : e.IsLocal := by
  have hsame : List.Forall₂ (Related Eq) vs vs := Related.refl_all vs fun _ _ => rfl
  have hid : Closure.KeepsIdentity Eq := fun _ _ _ _ h h' => by rw [h, h']
  have hagree := apply_agree hid hop hsame
  rw [h] at hagree
  cases hagree with
  | error hlocal => exact hlocal

end Operator
end LexicalLisp
