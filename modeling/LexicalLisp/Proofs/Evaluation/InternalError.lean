import LexicalLisp.Proofs.Evaluation.Invariant

/-!
# Errors that do not occur

An operator that is applied to as many operands as it takes fails only for what the operands
are: no helper finds operands missing, and arithmetic is asked of arithmetic operators only. The
two operators that must not be applied to values are evaluated by rules of their own. So the
evaluator never has an error of its own to report, and a complaint about the number of operands
comes from the check that is made before anything else.
-/

namespace LexicalLisp

namespace EvalError

/-- Errors for which the values of the operands are to blame. -/
def BlamesValues : EvalError → Prop
  | mismatch .. | emptyList _ | divisionByZero | overflow _ => True
  | _ => False

theorem BlamesValues.ne_operandCount {e : EvalError} (h : e.BlamesValues) (op : Operator)
    (count : Nat) : e ≠ .operandCount op count := by
  rintro rfl
  exact h

theorem IsLocal.not_isInternal {e : EvalError} (h : e.IsLocal) : ¬e.IsInternal := by
  cases e <;> first | exact h.elim | exact not_false

end EvalError

def BlamesValues {α : Type} (x : Except EvalError α) : Prop := ∀ e, x = .error e → e.BlamesValues

namespace BlamesValues

variable {α β : Type}

theorem ok (a : α) : BlamesValues (.ok a) := nofun

theorem error {e : EvalError} (h : e.BlamesValues) : BlamesValues (.error e : Except _ α) := by
  rintro _ ⟨⟩
  exact h

theorem bind {x : Except EvalError α} {k : α → Except EvalError β} (h : BlamesValues x)
    (hk : ∀ a, BlamesValues (k a)) : BlamesValues (x >>= k) := by
  cases x with
  | ok a => exact hk a
  | error e =>
    rintro _ ⟨⟩
    exact h e rfl

end BlamesValues

theorem Number.ofValue_blames (op : Operator) (v : Value) : BlamesValues (ofValue op v) := by
  cases v with
  | integer | float => exact .ok _
  | _ => exact .error trivial

theorem Arithmetic.combine_blames (op : Arithmetic) (a b : Number) :
    BlamesValues (op.combine a b) := by
  unfold combine
  split
  · split
    · exact .error trivial
    · split
      · exact .ok _
      · exact .error trivial
  · split
    · exact .error trivial
    · exact .ok _

namespace Operator

theorem foldFrom_blames (kind : Arithmetic) (acc : Number) (vs : List Value) :
    BlamesValues ((arithmetic kind).foldFrom acc vs) := by
  induction vs generalizing acc with
  | nil => exact .ok acc
  | cons v vs ih =>
    refine (Number.ofValue_blames _ v).bind fun n => ?_
    exact BlamesValues.bind (kind.combine_blames acc n) ih

theorem compareValues_blames (op : Comparison) (a b : Value) :
    BlamesValues (compareValues op a b) :=
  (Number.ofValue_blames _ a).bind fun _ => (Number.ofValue_blames _ b).bind fun _ => .ok _

theorem moduloValues_blames (a b : Value) : BlamesValues (moduloValues a b) := by
  refine (Number.ofValue_blames _ a).bind fun x => (Number.ofValue_blames _ b).bind fun y => ?_
  split
  · exact .error trivial
  · split
    · exact .ok _
    · exact .error trivial
  · split
    · exact .error trivial
    · exact .ok _

theorem consValues_blames (head tail : Value) : BlamesValues (consValues head tail) := by
  cases tail with
  | list items => exact .ok _
  | _ => exact .error trivial

theorem splitList_blames (op : Operator) (v : Value) : BlamesValues (splitList op v) := by
  cases v with
  | list items =>
    cases items with
    | nil => exact .error trivial
    | cons head tail => exact .ok _
  | _ => exact .error trivial

theorem checkCount_eq_error_iff {op : Operator} {count : Nat} :
    (∃ e, op.checkCount count = .error e) ↔ op.arity.accepts count = false := by
  unfold checkCount
  cases op.arity.accepts count <;> simp

/-- The number of operands is checked first. -/
theorem apply_of_checkCount {op : Operator} {args : List Value} {e : EvalError}
    (h : op.checkCount args.length = .error e) : op.apply args = .error e := by
  unfold apply
  rw [h]
  rfl

theorem apply_blames {op : Operator} (hop : op.isLazy = false) {args : List Value}
    (hcount : op.arity.accepts args.length = true) : BlamesValues (op.apply args) := by
  have hone : (Arity.exactly 1).accepts args.length = true → ∃ v, args = [v] :=
    fun h => List.length_eq_one_iff.mp (beq_iff_eq.mp h)
  have htwo : (Arity.exactly 2).accepts args.length = true → ∃ v w, args = [v, w] :=
    fun h => List.length_eq_two.mp (beq_iff_eq.mp h)
  unfold apply checkCount
  rw [if_pos hcount]
  cases op with
  | and | or => cases hop
  | list => exact .ok _
  | arithmetic kind =>
    cases args with
    | nil => cases hcount
    | cons first rest =>
      exact (Number.ofValue_blames _ first).bind fun acc =>
        (foldFrom_blames kind acc rest).bind fun n => .ok _
  | comparison op =>
    obtain ⟨v, w, rfl⟩ := htwo hcount
    exact compareValues_blames op v w
  | equal =>
    obtain ⟨v, w, rfl⟩ := htwo hcount
    exact .ok _
  | modulo =>
    obtain ⟨v, w, rfl⟩ := htwo hcount
    exact moduloValues_blames v w
  | cons =>
    obtain ⟨v, w, rfl⟩ := htwo hcount
    exact consValues_blames v w
  | car =>
    obtain ⟨v, rfl⟩ := hone hcount
    exact (splitList_blames .car v).bind fun _ => .ok _
  | cdr =>
    obtain ⟨v, rfl⟩ := hone hcount
    exact (splitList_blames .cdr v).bind fun _ => .ok _
  | isNull | not =>
    obtain ⟨v, rfl⟩ := hone hcount
    exact .ok _

end Operator

/-- Nothing is known but that the errors are none of the evaluator itself. -/
def faultless : Invariant where
  World := Unit
  le _ _ := True
  holds _ _ := True
  closures _ _ := True
  tolerates e := ¬e.IsInternal
  le_refl _ := trivial
  le_trans _ _ _ _ _ := trivial
  closures_mono _ _ _ := trivial
  tolerates_local h := h.not_isInternal

namespace faultless

theorem acts {α : Type} {w : faultless.World} {P : faultless.World → α → Prop}
    {r : Except NameError α × Store} (hP : ∀ a, P w a) : faultless.Acts w P r :=
  Invariant.acts_of_holds trivial (fun a _ => hP a) fun _ _ => not_false

theorem sound : faultless.Sound (fun _ _ => True) (fun _ => True) where
  frames_mono _ _ h := h
  parts _ _ _ := trivial
  body _ := trivial
  lookup _ _ _ _ := acts fun _ _ _ => trivial
  define _ _ _ _ := acts fun _ => trivial
  assign _ _ _ _ := acts fun _ => trivial
  openLet _ _ _ := acts fun _ => trivial
  openCall _ _ _ _ := acts fun _ => trivial
  makeClosure _ _ _ _ := ⟨(), trivial, trivial, trivial⟩
  refused _ := not_false
  endOfInput := not_false

end faultless

/-- The errors of the evaluator itself do not occur. No evaluation ends with one. An operator that
is applied to values ends with none either, and it complains about the number of its operands if
and only if the check of that number fails; then it does so with the error of the check, whatever
the operands are. -/
theorem internal_errors_do_not_occur :
    (∀ n e f m cause m', eval n e f m = .error cause m' → ¬cause.IsInternal) ∧
    ∀ (op : Operator) (args : List Value), op.isLazy = false →
      ((∃ op' count, op.apply args = .error (.operandCount op' count)) ↔
        ∃ cause, op.checkCount args.length = .error cause) ∧
      (∀ cause, op.checkCount args.length = .error cause → op.apply args = .error cause) ∧
      ∀ cause, op.apply args = .error cause → ¬cause.IsInternal := by
  refine ⟨fun n e f m cause m' h => ?_, fun op args hop => ⟨⟨?_, ?_⟩, ?_, ?_⟩⟩
  · have hends := faultless.sound.eval_keeps n (w := ()) (f := f) (e := e) (m := m) trivial trivial
      trivial
    rw [h] at hends
    exact hends.1
  · rintro ⟨op', count, h⟩
    rw [Operator.checkCount_eq_error_iff]
    cases hcount : op.arity.accepts args.length with
    | false => rfl
    | true => exact absurd rfl ((Operator.apply_blames hop hcount _ h).ne_operandCount op' count)
  · rintro ⟨cause, h⟩
    have hcause : cause = .operandCount op args.length := by
      unfold Operator.checkCount at h
      split at h
      · cases h
      · exact (Except.error.inj h).symm
    exact ⟨op, args.length, hcause ▸ Operator.apply_of_checkCount h⟩
  · exact fun cause h => Operator.apply_of_checkCount h
  · exact fun cause h => (Operator.isLocal_of_apply hop h).not_isInternal

/-- A third operand of `cons` is refused before it is noticed that the second one is no list. -/
theorem third_operand_of_cons_is_refused :
    let args : List Value := [.void, .integer 1, .boolean true]
    let cause : EvalError := .operandCount .cons 3
    let e : Expr := .list [.symbol "cons", .null, .integer 1, .boolean true]
    Operator.cons.isLazy = false ∧ Operator.cons.checkCount args.length = .error cause ∧
      Operator.cons.apply args = .error cause ∧
      ∃ m', eval 2 e 0 (Session.start (.ofLines [])) = .error cause m' ∧ ¬cause.IsInternal := by
  intro args cause e
  have hcheck : Operator.cons.checkCount args.length = .error cause := rfl
  have hrefused := (internal_errors_do_not_occur.2 .cons args rfl).2.1 cause hcheck
  obtain ⟨m', hm'⟩ : ∃ m', eval 2 e 0 (Session.start (.ofLines [])) = .error cause m' := ⟨_, rfl⟩
  exact ⟨rfl, hcheck, hrefused, m', hm', internal_errors_do_not_occur.1 2 e 0 _ cause m' hm'⟩

end LexicalLisp
