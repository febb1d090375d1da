import Mathlib.Data.List.Induction
import LexicalLisp.Apply
import LexicalLisp.Proofs.Number.Division

/-!
# Arithmetic on integers

Operands that are integers are folded from the left as over the unbounded integers. The fold goes
on as long as each partial result is a word; it ends at the first operand that is no number, is a
divisor zero, or leads out of the range of words. What comes after that operand has no part in the
result, not even if it would lead back into the range.

Of two integers the quotient and the remainder are those of the division that is rounded down.
-/

namespace LexicalLisp

theorem Number.ofValue_of_ne {op : Operator} {v : Value} (hinteger : v.kind ≠ .integer)
    (hfloat : v.kind ≠ .float) : ofValue op v = .error (.mismatch op .number v.kind) := by
  cases v with
  | integer => exact absurd rfl hinteger
  | float => exact absurd rfl hfloat
  | _ => rfl

namespace Arithmetic

/-- The operation on the unbounded integers; quotients are rounded down. -/
def exact : Arithmetic → Int → Int → Int
  | add, a, b => a + b
  | sub, a, b => a - b
  | mul, a, b => a * b
  | div, a, b => a.fdiv b

def exactFold (op : Arithmetic) (first : Int64) (rest : List Int64) : Int :=
  rest.foldl (fun acc n => op.exact acc n.toInt) first.toInt

/-- What is wrong with an operand, given the words before it. -/
inductive FailsAt (op : Arithmetic) : List Int64 → Value → EvalError → Prop
  | notNumber {before : List Int64} {v : Value} (hinteger : v.kind ≠ .integer)
      (hfloat : v.kind ≠ .float) : FailsAt op before v (.mismatch (.arithmetic op) .number v.kind)
  | zeroDivisor {first : Int64} {rest : List Int64} (hop : op = .div) :
      FailsAt op (first :: rest) (.integer 0) .divisionByZero
  | outOfRange {first n : Int64} {rest : List Int64} (hdivisor : op = .div → n ≠ 0)
      (hrange : ¬(-2 ^ 63 ≤ op.exact (op.exactFold first rest) n.toInt ∧
        op.exact (op.exactFold first rest) n.toInt ≤ 2 ^ 63 - 1)) :
      FailsAt op (first :: rest) (.integer n) (.overflow (.arithmetic op))

/-- No partial result is out of range, and no divisor is zero. -/
structure StaysInRange (op : Arithmetic) (first : Int64) (rest : List Int64) : Prop where
  partial_fits : ∀ beginning, beginning <+: rest →
    -2 ^ 63 ≤ op.exactFold first beginning ∧ op.exactFold first beginning ≤ 2 ^ 63 - 1
  divisor_ne_zero : op = .div → ∀ n ∈ rest, n ≠ 0

/-- The first operand with which something is wrong has this error. -/
def FailsFirst (op : Arithmetic) (args : List Value) (cause : EvalError) : Prop :=
  ∃ before v after, args = before.map .integer ++ v :: after ∧ op.FailsAt before v cause ∧
    ∀ earlier n later, before = earlier ++ n :: later →
      ∀ cause', ¬op.FailsAt earlier (.integer n) cause'

section Step

variable {op : Arithmetic} {a b n : Int64}

theorem onWords?_eq (h : op = .div → b ≠ 0) :
    op.onWords? a b = Word.ofInt? (op.exact a.toInt b.toInt) := by
  cases op with
  | add | sub | mul => rfl
  | div => exact Word.floorDiv?_eq (h rfl)

theorem combine_of_toInt_eq (h : op = .div → b ≠ 0) (hn : n.toInt = op.exact a.toInt b.toInt) :
    op.combine (.whole a) (.whole b) = .ok (.whole n) := by
  have hwords := (onWords?_eq h).trans (Word.ofInt?_eq_some_iff.mpr hn)
  rw [combine, if_neg (fun hzero => h hzero.1 hzero.2), hwords]

theorem combine_of_not_fits (h : op = .div → b ≠ 0)
    (hfits : ¬Word.Fits (op.exact a.toInt b.toInt)) :
    op.combine (.whole a) (.whole b) = .error (.overflow (.arithmetic op)) := by
  have hwords := (onWords?_eq h).trans (Word.ofInt?_eq_none_iff.mpr hfits)
  rw [combine, if_neg (fun hzero => h hzero.1 hzero.2), hwords]

end Step

section Fold

variable {op : Arithmetic} {first n : Int64} {rest : List Int64}

@[simp] theorem exactFold_concat :
    op.exactFold first (rest ++ [n]) = op.exact (op.exactFold first rest) n.toInt := by
  simp [exactFold]

theorem staysInRange_nil : op.StaysInRange first [] := by
  refine ⟨?_, by simp⟩
  intro beginning hbeginning
  rw [List.prefix_nil.mp hbeginning]
  exact Word.fits_iff.mp (Word.fits_toInt first)

theorem staysInRange_concat_iff : op.StaysInRange first (rest ++ [n]) ↔
    op.StaysInRange first rest ∧ ∀ cause, ¬op.FailsAt (first :: rest) (.integer n) cause := by
  constructor
  · intro h
    refine ⟨⟨fun beginning hbeginning => ?_, fun hop m hm => ?_⟩, ?_⟩
    · exact h.partial_fits beginning (hbeginning.trans (List.prefix_append rest [n]))
    · exact h.divisor_ne_zero hop m (List.mem_append_left [n] hm)
    · rintro cause (_ | hop | ⟨-, hrange⟩)
      · contradiction
      · exact h.divisor_ne_zero hop 0 (by simp) rfl
      · exact hrange (exactFold_concat ▸ h.partial_fits _ List.prefix_rfl)
  · rintro ⟨h, hfine⟩
    have hdivisor : op = .div → n ≠ 0 := by
      rintro hop rfl
      exact hfine _ (.zeroDivisor hop)
    refine ⟨fun beginning hbeginning => ?_, fun hop m hm => ?_⟩
    · rcases List.prefix_concat_iff.mp hbeginning with rfl | hbeginning
      · rw [exactFold_concat]
        exact Classical.byContradiction fun hrange => hfine _ (.outOfRange hdivisor hrange)
      · exact h.partial_fits beginning hbeginning
    · rcases List.mem_append.mp hm with hm | hm
      · exact h.divisor_ne_zero hop m hm
      · exact List.mem_singleton.mp hm ▸ hdivisor hop

theorem not_failsAt_nil {cause : EvalError} : ¬op.FailsAt [] (.integer n) cause := by
  rintro ⟨⟩
  contradiction

theorem staysInRange_iff : op.StaysInRange first rest ↔ ∀ earlier n later,
    first :: rest = earlier ++ n :: later → ∀ cause, ¬op.FailsAt earlier (.integer n) cause := by
  induction rest using List.reverseRecOn with
  | nil =>
    refine iff_of_true staysInRange_nil ?_
    intro earlier n later hsplit
    obtain rfl : earlier = [] := by
      cases earlier with
      | nil => rfl
      | cons => simp at hsplit
    exact fun _ => not_failsAt_nil
  | append_singleton rest n ih =>
    rw [staysInRange_concat_iff, ih]
    constructor
    · rintro ⟨hrest, hn⟩ earlier m later hsplit
      rcases List.eq_nil_or_concat later with rfl | ⟨later, last, rfl⟩
      · have hlast : (first :: rest) ++ [n] = earlier ++ [m] := hsplit
        obtain ⟨rfl, hm⟩ := List.append_inj' hlast rfl
        cases hm
        exact hn
      · have hinit : (first :: rest) ++ [n] = (earlier ++ m :: later) ++ [last] := by
          rw [List.cons_append, hsplit, List.append_assoc, List.cons_append, List.concat_eq_append]
        exact hrest earlier m later (List.append_inj' hinit rfl).1
    · intro h
      refine ⟨fun earlier m later hsplit => ?_, h (first :: rest) n [] rfl⟩
      exact h earlier m (later ++ [n]) (by rw [← List.cons_append, hsplit]; simp)

/-- As long as nothing goes wrong the fold over words keeps up with the one over integers. -/
theorem exists_foldFrom_eq (h : op.StaysInRange first rest) :
    ∃ acc : Int64, acc.toInt = op.exactFold first rest ∧ ∀ vs,
      (Operator.arithmetic op).foldFrom (.whole first) (rest.map .integer ++ vs) =
        (Operator.arithmetic op).foldFrom (.whole acc) vs := by
  -- Whatever follows is folded from the word reached so far, so the last word can be taken off.
  induction rest using List.reverseRecOn with
  | nil => exact ⟨first, rfl, fun _ => rfl⟩
  | append_singleton rest n ih =>
    have hdivisor : op = .div → n ≠ 0 := fun hop => h.divisor_ne_zero hop n (by simp)
    obtain ⟨acc, hacc, hfold⟩ := ih (staysInRange_concat_iff.mp h).1
    have hfits : Word.Fits (op.exact acc.toInt n.toInt) := by
      rw [hacc, ← exactFold_concat, Word.fits_iff]
      exact h.partial_fits _ List.prefix_rfl
    refine ⟨Int64.ofInt (op.exact acc.toInt n.toInt), ?_, fun vs => ?_⟩
    · rw [Word.toInt_ofInt_of_fits hfits, hacc, exactFold_concat]
    · have hstep := combine_of_toInt_eq hdivisor (Word.toInt_ofInt_of_fits hfits)
      rw [List.map_append, List.append_assoc, hfold]
      exact congrArg (· >>= fun acc => (Operator.arithmetic op).foldFrom acc vs) hstep

theorem foldFrom_of_failsAt {acc : Int64} {v : Value} {cause : EvalError}
    (hacc : acc.toInt = op.exactFold first rest) (h : op.FailsAt (first :: rest) v cause)
    (after : List Value) :
    (Operator.arithmetic op).foldFrom (.whole acc) (v :: after) = .error cause := by
  cases h with
  | notNumber hinteger hfloat =>
    rw [Operator.foldFrom, Number.ofValue_of_ne hinteger hfloat]
    rfl
  | zeroDivisor hop =>
    subst hop
    rfl
  | @outOfRange _ n _ hdivisor hrange =>
    rw [← hacc, ← Word.fits_iff] at hrange
    have hstep := combine_of_not_fits hdivisor hrange
    exact congrArg (· >>= fun acc => (Operator.arithmetic op).foldFrom acc after) hstep

theorem failsAt_or_staysInRange {v : Value} (h : op.StaysInRange first rest)
    (hfloat : v.kind ≠ .float) : (∃ cause, op.FailsAt (first :: rest) v cause) ∨
      ∃ n, v = .integer n ∧ op.StaysInRange first (rest ++ [n]) := by
  by_cases hfails : ∃ cause, op.FailsAt (first :: rest) v cause
  · exact .inl hfails
  · right
    cases v with
    | integer n => exact ⟨n, rfl, staysInRange_concat_iff.mpr ⟨h, not_exists.mp hfails⟩⟩
    | float => exact absurd rfl hfloat
    | _ => exact absurd ⟨_, .notNumber nofun hfloat⟩ hfails

/-- Operands that are no floats keep in range up to the end or up to the one that fails. -/
theorem exists_failsAt_or_staysInRange {vs : List Value} (h : op.StaysInRange first rest)
    (hfloat : ∀ v ∈ vs, v.kind ≠ .float) :
    (∃ ns, vs = ns.map .integer ∧ op.StaysInRange first (rest ++ ns)) ∨
      ∃ ns v after cause, vs = ns.map .integer ++ v :: after ∧
        op.StaysInRange first (rest ++ ns) ∧ op.FailsAt (first :: (rest ++ ns)) v cause := by
  induction vs generalizing rest with
  | nil => exact .inl ⟨[], rfl, by rwa [List.append_nil]⟩
  | cons v vs ih =>
    obtain ⟨hv, hvs⟩ := List.forall_mem_cons.mp hfloat
    rcases failsAt_or_staysInRange h hv with ⟨cause, hfails⟩ | ⟨n, rfl, hnext⟩
    · exact .inr ⟨[], v, vs, cause, rfl, by rwa [List.append_nil], by rwa [List.append_nil]⟩
    · rcases ih hnext hvs with ⟨ns, rfl, hns⟩ | ⟨ns, v, after, cause, rfl, hns, hfails⟩
      · exact .inl ⟨n :: ns, rfl, by simpa using hns⟩
      · exact .inr ⟨n :: ns, v, after, cause, rfl, by simpa using hns, by simpa using hfails⟩

end Fold

end Arithmetic

namespace Operator

theorem apply_arithmetic (op : Arithmetic) (first : Value) (rest : List Value) :
    (arithmetic op).apply (first :: rest) = do
      let acc ← Number.ofValue (arithmetic op) first
      let n ← (arithmetic op).foldFrom acc rest
      return n.toValue := by
  have hcount : (arithmetic op).checkCount (first :: rest).length = .ok () := by
    simp [checkCount, arity, Arity.accepts]
  rw [apply, hcount]
  rfl

theorem apply_of_staysInRange {op : Arithmetic} {first : Int64} {rest : List Int64}
    (h : op.StaysInRange first rest) :
    ∃ n, (arithmetic op).apply ((first :: rest).map .integer) = .ok (.integer n) ∧
      n.toInt = op.exactFold first rest := by
  obtain ⟨acc, hacc, hfold⟩ := Arithmetic.exists_foldFrom_eq h
  refine ⟨acc, ?_, hacc⟩
  have hall := hfold []
  rw [List.append_nil] at hall
  rw [List.map_cons, apply_arithmetic, Number.ofValue]
  exact congrArg (Except.map Number.toValue) hall

theorem apply_of_failsFirst {op : Arithmetic} {args : List Value} {cause : EvalError}
    (h : op.FailsFirst args cause) : (arithmetic op).apply args = .error cause := by
  obtain ⟨before, v, after, rfl, hfails, hearlier⟩ := h
  cases before with
  | nil =>
    cases hfails with
    | notNumber hinteger hfloat =>
      rw [List.map_nil, List.nil_append, apply_arithmetic, Number.ofValue_of_ne hinteger hfloat]
      rfl
  | cons first rest =>
    obtain ⟨acc, hacc, hfold⟩ :=
      Arithmetic.exists_foldFrom_eq (Arithmetic.staysInRange_iff.mpr hearlier)
    have hall := (hfold (v :: after)).trans (Arithmetic.foldFrom_of_failsAt hacc hfails after)
    rw [List.map_cons, List.cons_append, apply_arithmetic, Number.ofValue]
    exact congrArg (Except.map Number.toValue) hall

end Operator

theorem Arithmetic.exists_failsFirst {op : Arithmetic} {args : List Value} (hargs : args ≠ [])
    (hfloat : ∀ v ∈ args, v.kind ≠ .float)
    (h : ¬∃ first rest, args = (first :: rest).map .integer ∧ op.StaysInRange first rest) :
    ∃ cause, op.FailsFirst args cause := by
  cases args with
  | nil => exact absurd rfl hargs
  | cons v vs =>
    obtain ⟨hv, hvs⟩ := List.forall_mem_cons.mp hfloat
    by_cases hinteger : v.kind = .integer
    · obtain ⟨first, rfl⟩ : ∃ first, v = .integer first := by
        cases v with
        | integer n => exact ⟨n, rfl⟩
        | _ => cases hinteger
      rcases exists_failsAt_or_staysInRange staysInRange_nil hvs with
        ⟨rest, rfl, hrest⟩ | ⟨rest, v, after, cause, rfl, hrest, hfails⟩
      · exact absurd ⟨first, rest, rfl, hrest⟩ h
      · exact ⟨cause, first :: rest, v, after, rfl, hfails, staysInRange_iff.mp hrest⟩
    · exact ⟨_, [], v, vs, rfl, .notNumber hinteger hv, by simp⟩

/-- Arithmetic on operands that are no floats is that of the unbounded integers, as long as all
operands are integers, all partial results are words and no divisor is zero. Otherwise it fails
with the error of the first operand with which something is wrong, whatever the later ones are. -/
theorem integer_arithmetic_is_exact (op : Arithmetic) {args : List Value} (hargs : args ≠ [])
    (hfloat : ∀ v ∈ args, v.kind ≠ .float) :
    (∀ first rest, args = (first :: rest).map .integer → op.StaysInRange first rest →
      ∃ n, (Operator.arithmetic op).apply args = .ok (.integer n) ∧
        n.toInt = op.exactFold first rest) ∧
    ((¬∃ first rest, args = (first :: rest).map .integer ∧ op.StaysInRange first rest) →
      ∃ cause, op.FailsFirst args cause) ∧
    ∀ cause, op.FailsFirst args cause → (Operator.arithmetic op).apply args = .error cause := by
  refine ⟨?_, Arithmetic.exists_failsFirst hargs hfloat, fun _ => Operator.apply_of_failsFirst⟩
  rintro first rest rfl
  exact Operator.apply_of_staysInRange

/-- The sum is out of range before it is noticed that an operand is no number, and although the
operand between would lead back. -/
theorem overflow_is_noticed_first :
    let args : List Value :=
      [.integer Int64.maxValue, .integer 1, .integer (-1), .boolean true]
    args ≠ [] ∧ (∀ v ∈ args, v.kind ≠ .float) ∧
      (Operator.arithmetic .add).apply args = .error (.overflow (.arithmetic .add)) := by
  intro args
  have hargs : args ≠ [] := by simp [args]
  have hfloat : ∀ v ∈ args, v.kind ≠ .float := by simp [args, Value.kind]
  have hfails : Arithmetic.add.FailsFirst args (.overflow (.arithmetic .add)) := by
    refine ⟨[Int64.maxValue], .integer 1, [.integer (-1), .boolean true], rfl,
      .outOfRange nofun (by decide), ?_⟩
    exact Arithmetic.staysInRange_iff.mp Arithmetic.staysInRange_nil
  exact ⟨hargs, hfloat, (integer_arithmetic_is_exact .add hargs hfloat).2.2 _ hfails⟩

namespace Operator

theorem apply_div (a b : Int64) : (arithmetic .div).apply [.integer a, .integer b] =
    if b = 0 then .error .divisionByZero
    else match Word.floorDiv? a b with
      | some q => .ok (.integer q)
      | none => .error (.overflow (arithmetic .div)) := by
  have hfold : (arithmetic .div).foldFrom (.whole a) [.integer b] =
      Arithmetic.div.combine (.whole a) (.whole b) := by
    change Arithmetic.div.combine (.whole a) (.whole b) >>= pure = _
    exact bind_pure _
  rw [apply_arithmetic, Number.ofValue]
  refine (congrArg (Except.map Number.toValue) hfold).trans ?_
  by_cases hb : b = 0
  · subst hb
    rfl
  · rw [Arithmetic.combine, if_neg (fun hzero => hb hzero.2), if_neg hb, Arithmetic.onWords?]
    cases Word.floorDiv? a b <;> rfl

theorem apply_modulo (a b : Int64) : modulo.apply [.integer a, .integer b] =
    if b = 0 then .error .divisionByZero
    else match Word.floorMod? a b with
      | some m => .ok (.integer m)
      | none => .error (.overflow modulo) := by
  have happly :
      modulo.apply [.integer a, .integer b] = moduloValues (.integer a) (.integer b) := rfl
  rw [happly]
  simp only [moduloValues, Number.ofValue, bind, Except.bind]
  by_cases hb : b = 0
  · subst hb
    rfl
  · rw [if_neg hb]
    split
    · rename_i hzero
      exact absurd (Number.whole.inj hzero) hb
    · rename_i hleft hright
      cases hleft
      cases hright
      rfl
    · rename_i hwords
      exact absurd rfl (hwords a b rfl)

theorem apply_div_eq_error_iff {a b : Int64} {cause : EvalError} :
    (arithmetic .div).apply [.integer a, .integer b] = .error cause ↔
      b = 0 ∧ cause = .divisionByZero ∨
        a.toInt = -2 ^ 63 ∧ b.toInt = -1 ∧ cause = .overflow (arithmetic .div) := by
  rw [apply_div]
  by_cases hb : b = 0
  · subst hb
    simp [eq_comm]
  · rw [if_neg hb, ← and_assoc, ← Word.eq_minValue_and_iff]
    by_cases hover : a = Int64.minValue ∧ b = -1
    · rw [Word.floorDiv?_eq_none_iff.mpr (.inr hover)]
      simp [hover, eq_comm]
    · obtain ⟨q, hq, -⟩ := Word.exists_floorDiv?_eq hb hover
      simp [hq, hb, hover]

theorem apply_modulo_eq_error_iff {a b : Int64} {cause : EvalError} :
    modulo.apply [.integer a, .integer b] = .error cause ↔ b = 0 ∧ cause = .divisionByZero := by
  rw [apply_modulo]
  by_cases hb : b = 0
  · simp [hb, eq_comm]
  · obtain ⟨m, hm, -⟩ := Word.exists_floorMod?_eq a hb
    simp [hm, hb]

end Operator

/-- Quotient and remainder of two integers are those of the division that is rounded down. Only a
zero divisor has no remainder, and the quotient fails for one more pair alone, with an error of
its own. Neither computation would stop on a machine that stops at an operation whose result does
not fit, if only those operations are checked that the program checks. -/
theorem quotient_and_remainder_are_floored (a b : Int64) :
    (∀ cause, Operator.modulo.apply [.integer a, .integer b] = .error cause ↔
      b = 0 ∧ cause = .divisionByZero) ∧
    (∀ cause, (Operator.arithmetic .div).apply [.integer a, .integer b] = .error cause ↔
      b = 0 ∧ cause = .divisionByZero ∨
        a.toInt = -2 ^ 63 ∧ b.toInt = -1 ∧ cause = .overflow (.arithmetic .div)) ∧
    (b ≠ 0 → ∃ m, Operator.modulo.apply [.integer a, .integer b] = .ok (.integer m) ∧
      (0 < b.toInt → 0 ≤ m.toInt ∧ m.toInt < b.toInt) ∧
      (b.toInt < 0 → b.toInt < m.toInt ∧ m.toInt ≤ 0) ∧
      (¬(a.toInt = -2 ^ 63 ∧ b.toInt = -1) → ∃ q,
        (Operator.arithmetic .div).apply [.integer a, .integer b] = .ok (.integer q) ∧
          ∀ n : Int, a.toInt = n * b.toInt + m.toInt ↔ n = q.toInt)) ∧
    Trapping.floorDiv? a b = .ok (Word.floorDiv? a b) ∧
    Trapping.floorMod? a b = .ok (Word.floorMod? a b) := by
  refine ⟨fun _ => Operator.apply_modulo_eq_error_iff, fun _ => Operator.apply_div_eq_error_iff,
    fun hb => ?_, Trapping.floorDiv?_eq a b, Trapping.floorMod?_eq a b⟩
  have hfloored := FlooredDivision.of_fdiv a.toInt b.toInt
  obtain ⟨m, hm, hmod⟩ := Word.exists_floorMod?_eq a hb
  rw [← hmod] at hfloored
  rw [Operator.apply_modulo, if_neg hb, hm, Operator.apply_div, if_neg hb]
  refine ⟨m, rfl, hfloored.of_pos, hfloored.of_neg, fun hover => ?_⟩
  obtain ⟨q, hq, hdiv⟩ := Word.exists_floorDiv?_eq hb (mt Word.eq_minValue_and_iff.mp hover)
  rw [← hdiv] at hfloored
  rw [hq]
  refine ⟨q, rfl, fun n => ⟨fun hn => ?_, fun hn => hn ▸ hfloored.sum_eq⟩⟩
  have hproduct : n * b.toInt = q.toInt * b.toInt := by
    have hsum := hfloored.sum_eq
    omega
  exact Int.eq_of_mul_eq_mul_right (Word.toInt_ne_zero hb) hproduct

/-- The quotient of the least word is rounded away from zero. -/
theorem least_word_by_three :
    (3 : Int64) ≠ 0 ∧ ¬(Int64.minValue.toInt = -2 ^ 63 ∧ (3 : Int64).toInt = -1) ∧
      ∃ m q : Int64, Operator.modulo.apply [.integer Int64.minValue, .integer 3] = .ok (.integer m) ∧
        (Operator.arithmetic .div).apply [.integer Int64.minValue, .integer 3] =
          .ok (.integer q) ∧
        0 ≤ m.toInt ∧ m.toInt < 3 ∧ Int64.minValue.toInt = q.toInt * 3 + m.toInt := by
  have hdivisor : (3 : Int64) ≠ 0 := by decide
  have hover : ¬(Int64.minValue.toInt = -2 ^ 63 ∧ (3 : Int64).toInt = -1) := by decide
  obtain ⟨m, hm, hpos, -, hquotient⟩ :=
    (quotient_and_remainder_are_floored Int64.minValue 3).2.2.1 hdivisor
  obtain ⟨q, hq, hunique⟩ := hquotient hover
  obtain ⟨hlow, hhigh⟩ := hpos (by decide)
  exact ⟨hdivisor, hover, m, q, hm, hq, hlow, hhigh, (hunique q.toInt).mpr rfl⟩

end LexicalLisp
