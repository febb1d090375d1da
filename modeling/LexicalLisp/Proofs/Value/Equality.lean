import Mathlib.Data.List.Forall2
import LexicalLisp.Apply

/-!
# The two equalities

Values that are equal are equal in the language too. The two equalities differ only in what they
make of an integer beside a float, so that they agree on values without floats, and there they are
an equivalence. Lists are equal if they are of the same length and equal place by place, which
reduces each property of lists to that of their elements.
-/

namespace LexicalLisp

namespace Value

/-- There is no float in the value, at any depth of lists. -/
inductive FloatFree : Value → Prop
  | integer (n : Int64) : FloatFree (.integer n)
  | boolean (b : Bool) : FloatFree (.boolean b)
  | string (s : String) : FloatFree (.string s)
  | list {items : List Value} (hitems : ∀ v ∈ items, FloatFree v) : FloatFree (.list items)
  | closure (c : Closure) : FloatFree (.closure c)
  | void : FloatFree .void

def AreEqual (a b : Value) : Prop := Operator.equal.apply [a, b] = .ok (.boolean true)

theorem apply_equal (a b : Value) : Operator.equal.apply [a, b] = .ok (.boolean (a.equal b)) := rfl

theorem areEqual_iff {a b : Value} : a.AreEqual b ↔ a.equal b = true := by
  rw [AreEqual, apply_equal, Except.ok.injEq, boolean.injEq]

section Lists

variable {as bs : List Value}

theorem beqAll_iff_forall₂ : beqAll as bs = true ↔ List.Forall₂ (beq · · = true) as bs := by
  induction as generalizing bs with
  | nil => cases bs <;> simp [beqAll]
  | cons a as ih => cases bs <;> simp [beqAll, ih]

theorem equalAll_iff_forall₂ : equalAll as bs = true ↔ List.Forall₂ (equal · · = true) as bs := by
  induction as generalizing bs with
  | nil => cases bs <;> simp [equalAll]
  | cons a as ih => cases bs <;> simp [equalAll, ih]

theorem beq_list_iff : beq (.list as) (.list bs) = true ↔ as.length = bs.length ∧
    ∀ i (h : i < as.length) (h' : i < bs.length), beq as[i] bs[i] = true := by
  rw [beq, beqAll_iff_forall₂]
  exact List.forall₂_iff_get

theorem equal_list_iff : equal (.list as) (.list bs) = true ↔ as.length = bs.length ∧
    ∀ i (h : i < as.length) (h' : i < bs.length), equal as[i] bs[i] = true := by
  rw [equal, equalAll_iff_forall₂]
  exact List.forall₂_iff_get

theorem equalAll_congr (h : List.Forall₂ (fun a b => ∀ c, equal a c = equal b c) as bs)
    (cs : List Value) : equalAll as cs = equalAll bs cs := by
  induction h generalizing cs with
  | nil => rfl
  | cons hab _ ih =>
    cases cs with
    | nil => rfl
    | cons c cs => rw [equalAll, equalAll, hab c, ih cs]

end Lists

mutual

theorem equal_of_beq : ∀ {a b : Value}, beq a b = true → equal a b = true
  | .list _, .list _, h => equalAll_of_beqAll h
  | .integer _, b, h | .float _, b, h => by cases b <;> first | exact h | cases h
  | .boolean _, b, h | .string _, b, h | .closure _, b, h | .void, b, h => by cases b <;> exact h

theorem equalAll_of_beqAll : ∀ {as bs : List Value}, beqAll as bs = true → equalAll as bs = true
  | [], [], _ => rfl
  | _ :: _, _ :: _, h => by
    obtain ⟨hhead, htail⟩ := Bool.and_eq_true_iff.mp h
    exact Bool.and_eq_true_iff.mpr ⟨equal_of_beq hhead, equalAll_of_beqAll htail⟩

end

namespace FloatFree

variable {a b c : Value}

/-- Without floats the language finds nothing equal that is not. -/
theorem equal_eq_beq (ha : FloatFree a) (hb : FloatFree b) : equal a b = beq a b := by
  induction ha generalizing b with
  | @list as _ ih =>
    cases hb with
    | @list bs hbs =>
      rw [Bool.eq_iff_iff, equal_list_iff, beq_list_iff]
      refine and_congr_right fun _ => forall_congr' fun i => forall₂_congr fun h h' => ?_
      rw [ih as[i] (List.getElem_mem h) (hbs bs[i] (List.getElem_mem h'))]
    | _ => rfl
  | _ => cases hb <;> rfl

theorem equal_self (ha : FloatFree a) : equal a a = true := by
  induction ha with
  | list _ ih => exact equal_list_iff.mpr ⟨rfl, fun i h _ => ih _ (List.getElem_mem h)⟩
  | void => rfl
  | _ => exact beq_self_eq_true _

theorem equal_congr (ha : FloatFree a) (hb : FloatFree b) (h : equal a b = true) (c : Value) :
    equal a c = equal b c := by
  induction ha generalizing b c with
  | @list as _ ih =>
    cases hb with
    | @list bs hbs =>
      obtain ⟨hlength, hitems⟩ := equal_list_iff.mp h
      have hcongr : List.Forall₂ (fun a b => ∀ c, equal a c = equal b c) as bs :=
        List.forall₂_iff_get.mpr ⟨hlength, fun i hi hi' =>
          ih as[i] (List.getElem_mem hi) (hbs bs[i] (List.getElem_mem hi')) (hitems i hi hi')⟩
      cases c with
      | list cs => exact equalAll_congr hcongr cs
      | _ => rfl
    | _ => cases h
  | closure =>
    cases hb with
    | closure =>
      have hid := beq_iff_eq.mp h
      cases c <;> simp [equal, beq, hid]
    | _ => cases h
  | void =>
    cases hb with
    | void => rfl
    | _ => cases h
  | _ =>
    cases hb <;> first | cases h | obtain rfl := beq_iff_eq.mp h
    rfl

theorem equal_symm (ha : FloatFree a) (hb : FloatFree b) (h : equal a b = true) :
    equal b a = true := by
  rw [← ha.equal_congr hb h a, ha.equal_self]

theorem equal_trans (ha : FloatFree a) (hb : FloatFree b) (h : equal a b = true)
    (h' : equal b c = true) : equal a c = true := by
  rw [ha.equal_congr hb h c, h']

end FloatFree

end Value

/-- Equal values are equal in the language, and the same values are on condition that there are no
floats in them. Then equality in the language is an equivalence. Lists are equal exactly if they
are of the same length and the elements at each place are equal. -/
theorem equalities_fit_together :
    (∀ a b : Value, (a == b) = true → a.AreEqual b) ∧
    (∀ a b : Value, a.FloatFree → b.FloatFree →
      Operator.equal.apply [a, b] = .ok (.boolean (a == b))) ∧
    Equivalence (fun a b : { v : Value // v.FloatFree } => a.val.AreEqual b.val) ∧
    ∀ as bs : List Value, (Value.list as).AreEqual (.list bs) ↔ as.length = bs.length ∧
      ∀ i (h : i < as.length) (h' : i < bs.length), as[i].AreEqual bs[i] := by
  simp only [Value.areEqual_iff]
  refine ⟨fun _ _ => Value.equal_of_beq, fun a b ha hb => ?_, ?_, fun _ _ => Value.equal_list_iff⟩
  · rw [Value.apply_equal, ha.equal_eq_beq hb]
    rfl
  · exact ⟨fun a => a.2.equal_self, fun {a b} => a.2.equal_symm b.2,
      fun {a b _} => a.2.equal_trans b.2⟩

/-- A list that is longer by one element in a list within it is not equal. -/
theorem inner_lists_of_unequal_length_differ :
    let a : Value := .list [.integer 1, .list [.string "x", .void]]
    let b : Value := .list [.integer 1, .list [.string "x"]]
    a.FloatFree ∧ b.FloatFree ∧ (a == a) = true ∧ a.AreEqual a ∧
      Operator.equal.apply [a, b] = .ok (.boolean false) := by
  intro a b
  have hinner : Value.FloatFree (.list [.string "x", .void]) :=
    .list (by simp [Value.FloatFree.string, Value.FloatFree.void])
  have hinner' : Value.FloatFree (.list [.string "x"]) := .list (by simp [Value.FloatFree.string])
  have ha : a.FloatFree := .list (by simp [Value.FloatFree.integer, hinner])
  have hb : b.FloatFree := .list (by simp [Value.FloatFree.integer, hinner'])
  exact ⟨ha, hb, rfl, equalities_fit_together.1 a a rfl, equalities_fit_together.2.1 a b ha hb⟩

/-- Among floats it is none: two integers that differ are equal to the float between them, and a
float that is not a number is not equal to itself. -/
example : Value.equal (.integer 9007199254740993) (.float 9007199254740992) = true ∧
    Value.equal (.float 9007199254740992) (.integer 9007199254740992) = true ∧
    Value.equal (.integer 9007199254740993) (.integer 9007199254740992) = false ∧
    Value.equal (.float (0 / 0)) (.float (0 / 0)) = false := by
  decide +kernel

end LexicalLisp
