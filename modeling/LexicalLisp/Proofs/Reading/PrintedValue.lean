import Mathlib.Data.List.Forall2
import LexicalLisp.Proofs.Reading.RoundTrip
import LexicalLisp.Proofs.Value.Equality

/-!
# Values that can be read

Values are written by a printer of their own, but those that consist of integers, booleans and
lists are written as the expressions of the same shape are. Such an expression is legible, so the
text of the value is read as this expression. It has the shape of one value only, hence no other
value of this kind has the same text.
-/

namespace LexicalLisp

namespace Value

/-- The value consists of integers and booleans, in lists at any depth. -/
inductive IsData : Value → Prop
  | integer (n : Int64) : IsData (.integer n)
  | boolean (b : Bool) : IsData (.boolean b)
  | list {items : List Value} (hitems : ∀ v ∈ items, IsData v) : IsData (.list items)

/-- The expression has the shape of the value: the same integer, the same boolean, or a list of
the same length whose elements have the shapes of the items. -/
inductive Mirrors : Value → Expr → Prop
  | integer (n : Int64) : Mirrors (.integer n) (.integer n)
  | boolean (b : Bool) : Mirrors (.boolean b) (.boolean b)
  | list {items : List Value} {es : List Expr} (hlength : items.length = es.length)
    (hitems : ∀ i (h : i < items.length) (h' : i < es.length), Mirrors items[i] es[i]) :
    Mirrors (.list items) (.list es)

variable {v w : Value} {e : Expr}

theorem IsData.floatFree (h : v.IsData) : v.FloatFree := by
  induction h with
  | integer n => exact .integer n
  | boolean b => exact .boolean b
  | list _ ih => exact .list ih

theorem IsData.beq_self (h : v.IsData) : (v == v) = true :=
  (h.floatFree.equal_eq_beq h.floatFree).symm.trans h.floatFree.equal_self

theorem Mirrors.list_of_forall₂ {items : List Value} {es : List Expr}
    (h : List.Forall₂ Mirrors items es) : Mirrors (.list items) (.list es) :=
  .list h.length_eq fun _ hi hi' => h.get hi hi'

theorem exists_forall₂_mirrors {items : List Value} (h : ∀ v ∈ items, ∃ e, Mirrors v e) :
    ∃ es, List.Forall₂ Mirrors items es := by
  induction items with
  | nil => exact ⟨[], .nil⟩
  | cons v items ih =>
    obtain ⟨⟨e, he⟩, hitems⟩ := List.forall_mem_cons.mp h
    obtain ⟨es, hes⟩ := ih hitems
    exact ⟨e :: es, .cons he hes⟩

theorem IsData.exists_mirrors (h : v.IsData) : ∃ e, Mirrors v e := by
  induction h with
  | integer n => exact ⟨_, .integer n⟩
  | boolean b => exact ⟨_, .boolean b⟩
  | list _ ih =>
    obtain ⟨es, hes⟩ := exists_forall₂_mirrors ih
    exact ⟨_, .list_of_forall₂ hes⟩

namespace Mirrors

/-- The two printers agree. -/
theorem text_eq (h : Mirrors v e) : e.text = v.text := by
  induction h with
  | integer n => rfl
  | boolean b => rfl
  | @list items es hlength _ ih =>
    have htexts : es.map Expr.text = items.map text := by
      refine List.ext_getElem (by simp [hlength]) fun i hi hi' => ?_
      rw [List.getElem_map, List.getElem_map]
      exact ih i _ _
    rw [Expr.text, text, Expr.texts_eq_map, texts_eq_map, htexts]

theorem legible (h : Mirrors v e) : e.Legible := by
  induction h with
  | integer n => exact .atom (Expr.readsBack_integer n)
  | boolean b => exact .atom (Expr.readsBack_boolean b)
  | @list items es hlength _ ih =>
    refine .list fun e he => ?_
    obtain ⟨i, hi, rfl⟩ := List.getElem_of_mem he
    exact ih i (hlength ▸ hi) hi

theorem parse_text (h : Mirrors v e) : parse v.text = .ok [e] := by
  rw [← h.text_eq]
  exact parse_separated_of_legible (List.forall_mem_singleton.mpr h.legible)
    fun _ => Text.isSeparator_space

theorem value_unique (h : Mirrors v e) (h' : Mirrors w e) : v = w := by
  induction h generalizing w with
  | integer n =>
    cases h'
    rfl
  | boolean b =>
    cases h'
    rfl
  | @list items es hlength _ ih =>
    cases h' with
    | list hlength' hitems' =>
      rw [list.injEq]
      refine List.ext_getElem (hlength.trans hlength'.symm) fun i hi hi' => ?_
      exact ih i hi (hlength ▸ hi) (hitems' i hi' (hlength ▸ hi))

end Mirrors

/-- What is read of the text is the same for both values. -/
theorem IsData.eq_of_text (hv : v.IsData) (hw : w.IsData) (htext : v.text = w.text) : v = w := by
  obtain ⟨e, he⟩ := hv.exists_mirrors
  obtain ⟨e', he'⟩ := hw.exists_mirrors
  have hparse := he.parse_text
  rw [htext, he'.parse_text] at hparse
  obtain rfl : e' = e := by simpa using hparse
  exact he.value_unique he'

end Value

/-- The text of a value that consists of integers, booleans and lists is read as one expression of
the same shape, whose text it is as well. So values of this kind with the same text are equal. -/
theorem printed_data_reads_back {v : Value} (hv : v.IsData) :
    (∃ e, parse v.text = .ok [e] ∧ v.Mirrors e ∧ e.text = v.text) ∧
    ∀ w : Value, w.IsData → w.text = v.text → w = v ∧ (w == v) = true := by
  obtain ⟨e, he⟩ := hv.exists_mirrors
  refine ⟨⟨e, he.parse_text, he, he.text_eq⟩, fun w hw htext => ?_⟩
  obtain rfl := hw.eq_of_text hv htext
  exact ⟨rfl, hw.beq_self⟩

/-- An empty list stands beside both limits of integers, and there are lists in lists. -/
theorem printed_lists_read_back :
    let v : Value := .list [.integer Int64.minValue, .list [],
      .list [.boolean true, .list [.integer (-7), .boolean false]], .integer Int64.maxValue]
    let e : Expr := .list [.integer Int64.minValue, .list [],
      .list [.boolean true, .list [.integer (-7), .boolean false]], .integer Int64.maxValue]
    v.IsData ∧ v.text = "(-9223372036854775808 () (#t (-7 #f)) 9223372036854775807)" ∧
      parse v.text = .ok [e] ∧ v.Mirrors e ∧
      ∀ w : Value, w.IsData → w.text = v.text → w = v ∧ (w == v) = true := by
  intro v e
  have hinner : Value.IsData (.list [.integer (-7), .boolean false]) :=
    .list (by simp [Value.IsData.integer, Value.IsData.boolean])
  have hpair : Value.IsData (.list [.boolean true, .list [.integer (-7), .boolean false]]) :=
    .list (by simp [Value.IsData.boolean, hinner])
  have hempty : Value.IsData (.list []) := .list (List.forall_mem_nil _)
  have hv : v.IsData := .list (by simp [Value.IsData.integer, hempty, hpair])
  have hparse : parse v.text = .ok [e] := by decide +kernel
  obtain ⟨⟨e', hparse', hmirrors, -⟩, hsame⟩ := printed_data_reads_back hv
  rw [hparse] at hparse'
  obtain rfl : e = e' := by simpa using hparse'
  exact ⟨hv, by decide +kernel, hparse, hmirrors, hsame⟩

end LexicalLisp
