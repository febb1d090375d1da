import LexicalLisp.Proofs.Evaluation.Rules

/-!
# Free names

The free names of an expression are those it may look up where it is evaluated.
A `let` and a `lambda` hide the names they bind from their bodies, a definition
hides its name from the forms that follow it in a `begin`, and from its own value
if that is a `lambda` form, which looks nothing up before it is called. In a
special form of the wrong shape every symbol counts.
-/

namespace LexicalLisp

namespace Expr

mutual

def symbols : Expr → List String
  | symbol name => [name]
  | list es => symbolsAll es
  | _ => []

def symbolsAll : List Expr → List String
  | [] => []
  | e :: es => symbols e ++ symbolsAll es

end

def keyword? (head : Expr) : Option Keyword := head.symbolName?.bind Keyword.ofName?

def operator? (head : Expr) : Option Operator := head.symbolName?.bind Operator.ofName?

def definedBy : Expr → List String
  | list (head :: symbol name :: _) => if head.keyword? = some .define then [name] else []
  | _ => []

def isLambda : Expr → Bool
  | list (head :: _) => head.keyword? = some .lambda
  | _ => false

def isBinder : Expr → Bool
  | list [symbol _, _] => true
  | _ => false

def isClause : Expr → Bool
  | list [_, _] => true
  | _ => false

end Expr

/-- The operands have the shape that the special form requires. -/
def Keyword.fits : Keyword → List Expr → Bool
  | .ifElse, [_, _, _] => true
  | .cond, clauses => clauses.all Expr.isClause
  | .letIn, [.list binders, _] => binders.all Expr.isBinder
  | .lambda, [.list parameters, _] => (Eval.params [] parameters).isOk
  | .define, [.symbol _, _] | .set, [.symbol _, _] => true
  | .begin, _ => true
  | .display, [_] | .writeLine, [_] => true
  | .readLine, [] => true
  | _, _ => false

namespace Expr

mutual

/-- The free names of an expression; a name may be listed more than once. -/
def free : Expr → List String
  | symbol name => if name = "else" then [] else [name]
  | list (head :: es) =>
    match head.keyword? with
    | some k => if k.fits es then freeForm k es else symbols (list (head :: es))
    | none => if head.operator?.isSome then freeAll es else free head ++ freeAll es
  | _ => []

def freeAll : List Expr → List String
  | [] => []
  | e :: es => free e ++ freeAll es

def freeForm : Keyword → List Expr → List String
  | .cond, clause :: clauses => freeClause clause ++ freeForm .cond clauses
  | .letIn, [list binders, body] =>
    freeBinders binders ++ (free body).filter (· ∉ boundNames binders)
  | .lambda, [list parameters, body] =>
    (free body).filter (· ∉ parameters.filterMap symbolName?)
  | .define, [symbol name, e] => if e.isLambda then (free e).filter (· ≠ name) else free e
  | .set, [symbol name, e] => name :: free e
  | .begin, e :: es => free e ++ (freeForm .begin es).filter (· ∉ e.definedBy)
  | k, e :: es => free e ++ freeForm k es
  | _, [] => []

def freeClause : Expr → List String
  | list [p, r] => free p ++ free r
  | _ => []

def freeBinders : List Expr → List String
  | [] => []
  | binder :: rest => freeBinder binder ++ freeBinders rest

def freeBinder : Expr → List String
  | list [_, e] => free e
  | _ => []

end

theorem mem_symbolsAll {x : String} {es : List Expr} :
    x ∈ symbolsAll es ↔ ∃ e ∈ es, x ∈ e.symbols := by
  induction es with
  | nil => simp [symbolsAll]
  | cons e es ih => simp [symbolsAll, ih]

theorem mem_freeAll {x : String} {es : List Expr} : x ∈ freeAll es ↔ ∃ e ∈ es, x ∈ e.free := by
  induction es with
  | nil => simp [freeAll]
  | cons e es ih => simp [freeAll, ih]

mutual

theorem mem_symbols_of_mem_free {x : String} : ∀ {e : Expr}, x ∈ e.free → x ∈ e.symbols
  | symbol name, h => by
    unfold free at h
    split at h
    · cases h
    · exact h
  | list (head :: es), h => by
    unfold free at h
    split at h
    · split at h
      · exact List.mem_append_right _ (mem_symbolsAll_of_mem_freeForm _ h)
      · exact h
    · split at h
      · exact List.mem_append_right _ (mem_symbolsAll_of_mem_freeAll h)
      · rcases List.mem_append.mp h with h | h
        · exact List.mem_append_left _ (mem_symbols_of_mem_free h)
        · exact List.mem_append_right _ (mem_symbolsAll_of_mem_freeAll h)
  | integer _, h | float _, h | boolean _, h | null, h | list [], h => by cases h

theorem mem_symbolsAll_of_mem_freeAll {x : String} :
    ∀ {es : List Expr}, x ∈ freeAll es → x ∈ symbolsAll es
  | [], h => by cases h
  | e :: es, h => by
    rcases List.mem_append.mp h with h | h
    · exact List.mem_append_left _ (mem_symbols_of_mem_free h)
    · exact List.mem_append_right _ (mem_symbolsAll_of_mem_freeAll h)

theorem mem_symbolsAll_of_mem_freeForm {x : String} (k : Keyword) :
    ∀ {es : List Expr}, x ∈ freeForm k es → x ∈ symbolsAll es
  | [], h => by cases k <;> cases h
  | e :: es, h => by
    unfold freeForm at h
    split at h
    · rename_i clause clauses heq
      obtain ⟨rfl, rfl⟩ := List.cons.inj heq
      rcases List.mem_append.mp h with h | h
      · exact List.mem_append_left _ (mem_symbols_of_mem_freeClause h)
      · exact List.mem_append_right _ (mem_symbolsAll_of_mem_freeForm .cond h)
    · rename_i binders body heq
      obtain ⟨rfl, rfl⟩ := List.cons.inj heq
      simp only [symbolsAll, symbols, List.mem_append]
      rcases List.mem_append.mp h with h | h
      · exact .inl (mem_symbolsAll_of_mem_freeBinders h)
      · exact .inr (.inl (mem_symbols_of_mem_free (List.mem_of_mem_filter h)))
    · rename_i parameters body heq
      obtain ⟨rfl, rfl⟩ := List.cons.inj heq
      simp only [symbolsAll, List.mem_append]
      exact .inr (.inl (mem_symbols_of_mem_free (List.mem_of_mem_filter h)))
    · rename_i name value heq
      obtain ⟨rfl, rfl⟩ := List.cons.inj heq
      simp only [symbolsAll, List.mem_append]
      split at h
      · exact .inr (.inl (mem_symbols_of_mem_free (List.mem_of_mem_filter h)))
      · exact .inr (.inl (mem_symbols_of_mem_free h))
    · rename_i name value heq
      obtain ⟨rfl, rfl⟩ := List.cons.inj heq
      simp only [symbolsAll, symbols, List.mem_append, List.mem_singleton]
      rcases List.mem_cons.mp h with h | h
      · exact .inl h
      · exact .inr (.inl (mem_symbols_of_mem_free h))
    · rename_i e' es' heq
      obtain ⟨rfl, rfl⟩ := List.cons.inj heq
      rcases List.mem_append.mp h with h | h
      · exact List.mem_append_left _ (mem_symbols_of_mem_free h)
      · exact List.mem_append_right _
          (mem_symbolsAll_of_mem_freeForm .begin (List.mem_of_mem_filter h))
    · rename_i e' es' heq
      obtain ⟨rfl, rfl⟩ := List.cons.inj heq
      rcases List.mem_append.mp h with h | h
      · exact List.mem_append_left _ (mem_symbols_of_mem_free h)
      · exact List.mem_append_right _ (mem_symbolsAll_of_mem_freeForm _ h)
    · cases h

theorem mem_symbols_of_mem_freeClause {x : String} :
    ∀ {e : Expr}, x ∈ freeClause e → x ∈ e.symbols
  | list [p, r], h => by
    simp only [symbols, symbolsAll, List.mem_append]
    rcases List.mem_append.mp h with h | h
    · exact .inl (mem_symbols_of_mem_free h)
    · exact .inr (.inl (mem_symbols_of_mem_free h))
  | integer _, h | float _, h | boolean _, h | symbol _, h | null, h => by cases h
  | list [], h | list [_], h | list (_ :: _ :: _ :: _), h => by cases h

theorem mem_symbolsAll_of_mem_freeBinders {x : String} :
    ∀ {es : List Expr}, x ∈ freeBinders es → x ∈ symbolsAll es
  | [], h => by cases h
  | e :: es, h => by
    rcases List.mem_append.mp h with h | h
    · exact List.mem_append_left _ (mem_symbols_of_mem_freeBinder h)
    · exact List.mem_append_right _ (mem_symbolsAll_of_mem_freeBinders h)

theorem mem_symbols_of_mem_freeBinder {x : String} :
    ∀ {e : Expr}, x ∈ freeBinder e → x ∈ e.symbols
  | list [name, e], h => by
    simp only [symbols, symbolsAll, List.mem_append]
    exact .inr (.inl (mem_symbols_of_mem_free h))
  | integer _, h | float _, h | boolean _, h | symbol _, h | null, h => by cases h
  | list [], h | list [_], h | list (_ :: _ :: _ :: _), h => by cases h

end

section Forms

variable {x name : String} {e head body : Expr} {es binders parameters : List Expr}

theorem eq_symbol_of_keyword? {k : Keyword} (h : head.keyword? = some k) :
    head = symbol k.name := by
  cases head with
  | symbol name => rw [Keyword.name_of_ofName? (show Keyword.ofName? name = some k from h)]
  | _ => cases h

theorem eq_symbol_of_operator? {op : Operator} (h : head.operator? = some op) :
    head = symbol op.name := by
  cases head with
  | symbol name => rw [Operator.name_of_ofName? (show Operator.ofName? name = some op from h)]
  | _ => cases h

theorem keyword?_symbol_name (k : Keyword) : (symbol k.name).keyword? = some k := by
  simp [keyword?, symbolName?]

/-- What is free in a special form, whether its operands have the right shape or not. -/
theorem mem_free_keyword (k : Keyword) (hform : x ∈ freeForm k es) (hsymbols : x ∈ symbolsAll es) :
    x ∈ (list (symbol k.name :: es)).free := by
  unfold free
  rw [keyword?_symbol_name]
  simp only
  split
  · exact hform
  · exact List.mem_cons_of_mem _ hsymbols

theorem mem_freeForm_of_mem {k : Keyword} (hk : k = .ifElse ∨ k = .display ∨ k = .writeLine)
    (he : e ∈ es) (hx : x ∈ e.free) : x ∈ freeForm k es := by
  have hcons : ∀ e es, freeForm k (e :: es) = e.free ++ freeForm k es := by
    intro e es
    rcases hk with rfl | rfl | rfl <;> rfl
  induction es with
  | nil => cases he
  | cons e' es ih =>
    rw [hcons]
    rcases List.mem_cons.mp he with rfl | he
    · exact List.mem_append_left _ hx
    · exact List.mem_append_right _ (ih he)

theorem mem_free_operand {k : Keyword} (hk : k = .ifElse ∨ k = .display ∨ k = .writeLine)
    (he : e ∈ es) (hx : x ∈ e.free) : x ∈ (list (symbol k.name :: es)).free :=
  mem_free_keyword k (mem_freeForm_of_mem hk he hx)
    (mem_symbolsAll.mpr ⟨e, he, mem_symbols_of_mem_free hx⟩)

theorem mem_freeForm_cond_of_mem {clause : Expr} (hclause : clause ∈ es)
    (hx : x ∈ freeClause clause) : x ∈ freeForm .cond es := by
  induction es with
  | nil => cases hclause
  | cons e es ih =>
    rcases List.mem_cons.mp hclause with rfl | hclause
    · exact List.mem_append_left _ hx
    · exact List.mem_append_right _ (ih hclause)

theorem mem_free_clause {clause : Expr} (hclause : clause ∈ es) (hx : x ∈ freeClause clause) :
    x ∈ (list (symbol Keyword.cond.name :: es)).free :=
  mem_free_keyword .cond (mem_freeForm_cond_of_mem hclause hx)
    (mem_symbolsAll.mpr ⟨clause, hclause, mem_symbols_of_mem_freeClause hx⟩)

theorem mem_freeBinders_of_mem {binder : Expr} (hbinder : binder ∈ binders)
    (hx : x ∈ freeBinder binder) : x ∈ freeBinders binders := by
  induction binders with
  | nil => cases hbinder
  | cons binder' binders ih =>
    rcases List.mem_cons.mp hbinder with rfl | hbinder
    · exact List.mem_append_left _ hx
    · exact List.mem_append_right _ (ih hbinder)

theorem mem_free_binder {binder : Expr} (hbinder : binder ∈ binders) (hx : x ∈ freeBinder binder) :
    x ∈ (list [symbol Keyword.letIn.name, list binders, body]).free := by
  have hbinders : x ∈ freeBinders binders := mem_freeBinders_of_mem hbinder hx
  exact mem_free_keyword .letIn (List.mem_append_left _ hbinders)
    (List.mem_append_left _ (mem_symbolsAll_of_mem_freeBinders hbinders))

theorem mem_free_letBody (hx : x ∈ body.free) (hbound : x ∉ boundNames binders) :
    x ∈ (list [symbol Keyword.letIn.name, list binders, body]).free := by
  have hform : x ∈ freeForm .letIn [list binders, body] :=
    List.mem_append_right _ (List.mem_filter.mpr ⟨hx, by simpa using hbound⟩)
  exact mem_free_keyword .letIn hform
    (mem_symbolsAll.mpr ⟨body, by simp, mem_symbols_of_mem_free hx⟩)

theorem mem_free_lambdaBody (hx : x ∈ body.free) (hbound : x ∉ parameters.filterMap symbolName?) :
    x ∈ (list [symbol Keyword.lambda.name, list parameters, body]).free := by
  have hform : x ∈ freeForm .lambda [list parameters, body] :=
    List.mem_filter.mpr ⟨hx, by simpa using hbound⟩
  exact mem_free_keyword .lambda hform
    (mem_symbolsAll.mpr ⟨body, by simp, mem_symbols_of_mem_free hx⟩)

/-- The value of a definition may use the name itself if it is a `lambda` form. -/
theorem mem_free_defined (hx : x ∈ e.free) (hname : e.isLambda = true → x ≠ name) :
    x ∈ (list [symbol Keyword.define.name, symbol name, e]).free := by
  have hform : x ∈ freeForm .define [symbol name, e] := by
    unfold freeForm
    split
    · exact List.mem_filter.mpr ⟨hx, by simpa using hname ‹_›⟩
    · exact hx
  exact mem_free_keyword .define hform
    (mem_symbolsAll.mpr ⟨e, by simp, mem_symbols_of_mem_free hx⟩)

example : (list [symbol "define", symbol "f", list [symbol "lambda", list [symbol "n"],
    list [symbol "f", symbol "n", symbol "k"]]]).free = ["k"] := by decide

theorem mem_free_assigned (hx : x = name ∨ x ∈ e.free) :
    x ∈ (list [symbol Keyword.set.name, symbol name, e]).free := by
  refine mem_free_keyword .set (List.mem_cons.mpr hx) ?_
  rcases hx with rfl | hx
  · exact List.mem_cons_self
  · exact mem_symbolsAll.mpr ⟨e, by simp, mem_symbols_of_mem_free hx⟩

theorem free_operator {op : Operator} (hop : head.operator? = some op) (hk : head.keyword? = none) :
    (list (head :: es)).free = freeAll es := by
  rw [free]
  simp [hop, hk]

theorem free_call (hop : head.operator? = none) (hk : head.keyword? = none) :
    (list (head :: es)).free = head.free ++ freeAll es := by
  rw [free]
  simp [hop, hk]

theorem definedBy_define :
    (list (symbol Keyword.define.name :: symbol name :: es)).definedBy = [name] := by
  simp [definedBy, keyword?_symbol_name]

theorem definedBy_eq_nil (h : head.keyword? ≠ some .define) :
    (list (head :: es)).definedBy = [] := by
  unfold definedBy
  split
  · rename_i heq
    obtain ⟨rfl, rfl⟩ := List.cons.inj (list.inj heq)
    exact if_neg h
  · rfl

theorem params_eq {seen names : List String} (h : Eval.params seen parameters = .ok names) :
    names = seen ++ parameters.filterMap symbolName? := by
  induction parameters generalizing seen with
  | nil =>
    cases h
    simp
  | cons parameter parameters ih =>
    unfold Eval.params at h
    split at h
    · cases ‹_ :: _ = []›
    · rename_i name rest heq
      obtain ⟨rfl, rfl⟩ := List.cons.inj heq
      split at h
      · cases h
      · rw [ih h]
        simp [symbolName?]
    · cases h

end Forms

end Expr

namespace Eval

variable {ev : Evaluator} {f : FrameId} {head : Expr} {es : List Expr}

theorem form_operator {op : Operator} (hop : head.operator? = some op) :
    form ev f head es = operator ev f op es := by
  cases head with
  | symbol name =>
    unfold form
    simp only [show Operator.ofName? name = some op from hop]
  | _ => cases hop

theorem form_call (hop : head.operator? = none) (hk : head.keyword? = none) :
    form ev f head es = call ev f head es := by
  cases head with
  | symbol name =>
    unfold form
    simp only [show Operator.ofName? name = none from hop, show Keyword.ofName? name = none from hk]
  | _ => rfl

end Eval
end LexicalLisp
