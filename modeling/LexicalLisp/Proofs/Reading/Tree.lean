import LexicalLisp.Proofs.Reading.Fault

/-!
# Trees of tokens

A tree is an atom or a list of trees between its two parentheses. Written out, a forest is a
list of tokens, and reading is the inverse of writing out: tokens that no forest is written
with cannot be read, the others are written with one forest only, and what is read is that
forest with its atoms converted. So no token is lost or moved to another list.
-/

namespace LexicalLisp

abbrev Token.Of (kind : TokenKind) := { token : Token // token.kind = kind }

theorem Token.Of.val_ne {kind kind' : TokenKind} (token : Token.Of kind) (token' : Token.Of kind')
    (h : kind ≠ kind') : token.val ≠ token'.val := by
  intro heq
  apply h
  rw [← token.property, ← token'.property, heq]

inductive Tree where
  | leaf (atom : Token.Of .atom)
  | node (opening : Token.Of .opening) (children : List Tree) (closing : Token.Of .closing)

namespace Tree

mutual

/-- The tokens that a tree is written with. -/
def tokens : Tree → List Token
  | leaf atom => [atom.val]
  | node opening children closing => opening.val :: (flatten children ++ [closing.val])

def flatten : List Tree → List Token
  | [] => []
  | tree :: forest => tokens tree ++ flatten forest

end

mutual

def expr : Tree → Expr
  | leaf atom => .ofAtom atom.val.text
  | node _ children _ => .list (exprs children)

def exprs : List Tree → List Expr
  | [] => []
  | tree :: forest => expr tree :: exprs forest

end

@[simp] theorem tokens_leaf (atom : Token.Of .atom) : (leaf atom).tokens = [atom.val] := rfl

@[simp] theorem tokens_node (opening : Token.Of .opening) (children : List Tree)
    (closing : Token.Of .closing) :
    (node opening children closing).tokens =
      opening.val :: (flatten children ++ [closing.val]) := rfl

@[simp] theorem flatten_nil : flatten [] = [] := rfl

@[simp] theorem flatten_cons (tree : Tree) (forest : List Tree) :
    flatten (tree :: forest) = tree.tokens ++ flatten forest := rfl

theorem exprs_eq_map (forest : List Tree) : exprs forest = forest.map expr := by
  induction forest with
  | nil => rfl
  | cons tree forest ih => rw [exprs, ih, List.map_cons]

/-- The last token of a tree. That of a list is its closing parenthesis. -/
def last : Tree → Token
  | leaf atom => atom.val
  | node _ _ closing => closing.val

theorem exists_tokens_eq (tree : Tree) : ∃ tokens, tree.tokens = tokens ++ [tree.last] := by
  cases tree with
  | leaf atom => exact ⟨[], rfl⟩
  | node opening children closing => exact ⟨opening.val :: flatten children, rfl⟩

section Reading

mutual

/-- The tokens of a tree are read as the expression that it stands for, whatever follows. -/
theorem parseFrom_tokens (tree : Tree) (nesting : Nesting) (rest : List Token) :
    parseFrom nesting (tree.tokens ++ rest) = (nesting.place tree.expr).resume rest := by
  match tree with
  | leaf atom =>
    rw [tokens_leaf, List.singleton_append, parseFrom_cons, Nesting.advance_atom atom.property]
    rfl
  | node opening children closing =>
    rw [tokens_node, List.cons_append, parseFrom_cons, Nesting.advance_opening opening.property,
      Progress.resume, List.append_assoc, parseFrom_flatten children, List.singleton_append,
      parseFrom_cons, Nesting.advance_closing closing.property]
    simp [expr]

theorem parseFrom_flatten (forest : List Tree) (form : OpenForm) (outer : Nesting)
    (rest : List Token) :
    parseFrom (form :: outer) (flatten forest ++ rest) =
      parseFrom ({ form with elements := (exprs forest).reverse ++ form.elements } :: outer)
        rest := by
  match forest with
  | [] => rfl
  | tree :: forest =>
    rw [flatten_cons, List.append_assoc, parseFrom_tokens tree, Nesting.place_cons,
      Progress.resume, parseFrom_flatten forest]
    simp [exprs]

end

theorem parseTokens_flatten (forest : List Tree) :
    parseTokens (flatten forest) = .ok (exprs forest) := by
  unfold parseTokens
  induction forest with
  | nil => rfl
  | cons tree forest ih =>
    rw [flatten_cons, parseFrom_tokens, Nesting.place_nil, Progress.resume, ih]
    rfl

end Reading

section Uniqueness

/-- What follows a forest in a list of tokens: nothing, or the parenthesis that closes the
list in which it stands. -/
def IsEnd (rest : List Token) : Prop := ∀ token ∈ rest.head?, token.kind = .closing

theorem isEnd_nil : IsEnd [] := nofun

theorem isEnd_closing (closing : Token.Of .closing) (rest : List Token) :
    IsEnd (closing.val :: rest) := by
  simp [IsEnd, closing.property]

theorem not_isEnd_tokens (tree : Tree) (rest : List Token) : ¬IsEnd (tree.tokens ++ rest) := by
  intro h
  cases tree with
  | leaf atom => simp [IsEnd, atom.property] at h
  | node opening children closing => simp [IsEnd, opening.property] at h

mutual

/-- The beginning of a list of tokens determines the tree that it is written with, and so
what follows. -/
theorem tokens_append_inj {rest rest' : List Token} (tree tree' : Tree)
    (h : tree.tokens ++ rest = tree'.tokens ++ rest') : tree = tree' ∧ rest = rest' := by
  match tree, tree' with
  | leaf atom, leaf atom' =>
    obtain ⟨hatom, hrest⟩ := List.cons.inj h
    exact ⟨congrArg leaf (Subtype.ext hatom), hrest⟩
  | leaf atom, node opening children closing =>
    exact absurd (List.cons.inj h).1 (atom.val_ne opening (by decide))
  | node opening children closing, leaf atom =>
    exact absurd (List.cons.inj h).1 (opening.val_ne atom (by decide))
  | node opening children closing, node opening' children' closing' =>
    rw [tokens_node, tokens_node, List.cons_append, List.cons_append, List.append_assoc,
      List.append_assoc] at h
    obtain ⟨hopening, hlater⟩ := List.cons.inj h
    obtain ⟨hchildren, hend⟩ := flatten_append_inj children children'
      (isEnd_closing closing rest) (isEnd_closing closing' rest') hlater
    obtain ⟨hclosing, hrest⟩ := List.cons.inj hend
    exact ⟨by rw [Subtype.ext hopening, hchildren, Subtype.ext hclosing], hrest⟩

theorem flatten_append_inj {rest rest' : List Token} (forest forest' : List Tree)
    (hrest : IsEnd rest) (hrest' : IsEnd rest')
    (h : flatten forest ++ rest = flatten forest' ++ rest') :
    forest = forest' ∧ rest = rest' := by
  match forest, forest' with
  | [], [] => exact ⟨rfl, h⟩
  | [], tree' :: forest' =>
    rw [flatten_nil, List.nil_append, flatten_cons, List.append_assoc] at h
    exact absurd (h ▸ hrest) (not_isEnd_tokens tree' _)
  | tree :: forest, [] =>
    rw [flatten_nil, List.nil_append, flatten_cons, List.append_assoc] at h
    exact absurd (h ▸ hrest') (not_isEnd_tokens tree _)
  | tree :: forest, tree' :: forest' =>
    rw [flatten_cons, flatten_cons, List.append_assoc, List.append_assoc] at h
    obtain ⟨htree, hlater⟩ := tokens_append_inj tree tree' h
    obtain ⟨hforest, hend⟩ := flatten_append_inj forest forest' hrest hrest' hlater
    exact ⟨by rw [htree, hforest], hend⟩

end

theorem flatten_injective : Function.Injective flatten := by
  intro forest forest' h
  exact (flatten_append_inj forest forest' isEnd_nil isEnd_nil (congrArg (· ++ []) h)).1

end Uniqueness

section Existence

open Token

/-- What is left of tokens without a fault after the forest that they begin with: nothing if
no parenthesis is open, else what closes the innermost one and has no fault after it. -/
inductive Completes : List Span → List Token → Prop
  | done : Completes [] []
  | close {paren : Span} {outer : List Span} {later : List Token} (closing : Token.Of .closing) :
    fault? outer later = none → Completes (paren :: outer) (closing.val :: later)

theorem exists_forest {opened : List Span} (ts : List Token) (h : fault? opened ts = none) :
    ∃ forest rest, ts = flatten forest ++ rest ∧ Completes opened rest := by
  -- After a list there are fewer tokens by more than one, so the induction is on their number.
  induction hlength : ts.length using Nat.strongRecOn generalizing opened ts with
  | ind n ih =>
    subst hlength
    cases ts with
    | nil =>
      cases opened with
      | nil => exact ⟨[], [], rfl, .done⟩
      | cons paren outer => cases h
    | cons token later =>
      have hlater : later.length < (token :: later).length := Nat.lt_succ_self _
      cases hkind : token.kind with
      | opening =>
        rw [fault?_opening hkind] at h
        obtain ⟨children, rest, rfl, hrest⟩ := ih _ hlater later h rfl
        cases hrest with
        | @close _ _ rest' closing hrest' =>
        have hrest'_lt : rest'.length <
            (token :: (flatten children ++ closing.val :: rest')).length := by
          simp only [List.length_cons, List.length_append]
          omega
        obtain ⟨forest, rest, rfl, hcompletes⟩ := ih _ hrest'_lt rest' hrest' rfl
        exact ⟨.node ⟨token, hkind⟩ children closing :: forest, rest, by simp, hcompletes⟩
      | closing =>
        cases opened with
        | nil =>
          rw [fault?_closing_nil hkind] at h
          cases h
        | cons paren outer =>
          rw [fault?_closing hkind] at h
          exact ⟨[], token :: later, rfl, .close ⟨token, hkind⟩ h⟩
      | atom =>
        rw [fault?_atom hkind] at h
        obtain ⟨forest, rest, rfl, hcompletes⟩ := ih _ hlater later h rfl
        exact ⟨.leaf ⟨token, hkind⟩ :: forest, rest, rfl, hcompletes⟩

theorem balanced_iff_exists_forest {ts : List Token} :
    Balanced ts ↔ ∃ forest, flatten forest = ts := by
  rw [← fault?_nil_eq_none_iff]
  constructor
  · intro h
    obtain ⟨forest, rest, rfl, hrest⟩ := exists_forest ts h
    cases hrest
    exact ⟨forest, by simp⟩
  · rintro ⟨forest, rfl⟩
    exact exists_parseTokens_eq_ok_iff.mp ⟨_, parseTokens_flatten forest⟩

theorem exists_forest_of_parseTokens {ts : List Token} {es : List Expr}
    (h : parseTokens ts = .ok es) : ∃ forest, flatten forest = ts ∧ exprs forest = es := by
  have hfault : fault? [] ts = none := exists_parseTokens_eq_ok_iff.mp ⟨es, h⟩
  obtain ⟨forest, rfl⟩ := balanced_iff_exists_forest.mp (fault?_nil_eq_none_iff.mp hfault)
  rw [parseTokens_flatten] at h
  exact ⟨forest, rfl, Except.ok.inj h⟩

theorem exists_tree_of_parseTokens {ts : List Token} {last : Token} {e : Expr}
    (h : parseTokens (ts ++ [last]) = .ok [e]) :
    ∃ tree : Tree, tree.tokens = ts ++ [last] ∧ tree.last = last ∧ tree.expr = e := by
  obtain ⟨forest, hforest, hexprs⟩ := exists_forest_of_parseTokens h
  rw [exprs_eq_map] at hexprs
  obtain ⟨tree, rfl, htree⟩ := List.map_eq_singleton_iff.mp hexprs
  rw [flatten_cons, flatten_nil, List.append_nil] at hforest
  obtain ⟨ts', hts'⟩ := exists_tokens_eq tree
  have hlast : tree.last = last := by
    rw [hforest] at hts'
    exact (List.append_singleton_inj.mp hts').2.symm
  exact ⟨tree, hforest, hlast, htree⟩

end Existence

end Tree

/-- Reading is the inverse of writing a forest out as tokens. What is read is some forest
that the tokens are written with, its atoms converted and its lists kept. There is such a
forest exactly if the tokens are balanced, and never more than one. -/
theorem parseTokens_inverts_flatten (tokens : List Token) :
    (∀ es, parseTokens tokens = .ok es ↔
      ∃ forest, Tree.flatten forest = tokens ∧ Tree.exprs forest = es) ∧
    ((∃ forest, Tree.flatten forest = tokens) ↔ Token.Balanced tokens) ∧
    Function.Injective Tree.flatten := by
  refine ⟨fun es => ?_, Tree.balanced_iff_exists_forest.symm, Tree.flatten_injective⟩
  constructor
  · exact Tree.exists_forest_of_parseTokens
  · rintro ⟨forest, rfl, rfl⟩
    exact Tree.parseTokens_flatten forest

end LexicalLisp
