import LexicalLisp.Reading.Form
import LexicalLisp.Proofs.Reading.Shape

/-!
# Progress of the reader

Reading goes on after each token from what the token led to, until the tokens end or a
parenthesis is stray. So what a token preserves is preserved by reading as a whole, and what
holds of atoms and of lists of what it holds of, holds of all expressions that are read.
-/

namespace LexicalLisp

variable {P : Expr → Prop} {nesting : Nesting} {token : Token} {tokens : List Token}
  {e : Expr} {es : List Expr}

namespace Progress

/-- Reads the tokens that come after the one that led here. -/
def resume : Progress → List Token → Except ReadError (List Expr)
  | within nesting, tokens => parseFrom nesting tokens
  | complete e, tokens => (parseFrom [] tokens).map (e :: ·)
  | stray paren, _ => .error (.unexpectedClose paren)

end Progress

theorem parseFrom_cons :
    parseFrom nesting (token :: tokens) = (nesting.advance token).resume tokens := by
  unfold parseFrom
  cases nesting.advance token <;> rfl

namespace Nesting

variable {form : OpenForm} {outer : Nesting}

@[simp] theorem place_nil : place e [] = .complete e := rfl

@[simp] theorem place_cons : place e (form :: outer) =
    .within ({ form with elements := e :: form.elements } :: outer) := rfl

theorem advance_opening (h : token.kind = .opening) :
    nesting.advance token = .within (⟨token.span, []⟩ :: nesting) := by
  simp [advance, h]

theorem advance_closing (h : token.kind = .closing) :
    advance (form :: outer) token = place (.list form.elements.reverse) outer := by
  simp [advance, h]

theorem advance_closing_nil (h : token.kind = .closing) :
    advance [] token = .stray token.span := by
  simp [advance, h]

theorem advance_atom (h : token.kind = .atom) :
    nesting.advance token = place (.ofAtom token.text) nesting := by
  simp [advance, h]

/-- The condition holds of all expressions that the open forms hold. -/
def All (P : Expr → Prop) (nesting : Nesting) : Prop := ∀ form ∈ nesting, ∀ e ∈ form.elements, P e

theorem all_nil : All P [] := nofun

theorem all_cons_iff : All P (form :: outer) ↔ (∀ e ∈ form.elements, P e) ∧ All P outer :=
  List.forall_mem_cons

end Nesting

namespace Progress

def All (P : Expr → Prop) : Progress → Prop
  | within nesting => nesting.All P
  | complete e => P e
  | stray _ => True

theorem all_place (he : P e) (h : nesting.All P) : (nesting.place e).All P := by
  cases nesting with
  | nil => exact he
  | cons form outer =>
    obtain ⟨hform, houter⟩ := Nesting.all_cons_iff.mp h
    exact Nesting.all_cons_iff.mpr ⟨List.forall_mem_cons.mpr ⟨he, hform⟩, houter⟩

/-- A token preserves what holds of its atom, if it is one, and of lists of what it holds of. -/
theorem all_advance (hatom : token.kind = .atom → P (.ofAtom token.text))
    (hlist : ∀ es : List Expr, (∀ e ∈ es, P e) → P (.list es)) (h : nesting.All P) :
    (nesting.advance token).All P := by
  cases hkind : token.kind with
  | opening =>
    rw [Nesting.advance_opening hkind]
    exact Nesting.all_cons_iff.mpr ⟨nofun, h⟩
  | closing =>
    cases nesting with
    | nil =>
      rw [Nesting.advance_closing_nil hkind]
      trivial
    | cons form outer =>
      obtain ⟨hform, houter⟩ := Nesting.all_cons_iff.mp h
      rw [Nesting.advance_closing hkind]
      exact all_place (hlist _ fun e he => hform e (List.mem_reverse.mp he)) houter
  | atom =>
    rw [Nesting.advance_atom hkind]
    exact all_place (hatom hkind) h

end Progress

theorem forall_mem_of_parseFrom (hatom : ∀ t ∈ tokens, t.kind = .atom → P (.ofAtom t.text))
    (hlist : ∀ es : List Expr, (∀ e ∈ es, P e) → P (.list es)) (hnesting : nesting.All P)
    (h : parseFrom nesting tokens = .ok es) : ∀ e ∈ es, P e := by
  induction tokens generalizing nesting es with
  | nil =>
    cases nesting with
    | nil =>
      cases h
      exact nofun
    | cons form outer => cases h
  | cons token tokens ih =>
    obtain ⟨hfirst, hrest⟩ := List.forall_mem_cons.mp hatom
    have hall := Progress.all_advance hfirst hlist hnesting
    rw [parseFrom_cons] at h
    cases hprogress : nesting.advance token with
    | within nesting' =>
      rw [hprogress] at h hall
      exact ih hrest hall h
    | complete e =>
      rw [hprogress] at h hall
      cases hlater : parseFrom [] tokens with
      | error err =>
        rw [Progress.resume, hlater] at h
        cases h
      | ok later =>
        rw [Progress.resume, hlater] at h
        cases h
        exact List.forall_mem_cons.mpr ⟨hall, ih hrest Nesting.all_nil hlater⟩
    | stray paren =>
      rw [hprogress] at h
      cases h

/-- To show that something holds of all that is read from a text, show it of each atom, which
is a run of atom characters, and of lists. -/
theorem forall_mem_of_parse {text : String} (h : parse text = .ok es)
    (hatom : ∀ atom : String, Lexeme.IsRun atom.toList → P (.ofAtom atom))
    (hlist : ∀ es : List Expr, (∀ e ∈ es, P e) → P (.list es)) : ∀ e ∈ es, P e := by
  refine forall_mem_of_parseFrom (fun t ht hkind => ?_) hlist Nesting.all_nil h
  exact hatom t.text (Token.isRun_of_mem_ofLines t ht hkind)

end LexicalLisp
