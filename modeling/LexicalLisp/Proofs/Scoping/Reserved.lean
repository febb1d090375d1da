import LexicalLisp.Proofs.Evaluation.TwinRuns
import LexicalLisp.Proofs.Store.Chain
import LexicalLisp.Proofs.Scoping.Occurrence

/-!
# Reserved names cannot be shadowed

A form with a reserved name as its head is evaluated by the rule of that name, and the
name is not looked up. So a binding of a reserved name goes unnoticed by code that does
not ask for it: by code that has reserved names only at the heads of forms and among the
names that `let` and `lambda` bind. Whatever a program or its host binds reserved names
to, such code runs as if it had not.

The condition is on what may be evaluated. Code asks for a name by evaluating it as a
variable, or by defining or assigning it; the symbol `else` is no variable.
-/

namespace LexicalLisp

namespace Store

/-- The same frames stand in the same places, the same closure numbers have been given out,
and each frame binds the same names to the same values, the listed names apart. -/
structure AgreesBut (names : List String) (s t : Store) : Prop where
  size_eq : s.frames.size = t.frames.size
  closureCount_eq : s.closureCount = t.closureCount
  outerOf_eq : ∀ g, s.outerOf g = t.outerOf g
  lookup_eq : ∀ g x, x ∉ names → (s.bindingsOf g).lookup x = (t.bindingsOf g).lookup x

namespace AgreesBut

variable {names : List String} {s t : Store} {f : FrameId} {x : String}

/-- To bind one of the names makes no difference but in that name. -/
theorem of_bind (s : Store) (f : FrameId) (hx : x ∈ names) (v : Value) :
    s.AgreesBut names (s.bind f x v) where
  size_eq := by simp
  closureCount_eq := by simp
  outerOf_eq g := by simp
  lookup_eq g y hy := by
    have hne : y ≠ x := fun h => hy (h ▸ hx)
    rw [lookup_bindingsOf_bind_of_ne s f g x v hne]

variable (h : s.AgreesBut names t)
include h

theorem binds_eq (hx : x ∉ names) : (s.bindingsOf f).binds x = (t.bindingsOf f).binds x := by
  unfold Bindings.binds
  rw [h.lookup_eq f x hx]

theorem lookup_frame_eq (hx : x ∉ names) : s.lookup f x = t.lookup f x :=
  lookup_eq_of_chain (chain_congr h.outerOf_eq f) fun g _ => h.lookup_eq g x hx

theorem nearest_eq (hx : x ∉ names) : s.nearest? f x = t.nearest? f x :=
  nearest_eq_of_chain (chain_congr h.outerOf_eq f) fun g _ => h.lookup_eq g x hx

theorem bind (f : FrameId) (x : String) (v : Value) :
    (s.bind f x v).AgreesBut names (t.bind f x v) where
  size_eq := by simp [h.size_eq]
  closureCount_eq := by simp [h.closureCount_eq]
  outerOf_eq g := by simp [h.outerOf_eq g]
  lookup_eq g y hy := by
    rw [bindingsOf_bind, bindingsOf_bind, h.size_eq]
    split
    · rw [Bindings.lookup_put, Bindings.lookup_put, h.lookup_eq f y hy]
    · exact h.lookup_eq g y hy

theorem push (outer : Option FrameId) (b : Bindings) :
    (s.push outer b).2.AgreesBut names (t.push outer b).2 where
  size_eq := by simp [h.size_eq]
  closureCount_eq := by simp [h.closureCount_eq]
  outerOf_eq g := by rw [outerOf_push, outerOf_push, h.size_eq, h.outerOf_eq g]
  lookup_eq g y hy := by
    rw [bindingsOf_push, bindingsOf_push, h.size_eq]
    split
    · rfl
    · exact h.lookup_eq g y hy

theorem makeClosure (params : List String) (body : Expr) (f : FrameId) :
    (s.makeClosure params body f).2.AgreesBut names (t.makeClosure params body f).2 where
  size_eq := h.size_eq
  closureCount_eq := congrArg (· + 1) h.closureCount_eq
  outerOf_eq := h.outerOf_eq
  lookup_eq := h.lookup_eq

end AgreesBut

end Store

open Store

namespace Expr

/-- The name that an expression itself asks for: a symbol for its value, a `define` or
`set!` form for its target. -/
def asksFor? : Expr → Option String
  | symbol name => if name = "else" then none else some name
  | list [symbol head, symbol name, _] =>
    if head = Keyword.define.name ∨ head = Keyword.set.name then some name else none
  | _ => none

/-- Nothing that may be evaluated on behalf of the expression asks for one of the names. -/
def AsksForNone (names : List String) (e : Expr) : Prop :=
  ∀ e' name, e.Evaluates e' → e'.asksFor? = some name → name ∉ names

variable {names : List String} {e e' : Expr} {x : String}

theorem AsksForNone.of_part (h : e.AsksForNone names) (he' : e' ∈ e.parts) :
    e'.AsksForNone names :=
  fun e'' name he'' => h e'' name (he''.of_part he')

theorem AsksForNone.not_mem (h : e.AsksForNone names) (he : e.asksFor? = some x) : x ∉ names :=
  h e x (.refl e) he

theorem asksForNone_of_check {n : Nat}
    (h : e.holdsThroughout parts (fun e => e.asksFor?.all (· ∉ names)) n) :
    e.AsksForNone names := by
  intro e' name he' hname
  have hall := of_holdsThroughout h he'
  simpa [hname] using hall

end Expr

/-- Two runs on stores that differ in the listed names, of code that asks for none of them. -/
def shielded (names : List String) : TwinRuns where
  World := Unit
  le _ _ := True
  stores _ s t := s.AgreesBut names t ∧ ∀ c, s.Holds c → c.body.AsksForNone names
  closures _ c := c.body.AsksForNone names
  le_refl _ := trivial
  le_trans _ _ _ _ _ := trivial
  closures_mono _ _ h := h
  size_eq h := h.1.size_eq
  closureCount_eq h := h.1.closureCount_eq

namespace shielded

variable {names : List String}

theorem bind_later {w : (shielded names).World} {s t : Store}
    (h : (shielded names).stores w s t) (f : FrameId) (x : String) {v : Value}
    (hv : (shielded names).Values w v) :
    (shielded names).Later w (s.bind f x v) (t.bind f x v) := by
  refine ⟨w, trivial, h.1.bind f x v, fun c hc => ?_⟩
  rcases holds_of_holds_bind hc with hold | hnew
  · exact h.2 c hold
  · exact hv c hnew

theorem supports (names : List String) :
    (shielded names).Supports fun _ e _ => e.AsksForNone names where
  mono _ _ _ h := h
  parts h _ he' := h.of_part he'
  body h := h
  lookup {_ s t f x} h hx helse := by
    have hname : x ∉ names := hx.not_mem (if_neg helse)
    exact ⟨h.1.lookup_frame_eq hname, fun v hv c hc => h.2 c (holds_of_lookup hv hc)⟩
  define {_ s t f x e} h he := by
    have hname : x ∉ names := he.not_mem (by simp [Expr.asksFor?])
    exact ⟨h.1.binds_eq hname, fun v hv => bind_later h f x hv⟩
  assign {_ s t f x e} h he := by
    have hname : x ∉ names := he.not_mem (by simp [Expr.asksFor?])
    exact ⟨h.1.nearest_eq hname, fun g _ v hv => bind_later h g x hv⟩
  push {w s t f e b} h he hb := by
    refine ⟨w, trivial, ⟨h.1.push (some f) b, fun c hc => ?_⟩, he⟩
    rcases holds_of_holds_push hc with hold | ⟨x, v, hv, hnew⟩
    · exact h.2 c hold
    · exact hb x v hv c hnew
  makeClosure {w s t f body} params h hbody :=
    ⟨w, trivial, ⟨h.1.makeClosure params body f, h.2⟩, hbody⟩

end shielded

/-- Reserved names cannot be shadowed. Let neither the expression nor a closure of the store
ask for a reserved name. On every store that differs in nothing but what reserved names are
bound to, the expression is evaluated to the same value or the same error, with the same
output and the same input left, and the stores afterwards again differ in nothing else. So
it makes no difference if a reserved name is bound, in whatever frame. -/
theorem reserved_names_cannot_be_shadowed (n : Nat) {e : Expr} (f : FrameId) {s : Store}
    (terminal : Terminal) (he : e.AsksForNone reservedNames)
    (hs : ∀ c, s.Holds c → c.body.AsksForNone reservedNames) :
    (∀ t, s.AgreesBut reservedNames t →
      (eval n e f ⟨s, terminal⟩).SameUpTo (fun _ => AgreesBut reservedNames)
        (eval n e f ⟨t, terminal⟩)) ∧
    ∀ g x v, x ∈ reservedNames →
      (eval n e f ⟨s, terminal⟩).SameUpTo (fun _ => AgreesBut reservedNames)
        (eval n e f ⟨s.bind g x v, terminal⟩) := by
  have hsame : ∀ t, s.AgreesBut reservedNames t →
      (eval n e f ⟨s, terminal⟩).SameUpTo (fun _ => AgreesBut reservedNames)
        (eval n e f ⟨t, terminal⟩) := by
    intro t ht
    apply ((shielded.supports reservedNames).eval_same n (w := ()) he ⟨ht, hs⟩ terminal).imp
    rintro _ s' t' ⟨_, -, ⟨hst, -⟩, -⟩
    exact hst
  exact ⟨hsame, fun g x v hx => hsame _ (.of_bind s g hx v)⟩

/-- Neither a binding of `car` in the frame of the run nor one of `if` by the run itself is
noticed, where a closure with a parameter `car` applies the operator. -/
theorem binding_of_car_goes_unnoticed :
    let first : Closure := ⟨0, ["car", "xs"], .list [.symbol "car", .symbol "xs"], 0⟩
    let s := (Session.start (.ofLines [])).store.bind 0 "first" (.closure first)
    let t := s.bind 0 "car" .void
    let e : Expr := .list [.symbol "let", .list [.list [.symbol "if", .integer 1]],
      .list [.symbol "if", .symbol "else",
        .list [.symbol "first", .integer 2, .list [.symbol "list", .integer 3]], .symbol "xs"]]
    s.lookup 0 "car" = .error (.unbound "car") ∧ t.lookup 0 "car" = .ok .void ∧
      (eval 5 e 0 ⟨s, .ofLines []⟩).SameUpTo (fun _ => AgreesBut reservedNames)
        (eval 5 e 0 ⟨t, .ofLines []⟩) ∧
      ∃ m, eval 5 e 0 ⟨t, .ofLines []⟩ = .result (.integer 3) m := by
  intro first s t e
  have he : e.AsksForNone reservedNames := Expr.asksForNone_of_check (n := 5) (by decide)
  have hfirst : first.body.AsksForNone reservedNames :=
    Expr.asksForNone_of_check (n := 2) (by decide)
  have hclosures : ∀ c, s.Holds c → c.body.AsksForNone reservedNames := by
    intro c hc
    rcases holds_of_holds_bind hc with hold | hnew
    · exact absurd hold (Session.not_holds_start (.ofLines []) c)
    · obtain rfl : c = first := by simpa [Value.closures] using hnew
      exact hfirst
  have hsame := (reserved_names_cannot_be_shadowed 5 0 (.ofLines []) he hclosures).2 0 "car" .void
    (by decide)
  exact ⟨rfl, rfl, hsame, _, rfl⟩

end LexicalLisp
