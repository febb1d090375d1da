import LexicalLisp.Proofs.Scoping.Occurrence
import LexicalLisp.Proofs.Store.Chain

/-!
# Which forms change a name

The frames there are get a new value for a name by an assignment to that name and
in no other way: a definition is refused where the name is bound, and all else that
binds names, such as a `let`, a parameter or the name by which a closure is called,
does so in a frame of its own. In the same way a name that no form defines is not
added to any of these frames.

Both are properties of the text of a program, and of the closures that it may call.
-/

namespace LexicalLisp

open Store

/-- None of the keywords has a form in the expression that is about the name. -/
def Expr.Spares (ks : List Keyword) (x : String) (e : Expr) : Prop := ∀ k ∈ ks, ¬e.Targets k x

/-- The second store may come about from the first without forms of these keywords about
the name: without assignments it keeps its values, and without definitions no frame that
there was comes to bind it. -/
structure Store.Spares (ks : List Keyword) (x : String) (s s' : Store) : Prop where
  grows : s.Grows s'
  keeps_value : .set ∈ ks → ∀ g v, (s.bindingsOf g).lookup x = some v →
    (s'.bindingsOf g).lookup x = some v
  adds_none : .define ∈ ks → ∀ g, g < s.frames.size → (s.bindingsOf g).lookup x = none →
    (s'.bindingsOf g).lookup x = none

namespace Store.Spares

variable {ks : List Keyword} {x y : String} {s s' s'' : Store} {f : FrameId}

theorem refl (ks : List Keyword) (x : String) (s : Store) : s.Spares ks x s :=
  ⟨.refl s, fun _ _ _ h => h, fun _ _ _ h => h⟩

theorem trans (h : s.Spares ks x s') (h' : s'.Spares ks x s'') : s.Spares ks x s'' where
  grows := Extends.trans h.grows h'.grows
  keeps_value hset g v hv := h'.keeps_value hset g v (h.keeps_value hset g v hv)
  adds_none hdefine g hg hnone := by
    have hg' : g < s'.frames.size := Nat.lt_of_lt_of_le hg h.grows.size_le
    exact h'.adds_none hdefine g hg' (h.adds_none hdefine g hg hnone)

/-- To bind the name itself is allowed where it is not bound yet, and as an assignment
where it is. -/
theorem bind (s : Store) (f : FrameId) (v : Value)
    (hset : x = y → .set ∈ ks → (s.bindingsOf f).binds x = false)
    (hdefine : x = y → .define ∈ ks → (s.bindingsOf f).binds x = true) :
    s.Spares ks x (s.bind f y v) where
  grows := .bind s f y v
  keeps_value hmem g w hw := by
    by_cases hxy : x = y
    · have hgf : g ≠ f := by
        rintro rfl
        have hunbound := hset hxy hmem
        simp [Bindings.binds, hw] at hunbound
      rw [bindingsOf_bind, if_neg fun hand => hgf hand.1]
      exact hw
    · rw [lookup_bindingsOf_bind_of_ne s f g y v hxy]
      exact hw
  adds_none hmem g hg hnone := by
    by_cases hxy : x = y
    · have hgf : g ≠ f := by
        rintro rfl
        have hbound := hdefine hxy hmem
        simp [Bindings.binds, hnone] at hbound
      rw [bindingsOf_bind, if_neg fun hand => hgf hand.1]
      exact hnone
    · rw [lookup_bindingsOf_bind_of_ne s f g y v hxy]
      exact hnone

theorem push (s : Store) (outer : Option FrameId) (b : Bindings) :
    s.Spares ks x (s.push outer b).2 where
  grows := .push s outer b
  keeps_value _ g v hv := by
    rw [bindingsOf_push, if_neg (Nat.ne_of_lt (s.lt_size_of_lookup g hv))]
    exact hv
  adds_none _ g hg hnone := by
    rw [bindingsOf_push, if_neg (Nat.ne_of_lt hg)]
    exact hnone

theorem makeClosure (s : Store) (params : List String) (body : Expr) (f : FrameId) :
    s.Spares ks x (s.makeClosure params body f).2 :=
  ⟨.makeClosure s params body f, fun _ _ _ h => h, fun _ _ _ h => h⟩

theorem lookup_eq (h : s.Spares [.set, .define] x s') {g : FrameId} (hg : g < s.frames.size) :
    (s'.bindingsOf g).lookup x = (s.bindingsOf g).lookup x := by
  cases hx : (s.bindingsOf g).lookup x with
  | none => exact h.adds_none (by simp) g hg hx
  | some v => exact h.keeps_value (by simp) g v hx

theorem lookup_frame_eq (h : s.Spares [.set, .define] x s') (hs : s.WellFormed)
    (hf : f < s.frames.size) : s'.lookup f x = s.lookup f x := by
  have hchain := hs.chain_eq_of_extends h.grows hf
  apply lookup_eq_of_chain hchain
  intro g hg
  rw [hchain] at hg
  exact h.lookup_eq (Nat.lt_of_le_of_lt (hs.le_of_mem_chain hg) hf)

end Store.Spares

theorem Expr.Spares.of_occursIn {ks : List Keyword} {x : String} {e e' : Expr}
    (h : e.OccursIn e') (he' : e'.Spares ks x) : e.Spares ks x :=
  fun k hk he => he' k hk (he.of_occursIn h)

/-- Worlds are stores, in which no closure has a form about the name. -/
def sparing (ks : List Keyword) (x : String) : Invariant where
  World := Store
  le := Store.Spares ks x
  holds w s := s = w ∧ ∀ c, s.Holds c → c.body.Spares ks x
  closures _ c := c.body.Spares ks x
  tolerates _ := True
  le_refl := .refl ks x
  le_trans _ _ _ := .trans
  closures_mono _ _ h := h
  tolerates_local _ := trivial

namespace sparing

variable {ks : List Keyword} {x name : String} {s : Store} {f : FrameId} {v : Value}

theorem unchanged {α : Type} {P : Store → α → Prop} (hs : ∀ c, s.Holds c → c.body.Spares ks x)
    {r : Except NameError α} (hP : ∀ a, r = .ok a → P s a) : (sparing ks x).Acts s P (r, s) :=
  Invariant.acts_of_holds ⟨rfl, hs⟩ hP fun _ _ => trivial

theorem bind_acts (hs : ∀ c, s.Holds c → c.body.Spares ks x)
    (hv : ∀ c ∈ v.closures, c.body.Spares ks x)
    (hset : x = name → .set ∈ ks → (s.bindingsOf f).binds x = false)
    (hdefine : x = name → .define ∈ ks → (s.bindingsOf f).binds x = true) :
    (sparing ks x).Acts s (sparing ks x).NoResult (.ok (), s.bind f name v) := by
  refine ⟨_, .bind s f v hset hdefine, ⟨rfl, fun c hc => ?_⟩, trivial⟩
  rcases holds_of_holds_bind hc with hold | hnew
  · exact hs c hold
  · exact hv c hnew

theorem push_acts (hs : ∀ c, s.Holds c → c.body.Spares ks x) (outer : Option FrameId)
    {b? : Except NameError Bindings} (hb : ∀ b, b? = .ok b → ∀ name v, b.lookup name = some v →
      ∀ c ∈ v.closures, c.body.Spares ks x) :
    (sparing ks x).Acts s (fun _ _ => True) (s.pushResult outer b?) := by
  cases b? with
  | error e => exact unchanged hs fun _ _ => trivial
  | ok b =>
    refine ⟨_, .push s outer b, ⟨rfl, fun c hc => ?_⟩, trivial⟩
    rcases holds_of_holds_push hc with hold | ⟨name, v, hv, hnew⟩
    · exact hs c hold
    · exact hb b rfl name v hv c hnew

theorem sound (ks : List Keyword) (x : String) :
    (sparing ks x).Sound (fun _ _ => True) (Expr.Spares ks x) where
  frames_mono _ _ h := h
  parts he e' he' := he.of_occursIn (Expr.occursIn_of_mem_parts he')
  body h := h
  lookup := by
    rintro _ s f name ⟨rfl, hs⟩ - - -
    exact unchanged hs fun v hv c hc => hs c (holds_of_lookup hv hc)
  define := by
    rintro _ s f name e v ⟨rfl, hs⟩ - he hv
    unfold Store.define
    split
    · exact unchanged hs fun _ _ => trivial
    · rename_i hunbound
      apply bind_acts hs hv
      · rintro rfl -
        exact Bool.eq_false_of_not_eq_true hunbound
      · rintro rfl hmem
        exact absurd (Expr.targets_form .define x [e]) (he .define hmem)
  assign := by
    rintro _ s f name e v ⟨rfl, hs⟩ - he hv
    unfold Store.assign
    split
    · rename_i g hg
      apply bind_acts hs hv
      · rintro rfl hmem
        exact absurd (Expr.targets_form .set x [e]) (he .set hmem)
      · rintro rfl -
        simpa using List.find?_some hg
    · exact unchanged hs fun _ _ => trivial
  openLet := by
    rintro _ s f ps ⟨rfl, hs⟩ - hps
    rw [pushPairs_eq]
    exact push_acts hs (some f) fun b hb name v hv => closures_of_extend hps hb hv
  openCall := by
    rintro _ s c self? vs ⟨rfl, hs⟩ hc hvs -
    rw [pushCall_eq]
    exact push_acts hs (some c.frame) fun b hb name v hv => closures_of_callBindings hc hvs hb hv
  makeClosure := by
    rintro _ s f params body ⟨rfl, hs⟩ - hbody -
    exact ⟨_, .makeClosure s params body f, ⟨rfl, hs⟩, hbody⟩
  refused _ := trivial
  endOfInput := trivial

end sparing

/-- Neither the expression nor a closure in the store has a form `(set! x ..)` anywhere. -/
structure Unassigned (x : String) (e : Expr) (s : Store) : Prop where
  expr : ¬e.Targets .set x
  held : ∀ c, s.Holds c → ¬c.body.Targets .set x

/-- Neither the expression nor a closure in the store has a `set!` form anywhere. -/
structure AssignmentFree (e : Expr) (s : Store) : Prop where
  expr : ∀ es, ¬(Expr.list (.symbol Keyword.set.name :: es)).OccursIn e
  held : ∀ c, s.Holds c → ∀ es, ¬(Expr.list (.symbol Keyword.set.name :: es)).OccursIn c.body

theorem AssignmentFree.unassigned {e : Expr} {s : Store} (h : AssignmentFree e s) (x : String) :
    Unassigned x e s where
  expr := fun ⟨_, hes⟩ => h.expr _ hes
  held c hc := fun ⟨_, hes⟩ => h.held c hc _ hes

theorem eval_keeps_value (n : Nat) {x : String} {e : Expr} {m : Machine} (f : FrameId)
    (h : Unassigned x e m.store) :
    (eval n e f m).Leaves fun m' => ∀ g v, (m.store.bindingsOf g).lookup x = some v →
      (m'.store.bindingsOf g).lookup x = some v := by
  have hspares : ∀ e : Expr, ¬e.Targets .set x → e.Spares [.set] x := by
    rintro e he k hk
    rw [List.mem_singleton.mp hk]
    exact he
  have hheld : ∀ c, m.store.Holds c → c.body.Spares [.set] x :=
    fun c hc => hspares c.body (h.held c hc)
  have hends := (sparing.sound [.set] x).eval_keeps n (f := f) trivial (hspares e h.expr)
    ⟨rfl, hheld⟩
  refine hends.leaves.imp ?_
  rintro m' ⟨_, hle, rfl, -⟩
  exact hle.keeps_value (by simp)

/-- Only assignments to a name change what it is bound to. If there are none in the
expression and in the closures of the store, then however the evaluation ends, each frame
that binds the name binds it to the same value as before; without any `set!` that holds of
all names. -/
theorem only_assignments_change_values (n : Nat) (e : Expr) (f : FrameId) (m : Machine) :
    (∀ x, Unassigned x e m.store →
      (eval n e f m).Leaves fun m' => ∀ g v, (m.store.bindingsOf g).lookup x = some v →
        (m'.store.bindingsOf g).lookup x = some v) ∧
    (AssignmentFree e m.store →
      (eval n e f m).Leaves fun m' => ∀ x g v, (m.store.bindingsOf g).lookup x = some v →
        (m'.store.bindingsOf g).lookup x = some v) := by
  refine ⟨fun x h => eval_keeps_value n f h, fun h => ?_⟩
  have hall := fun x => eval_keeps_value n f (h.unassigned x)
  cases heval : eval n e f m with
  | outOfFuel => trivial
  | result v m' =>
    simp only [heval] at hall
    exact hall
  | error err m' =>
    simp only [heval] at hall
    exact hall

/-- Another name is assigned, `x` is bound anew further in, and the evaluation fails in the end. -/
theorem other_assignments_keep_value :
    let m : Machine := ⟨(Session.start (.ofLines [])).store.bind 0 "x" (.integer 5), .ofLines []⟩
    let e : Expr := .list [.symbol "begin", .list [.symbol "define", .symbol "y", .integer 1],
      .list [.symbol "set!", .symbol "y", .symbol "x"],
      .list [.symbol "let", .list [.list [.symbol "x", .integer 2]],
        .list [.symbol "car", .symbol "x"]]]
    ∃ m', eval 5 e 0 m = .error (.mismatch .car .list .integer) m' ∧
      (m'.store.bindingsOf 0).lookup "x" = some (.integer 5) := by
  intro m e
  have hunassigned : Unassigned "x" e m.store := by
    refine ⟨?_, fun c hc => ?_⟩
    · simp [e, Expr.Targets, Expr.occursIn_list_iff, Keyword.name]
    · rcases holds_of_holds_bind hc with hold | hnew
      · exact absurd hold (Session.not_holds_start (.ofLines []) c)
      · cases hnew
  have hbound : (m.store.bindingsOf 0).lookup "x" = some (.integer 5) := rfl
  obtain ⟨m', heval⟩ := Outcome.exists_of_error?
    (show (eval 5 e 0 m).error? = some (.mismatch .car .list .integer) by decide +kernel)
  have hkeeps := (only_assignments_change_values 5 e 0 m).1 "x" hunassigned
  rw [heval] at hkeeps
  exact ⟨m', heval, hkeeps 0 _ hbound⟩

end LexicalLisp
