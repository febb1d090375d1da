import LexicalLisp.Proofs.Evaluation.Invariant
import LexicalLisp.Proofs.Store.Frames

/-!
# What evaluation does to the frames there are

Evaluation neither removes a frame nor moves it, and it keeps every name that a
frame binds. New names come from definitions, which act on the frame the code
runs in; a frame opened on the way is a new one, so the frames that were there
before get no names, except for the one in which the evaluation began.
-/

namespace LexicalLisp

/-- The second store may come about from the first one: frames and names are kept,
every frame stays where it is, and the closed frames get no new names. -/
structure Store.Extends (closed : FrameId → Prop) (s s' : Store) : Prop where
  size_le : s.frames.size ≤ s'.frames.size
  closureCount_le : s.closureCount ≤ s'.closureCount
  outerOf_eq : ∀ g, g < s.frames.size → s'.outerOf g = s.outerOf g
  keeps_names : ∀ g name, (s.bindingsOf g).binds name = true → (s'.bindingsOf g).binds name = true
  adds_none : ∀ g name, closed g → (s'.bindingsOf g).binds name = true →
    (s.bindingsOf g).binds name = true

namespace Store.Extends

variable {closed : FrameId → Prop} {s s' s'' : Store}

theorem refl (closed : FrameId → Prop) (s : Store) : s.Extends closed s :=
  ⟨Nat.le_refl _, Nat.le_refl _, fun _ _ => rfl, fun _ _ h => h, fun _ _ _ h => h⟩

theorem trans (h : s.Extends closed s') (h' : s'.Extends closed s'') : s.Extends closed s'' where
  size_le := Nat.le_trans h.size_le h'.size_le
  closureCount_le := Nat.le_trans h.closureCount_le h'.closureCount_le
  outerOf_eq g hg := (h'.outerOf_eq g (Nat.lt_of_lt_of_le hg h.size_le)).trans (h.outerOf_eq g hg)
  keeps_names g name hb := h'.keeps_names g name (h.keeps_names g name hb)
  adds_none g name hg hb := h.adds_none g name hg (h'.adds_none g name hg hb)

/-- To bind a name is harmless in an open frame, and anywhere if the name is bound there already. -/
theorem bind {f : FrameId} {name : String} (value : Value)
    (h : closed f → (s.bindingsOf f).binds name = true) :
    s.Extends closed (s.bind f name value) where
  size_le := by simp
  closureCount_le := by simp
  outerOf_eq g _ := by simp
  keeps_names g other hb := by
    rw [bindingsOf_bind]
    split
    · rename_i hg
      rw [hg.1] at hb
      simp [hb]
    · exact hb
  adds_none g other hg hb := by
    rw [bindingsOf_bind] at hb
    split at hb
    · rename_i hgf
      obtain ⟨rfl, -⟩ := hgf
      rw [Bindings.binds_put, Bool.or_eq_true, decide_eq_true_eq] at hb
      rcases hb with rfl | hb
      · exact h hg
      · exact hb
    · exact hb

theorem push (outer : Option FrameId) (b : Bindings) (h : ∀ g, closed g → g < s.frames.size) :
    s.Extends closed (s.push outer b).2 where
  size_le := by simp
  closureCount_le := by simp
  outerOf_eq g hg := by rw [outerOf_push, if_neg (Nat.ne_of_lt hg)]
  keeps_names g name hb := by
    rw [bindingsOf_push, if_neg (Nat.ne_of_lt (s.lt_size_of_binds g hb))]
    exact hb
  adds_none g name hg hb := by
    rwa [bindingsOf_push, if_neg (Nat.ne_of_lt (h g hg))] at hb

theorem makeClosure (params : List String) (body : Expr) (f : FrameId) :
    s.Extends closed (s.makeClosure params body f).2 :=
  ⟨Nat.le_refl _, Nat.le_succ _, fun _ _ => rfl, fun _ _ h => h, fun _ _ _ h => h⟩

end Store.Extends

/-- The second store may come about from the first one, wherever code has run. -/
abbrev Store.Grows : Store → Store → Prop := Store.Extends fun _ => False

namespace Store.Grows

theorem refl : ∀ s : Store, s.Grows s := Extends.refl _

theorem trans : ∀ u v w : Store, u.Grows v → v.Grows w → u.Grows w := fun _ _ _ => Extends.trans

theorem bind (s : Store) (f : FrameId) (name : String) (value : Value) :
    s.Grows (s.bind f name value) := Extends.bind value False.elim

theorem push (s : Store) (outer : Option FrameId) (b : Bindings) :
    s.Grows (s.push outer b).2 := Extends.push outer b fun _ h => h.elim

theorem makeClosure (s : Store) (params : List String) (body : Expr) (f : FrameId) :
    s.Grows (s.makeClosure params body f).2 := Extends.makeClosure params body f

end Store.Grows

open Store

/-- Worlds are stores: of a run it is only followed how its store grows. The closed
frames have to exist, so that no new frame is one of them. -/
def growth (closed : FrameId → Prop) : Invariant where
  World := Store
  le := Extends closed
  holds w s := s = w ∧ ∀ g, closed g → g < s.frames.size
  closures _ _ := True
  tolerates _ := True
  le_refl := Extends.refl closed
  le_trans _ _ _ := Extends.trans
  closures_mono _ _ _ := trivial
  tolerates_local _ := trivial

namespace growth

variable {closed : FrameId → Prop}

theorem acts {α : Type} {P : Store → α → Prop} {s : Store} {r : Except NameError α × Store}
    (hs : ∀ g, closed g → g < s.frames.size) (hle : s.Extends closed r.2)
    (hP : ∀ a, r.1 = .ok a → P r.2 a) : (growth closed).Acts s P r := by
  refine ⟨r.2, hle, ⟨rfl, fun g hg => Nat.lt_of_lt_of_le (hs g hg) hle.size_le⟩, ?_⟩
  split
  · exact hP _ ‹_›
  · trivial

theorem push_acts {s : Store} (hs : ∀ g, closed g → g < s.frames.size)
    (outer : Option FrameId) (b? : Except NameError Bindings) :
    (growth closed).Acts s (fun _ f => ¬closed f) (s.pushResult outer b?) := by
  cases b? with
  | ok b =>
    refine acts hs (.push outer b hs) ?_
    rintro f ⟨rfl⟩ hc
    exact Nat.lt_irrefl _ (hs _ hc)
  | error e => exact acts hs (.refl closed s) fun _ h => nomatch h

theorem pushFrame_related {w : Store} (f : FrameId) (pairs : List (String × Value)) :
    (growth closed).simulation.Related w (fun _ f g => f = g ∧ ¬closed f)
      (Run.pushFrame f pairs) (Run.pushFrame f pairs) := by
  refine Invariant.onStore_related ?_
  intro _ s _ h
  obtain ⟨rfl, hs⟩ := h
  rw [pushPairs_eq]
  exact push_acts hs (some f) _

theorem pushCall_related {w : Store} (c : Closure) (self? : Option String) (args : List Value) :
    (growth closed).simulation.Related w (fun _ f g => f = g ∧ ¬closed f)
      (Run.pushCall c self? args) (Run.pushCall c self? args) := by
  refine Invariant.onStore_related ?_
  intro _ s _ h
  obtain ⟨rfl, hs⟩ := h
  rw [pushCall_eq]
  exact push_acts hs (some c.frame) _

theorem sound (closed : FrameId → Prop) :
    (growth closed).Sound (fun _ f => ¬closed f) (fun _ => True) where
  frames_mono _ _ h := h
  parts _ _ _ := trivial
  body _ := trivial
  lookup := by
    intro _ s f name h _ _ _
    obtain ⟨rfl, hs⟩ := h
    exact acts hs (.refl closed s) fun _ _ _ _ => trivial
  define := by
    intro _ s f name e v h hf _ _
    obtain ⟨rfl, hs⟩ := h
    refine acts hs ?_ fun _ _ => trivial
    unfold Store.define
    split
    · exact .refl closed s
    · exact .bind v fun hc => absurd hc hf
  assign := by
    intro _ s f name e v h _ _ _
    obtain ⟨rfl, hs⟩ := h
    refine acts hs ?_ fun _ _ => trivial
    unfold Store.assign
    split
    · rename_i g hg
      exact .bind v fun _ => by simpa using List.find?_some hg
    · exact .refl closed s
  openLet := by
    intro _ s f ps h _ _
    obtain ⟨rfl, hs⟩ := h
    rw [pushPairs_eq]
    exact push_acts hs (some f) _
  openCall := by
    intro _ s c self? vs h _ _ _
    obtain ⟨rfl, hs⟩ := h
    rw [pushCall_eq]
    exact push_acts hs (some c.frame) _
  makeClosure := by
    intro _ s f params body h _ _ _
    obtain ⟨rfl, hs⟩ := h
    exact ⟨_, Extends.makeClosure params body f, ⟨rfl, hs⟩, trivial⟩
  refused _ := trivial
  endOfInput := trivial

theorem leaves {α : Type} {P : Store → α → Prop} {m : Machine} {o : Outcome EvalError α}
    (h : (growth closed).Ends m.store P o) :
    o.Leaves fun m' => m.store.Extends closed m'.store := by
  refine h.leaves.imp ?_
  intro m' h
  obtain ⟨u, hu, rfl, -⟩ := h
  exact hu

end growth

/-- Evaluation in a frame gives new names to that frame only, of those there are. -/
theorem eval_extends (n : Nat) (e : Expr) (f : FrameId) (m : Machine) :
    (eval n e f m).Leaves fun m' =>
      m.store.Extends (fun g => g < m.store.frames.size ∧ g ≠ f) m'.store := by
  refine growth.leaves ((growth.sound _).eval_keeps n ?_ trivial ⟨rfl, fun g hg => hg.1⟩)
  exact fun h => h.2 rfl

theorem run_extends (n : Nat) (program : List Expr) (f : FrameId) (m : Machine) :
    (Session.run n program f m).Leaves fun m' =>
      m.store.Extends (fun g => g < m.store.frames.size ∧ g ≠ f) m'.store := by
  refine growth.leaves ((growth.sound _).run_keeps n ?_ (fun _ _ => trivial)
    ⟨rfl, fun g hg => hg.1⟩)
  exact fun h => h.2 rfl

theorem extends_of_open (n : Nat) {x : Run EvalError FrameId} (e : Expr) (m : Machine)
    (hx : ∀ closed w, (growth closed).simulation.Related w (fun _ f g => f = g ∧ ¬closed f) x x) :
    ((x >>= eval n e) m).Leaves fun m' =>
      m.store.Extends (· < m.store.frames.size) m'.store := by
  have hrun : (growth (· < m.store.frames.size)).simulation.Related m.store
      (growth _).simulation.Values (x >>= eval n e) (x >>= eval n e) :=
    (hx _ _).bind fun u f g _ hfg => (growth.sound _).simulation.eval_related n hfg trivial
  exact growth.leaves (Invariant.ends_of_run (P := (growth _).Values) hrun
    (fun _ _ _ _ h => (Invariant.values_iff.mp h).2) ⟨rfl, fun _ hg => hg⟩)

/-- Definitions are local and permanent. Frames and names are kept, and of the
frames there were only the one in which the evaluation began may get new names.
The body of a `let` and the body of a closure, wherever it was made and whoever
calls it, run in frames of their own and give new names to none of the others. -/
theorem definitions_are_local (n : Nat) (e : Expr) (f : FrameId) (m : Machine) :
    ((eval n e f m).Leaves fun m' =>
      m.store.Extends (fun g => g < m.store.frames.size ∧ g ≠ f) m'.store) ∧
    (∀ pairs, ((Run.pushFrame f pairs >>= eval n e) m).Leaves fun m' =>
      m.store.Extends (· < m.store.frames.size) m'.store) ∧
    ∀ c head args, (Eval.enter (eval n) c head args m).Leaves fun m' =>
      m.store.Extends (· < m.store.frames.size) m'.store := by
  refine ⟨eval_extends n e f m, fun pairs => ?_, fun c head args => ?_⟩
  · exact extends_of_open n e m fun _ _ => growth.pushFrame_related f pairs
  · exact extends_of_open n c.body m fun _ _ => growth.pushCall_related c _ args

end LexicalLisp
