import LexicalLisp.Proofs.Evaluation.FrameEffect

/-!
# Inputs are committed or rolled back

A submitted input that succeeds does what running its text does. One that fails
gives its frame back as it was, and leaves everything else as the failed run
left it. If no frame stands around that frame, nothing that can be seen from it
has changed.
-/

namespace LexicalLisp

theorem Run.leaves_mapError {ε ε' α : Type} {P : Machine → Prop} {x : Run ε α} {m : Machine}
    (g : ε → ε') (h : (x m).Leaves P) : (x.mapError g m).Leaves P := by
  unfold mapError
  cases hx : x m with
  | result a m' => rwa [hx] at h
  | error e m' => rwa [hx] at h
  | outOfFuel => trivial

namespace Session

variable (depth : Nat) (text : String) {f : FrameId} {m : Machine}

theorem runText_extends (f : FrameId) (m : Machine) :
    (runText depth text f m).Leaves fun m' =>
      m.store.Extends (fun g => g < m.store.frames.size ∧ g ≠ f) m'.store := by
  unfold runText runLines
  cases parseLines (Text.lines text) with
  | error e => exact .refl _ m.store
  | ok program => exact Run.leaves_mapError RunError.eval (run_extends depth program f m)

/-- What a failed run in a frame has left, with that frame put back as it was before. -/
structure RolledBack (f : FrameId) (before failed after : Machine) : Prop where
  terminal_eq : after.terminal = failed.terminal
  closureCount_eq : after.store.closureCount = failed.store.closureCount
  size_eq : after.store.frames.size = failed.store.frames.size
  own_eq : after.store.frames[f]? = before.store.frames[f]?
  others_eq : ∀ g, g ≠ f → after.store.frames[g]? = failed.store.frames[g]?

namespace RolledBack

variable {m' m'' : Machine} {closed : FrameId → Prop}

/-- To put the bindings back is enough, since the run does not move the frame. -/
theorem of_extends (hf : f < m.store.frames.size) (h : m.store.Extends closed m'.store) :
    RolledBack f m m' { m' with store := m'.store.setBindings f (m.store.bindingsOf f) } := by
  have hf' : f < m'.store.frames.size := Nat.lt_of_lt_of_le hf h.size_le
  refine ⟨rfl, rfl, Store.size_setBindings .., ?_, fun g hg => ?_⟩
  · have hf'' : f < (m'.store.setBindings f (m.store.bindingsOf f)).frames.size := by simpa
    rw [Store.frames_of_lt _ f hf'', Store.frames_of_lt _ f hf, Store.outerOf_setBindings,
      h.outerOf_eq f hf, Store.bindingsOf_setBindings, if_pos ⟨rfl, hf'⟩]
  · exact Store.frames_setBindings_of_ne _ f g _ hg

theorem bindingsOf_eq (h : RolledBack f m m' m'') :
    m''.store.bindingsOf f = m.store.bindingsOf f := by
  unfold Store.bindingsOf
  rw [h.own_eq]

theorem outerOf_eq (h : RolledBack f m m' m'') : m''.store.outerOf f = m.store.outerOf f := by
  unfold Store.outerOf
  rw [h.own_eq]

theorem bindingsOf_of_ne (h : RolledBack f m m' m'') {g : FrameId} (hg : g ≠ f) :
    m''.store.bindingsOf g = m'.store.bindingsOf g := by
  unfold Store.bindingsOf
  rw [h.others_eq g hg]

theorem outerOf_of_ne (h : RolledBack f m m' m'') {g : FrameId} (hg : g ≠ f) :
    m''.store.outerOf g = m'.store.outerOf g := by
  unfold Store.outerOf
  rw [h.others_eq g hg]

theorem scopes_eq (h : RolledBack f m m' m'') (hroot : m.store.outerOf f = none) :
    m''.store.scopes f = m.store.scopes f := by
  have hroot' : m''.store.outerOf f = none := by rw [h.outerOf_eq, hroot]
  rw [Store.scopes_of_outerOf_none _ f hroot, Store.scopes_of_outerOf_none _ f hroot',
    h.bindingsOf_eq]

theorem extends_of_extends (h : RolledBack f m m' m'') (hext : m.store.Extends closed m'.store) :
    m.store.Extends closed m''.store where
  size_le := by
    rw [h.size_eq]
    exact hext.size_le
  closureCount_le := by
    rw [h.closureCount_eq]
    exact hext.closureCount_le
  outerOf_eq g hg := by
    by_cases hgf : g = f
    · rw [hgf, h.outerOf_eq]
    · rw [h.outerOf_of_ne hgf, hext.outerOf_eq g hg]
  keeps_names g name hb := by
    by_cases hgf : g = f
    · rwa [hgf, h.bindingsOf_eq, ← hgf]
    · rw [h.bindingsOf_of_ne hgf]
      exact hext.keeps_names g name hb
  adds_none g name hg hb := by
    by_cases hgf : g = f
    · rwa [hgf, h.bindingsOf_eq, ← hgf] at hb
    · rw [h.bindingsOf_of_ne hgf] at hb
      exact hext.adds_none g name hg hb

end RolledBack

theorem submit_of_parse_error {e : ReadError} (h : parse text = .error e) (f : FrameId)
    (m : Machine) : submit depth text f m = .error (.read e) m := by
  unfold submit
  rw [h]
  rfl

theorem runText_of_parse_ok {program : List Expr} (h : parse text = .ok program) (f : FrameId) :
    runText depth text f = (run depth program f).mapError .eval := by
  unfold runText runLines
  rw [show parseLines (Text.lines text) = .ok program from h]

theorem submit_of_parse_ok {program : List Expr} (h : parse text = .ok program) (f : FrameId) :
    submit depth text f = protect f (runText depth text f) := by
  rw [runText_of_parse_ok depth text h]
  unfold submit
  rw [h]

theorem exists_rolledBack (hf : f < m.store.frames.size) {e : EvalError} {m'' : Machine}
    (h : submit depth text f m = .error (.eval e) m'') :
    ∃ m', runText depth text f m = .error (.eval e) m' ∧ RolledBack f m m' m'' ∧
      m.store.Extends (fun g => g < m.store.frames.size ∧ g ≠ f) m'.store := by
  cases hparse : parse text with
  | error e' =>
    rw [submit_of_parse_error depth text hparse] at h
    cases h
  | ok program =>
    rw [submit_of_parse_ok depth text hparse] at h
    have hleaves := runText_extends depth text f m
    unfold protect at h
    cases hrun : runText depth text f m with
    | error e' m' =>
      rw [hrun] at h hleaves
      cases h
      exact ⟨m', rfl, .of_extends hf hleaves, hleaves⟩
    | result v m' => rw [hrun] at h; cases h
    | outOfFuel => rw [hrun] at h; cases h

/-- A submitted input is a unit. If its text cannot be read, nothing happens. If
the run of its text succeeds, that is all that happens. If the run fails, the
frame of the input is put back as it was, and all else is left as the failed run
left it; so nothing has changed for a frame that has no other around it. -/
theorem submit_is_atomic (hf : f < m.store.frames.size) :
    (∀ e, parse text = .error e → submit depth text f m = .error (.read e) m) ∧
    ∀ program, parse text = .ok program →
      (∀ v m', runText depth text f m = .result v m' → submit depth text f m = .result v m') ∧
      (runText depth text f m = .outOfFuel → submit depth text f m = .outOfFuel) ∧
      ∀ e m', runText depth text f m = .error e m' →
        ∃ m'', submit depth text f m = .error e m'' ∧ RolledBack f m m' m'' ∧
          (m.store.outerOf f = none →
            m''.store.visibleNames f = m.store.visibleNames f ∧
            ∀ name, m''.store.lookup f name = m.store.lookup f name) := by
  refine ⟨fun e he => submit_of_parse_error depth text he f m, fun program hprogram => ?_⟩
  rw [submit_of_parse_ok depth text hprogram]
  unfold protect
  refine ⟨fun v m' hrun => by rw [hrun], fun hrun => by rw [hrun], fun e m' hrun => ?_⟩
  rw [hrun]
  have hleaves := runText_extends depth text f m
  rw [hrun] at hleaves
  have hback := RolledBack.of_extends hf hleaves
  refine ⟨_, rfl, hback, fun hroot => ?_⟩
  have hscopes := hback.scopes_eq hroot
  exact ⟨Store.visibleNames_congr hscopes, Store.lookup_congr hscopes⟩

/-- The definition is undone because the input fails after it. -/
theorem submit_undoes_definition :
    ∃ m'', submit 3 "(define y 2) (car null)" 0 (start (.ofLines [])) =
        .error (.eval (.emptyList .car)) m'' ∧
      m''.store.visibleNames 0 = [] ∧
      ∀ name, m''.store.lookup 0 name = .error (.unbound name) := by
  have hf : 0 < (start (.ofLines [])).store.frames.size := by decide
  obtain ⟨program, hprogram⟩ : ∃ program, parse "(define y 2) (car null)" = .ok program := by
    have hok : (parse "(define y 2) (car null)").isOk = true := by decide +kernel
    cases hparse : parse "(define y 2) (car null)" with
    | ok program => exact ⟨program, rfl⟩
    | error e => rw [hparse] at hok; cases hok
  obtain ⟨m', hrun⟩ := Outcome.exists_of_error?
    (show (runText 3 "(define y 2) (car null)" 0 (start (.ofLines []))).error? =
      some (.eval (.emptyList .car)) by decide +kernel)
  obtain ⟨m'', hsubmit, -, hroot⟩ :=
    ((submit_is_atomic 3 "(define y 2) (car null)" hf).2 program hprogram).2.2 _ m' hrun
  obtain ⟨hnames, hlookup⟩ := hroot rfl
  exact ⟨m'', hsubmit, hnames, hlookup⟩

end Session
end LexicalLisp
