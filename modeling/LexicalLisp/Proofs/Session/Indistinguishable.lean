import LexicalLisp.Proofs.Evaluation.Renaming
import LexicalLisp.Proofs.Evaluation.WellFormed
import LexicalLisp.Proofs.Session.Rollback

/-!
# What a failed input leaves behind

A failed input may leave frames that nothing refers to, and it has used up
numbers of closures. Later inputs cannot notice: on the store it leaves they do
what they do on the store before it, up to a renaming, as long as the failed run
has changed no other frame.
-/

namespace LexicalLisp

namespace Renaming

/-- Two runs have ended alike, up to a renaming that extends the given one: with
matching values, which print the same, or with the same error; with the same
terminal, so with the same output written and the same input taken; and with
stores that match. -/
inductive Alike (ρ : Renaming) : Outcome RunError Value → Outcome RunError Value → Prop
  | result {σ : Renaming} {v w : Value} {s t : Store} {terminal : Terminal} :
    ρ.Within σ → σ.Stores s t → σ.Values v w → v.text = w.text →
    Alike ρ (.result v ⟨s, terminal⟩) (.result w ⟨t, terminal⟩)
  | error {σ : Renaming} {e : RunError} {s t : Store} {terminal : Terminal} :
    ρ.Within σ → σ.Stores s t → Alike ρ (.error e ⟨s, terminal⟩) (.error e ⟨t, terminal⟩)
  | outOfFuel : Alike ρ .outOfFuel .outOfFuel

/-- Each frame and each closure number of a store matches itself. -/
def existing (s : Store) : Renaming where
  frames f g := f = g ∧ f < s.frames.size
  closures i j := i = j ∧ i < s.closureCount
  frames_unique := by
    rintro f _ f' _ ⟨rfl, -⟩ ⟨rfl, -⟩
    rfl
  closures_unique := by
    rintro i _ i' _ ⟨rfl, -⟩ ⟨rfl, -⟩
    rfl

/-- Frames that were added later do not matter to the frames there were. -/
theorem existing_stores {s s' : Store} {closed : FrameId → Prop} (hs : s.WellFormed)
    (hext : s.Extends closed s')
    (hsame : ∀ g, g < s.frames.size → ∀ name,
      (s'.bindingsOf g).lookup name = (s.bindingsOf g).lookup name) :
    (existing s).Stores s' s where
  frames := by
    intro f _ h
    obtain ⟨rfl, hf⟩ := h
    refine ⟨Nat.lt_of_lt_of_le hf hext.size_le, hf, ?_, fun name => ?_⟩
    · rw [hext.outerOf_eq f hf]
      cases houter : s.outerOf f with
      | none => exact .none
      | some g =>
        have hgf := hs.outer_lt f g houter
        exact .some ⟨⟨rfl, Nat.lt_trans hgf hf⟩, hgf, hgf⟩
    · rw [hsame f hf name]
      cases hv : (s.bindingsOf f).lookup name with
      | none => exact .none
      | some v =>
        refine .some (.refl v fun c hc => ?_)
        obtain ⟨hframe, hid⟩ := hs.knows_held c ⟨f, name, v, hv, hc⟩
        exact ⟨⟨rfl, hid⟩, rfl, rfl, rfl, hframe⟩
  closures_lt := by
    intro i _ h
    obtain ⟨rfl, hi⟩ := h
    exact ⟨Nat.lt_of_lt_of_le hi hext.closureCount_le, hi⟩

end Renaming

namespace Session

variable {ρ : Renaming} {s t : Store} {f g : FrameId}

theorem runText_alike (h : ρ.Stores s t) (hfg : ρ.frames f g) (depth : Nat) (text : String)
    (terminal : Terminal) :
    ρ.Alike (runText depth text f ⟨s, terminal⟩) (runText depth text g ⟨t, terminal⟩) := by
  unfold runText runLines
  cases parseLines (Text.lines text) with
  | error e => exact .error (.refl ρ) h
  | ok program =>
    have hprogram : ∀ e ∈ program, True := fun _ _ => trivial
    have hends := Renaming.sound.run_related hfg depth hprogram ρ ⟨s, terminal⟩ ⟨t, terminal⟩
      (.refl ρ) ⟨h, rfl⟩
    simp only [Run.mapError]
    generalize run depth program f _ = o₁, run depth program g _ = o₂ at hends
    cases hends with
    | outOfFuel => exact .outOfFuel
    | @error σ e m₁ m₂ hσ hm _ =>
      obtain ⟨s', terminal'⟩ := m₁
      obtain ⟨t', _⟩ := m₂
      obtain ⟨hst, rfl⟩ := hm
      exact .error hσ hst
    | @result σ v w m₁ m₂ hσ hm hvw =>
      obtain ⟨s', terminal'⟩ := m₁
      obtain ⟨t', _⟩ := m₂
      obtain ⟨hst, rfl⟩ := hm
      exact .result hσ hst hvw (hvw.text_eq fun c d hcd => hcd.params)

theorem protect_alike {x y : Run RunError Value} (h : ρ.Stores s t) (hfg : ρ.frames f g)
    (terminal : Terminal) (hxy : ρ.Alike (x ⟨s, terminal⟩) (y ⟨t, terminal⟩)) :
    ρ.Alike (protect f x ⟨s, terminal⟩) (protect g y ⟨t, terminal⟩) := by
  simp only [protect]
  generalize x _ = o₁, y _ = o₂ at hxy
  cases hxy with
  | outOfFuel => exact .outOfFuel
  | result hσ hst hvw htext => exact .result hσ hst hvw htext
  | error hσ hst =>
    have hbefore := (h.frames f g hfg).bindings.mono hσ
    exact .error hσ (hst.setBindings (hσ.frames f g hfg) hbefore)

theorem submit_alike (h : ρ.Stores s t) (hfg : ρ.frames f g) (depth : Nat) (text : String)
    (terminal : Terminal) :
    ρ.Alike (submit depth text f ⟨s, terminal⟩) (submit depth text g ⟨t, terminal⟩) := by
  cases hparse : parse text with
  | error e =>
    rw [submit_of_parse_error depth text hparse, submit_of_parse_error depth text hparse]
    exact .error (.refl ρ) h
  | ok program =>
    rw [submit_of_parse_ok depth text hparse, submit_of_parse_ok depth text hparse]
    exact protect_alike h hfg terminal (runText_alike h hfg depth text terminal)

theorem submit_keeps_wellFormed (depth : Nat) (text : String) {m : Machine}
    (hm : m.store.WellFormed) (hf : f < m.store.frames.size) :
    (submit depth text f m).Leaves fun m' => m'.store.WellFormed := by
  cases hparse : parse text with
  | error e =>
    rw [submit_of_parse_error depth text hparse]
    exact hm
  | ok program =>
    have hextends := Run.leaves_mapError RunError.eval (run_extends depth program f m)
    have hkeeps := Run.leaves_mapError RunError.eval (run_keeps_wellFormed depth program hm hf)
    unfold submit protect
    rw [hparse]
    simp only
    cases hrun : (run depth program f).mapError RunError.eval m with
    | result v m' => rwa [hrun] at hkeeps
    | outOfFuel => trivial
    | error e m' =>
      rw [hrun] at hkeeps hextends
      refine Store.WellFormed.setBindings hkeeps fun name v hv c hc => ?_
      exact (hm.knows_held c ⟨f, name, v, hv, hc⟩).mono hextends

/-- A failed input leaves no mark. If the frames other than its own are bound as
before, whatever is submitted or run later, on whatever terminal, ends as it would
have ended without the failed input. The store has no dangling links, as is true
of every store to which inputs can lead (`submit_keeps_wellFormed`). -/
theorem failed_input_leaves_no_mark (depth : Nat) (text : String) {m m' : Machine} {e : EvalError}
    (hm : m.store.WellFormed) (hf : f < m.store.frames.size)
    (hfail : submit depth text f m = .error (.eval e) m')
    (hothers : ∀ g, g < m.store.frames.size → g ≠ f → ∀ name,
      (m'.store.bindingsOf g).lookup name = (m.store.bindingsOf g).lookup name) :
    ∀ depth' text' terminal,
      (Renaming.existing m.store).Alike (submit depth' text' f ⟨m'.store, terminal⟩)
        (submit depth' text' f ⟨m.store, terminal⟩) ∧
      (Renaming.existing m.store).Alike (runText depth' text' f ⟨m'.store, terminal⟩)
        (runText depth' text' f ⟨m.store, terminal⟩) := by
  obtain ⟨failed, -, hback, hext⟩ := exists_rolledBack depth text hf hfail
  have hsame : ∀ g, g < m.store.frames.size → ∀ name,
      (m'.store.bindingsOf g).lookup name = (m.store.bindingsOf g).lookup name := by
    intro g hg name
    by_cases hgf : g = f
    · rw [hgf, hback.bindingsOf_eq]
    · exact hothers g hg hgf name
  have hstores := Renaming.existing_stores hm (hback.extends_of_extends hext) hsame
  intro depth' text' terminal
  exact ⟨submit_alike hstores ⟨rfl, hf⟩ depth' text' terminal,
    runText_alike hstores ⟨rfl, hf⟩ depth' text' terminal⟩

theorem failed_input_leaves_no_mark_at_start :
    ∃ m', submit 5 "(define y (lambda () 1)) (let ((x y)) (car null))" 0 (start (.ofLines [])) =
        .error (.eval (.emptyList .car)) m' ∧
      ∀ depth' text' terminal, (Renaming.existing (start (.ofLines [])).store).Alike
        (submit depth' text' 0 ⟨m'.store, terminal⟩)
        (submit depth' text' 0 ⟨(start (.ofLines [])).store, terminal⟩) := by
  obtain ⟨m', hfail⟩ := Outcome.exists_of_error?
    (show (submit 5 "(define y (lambda () 1)) (let ((x y)) (car null))" 0
      (start (.ofLines []))).error? = some (.eval (.emptyList .car)) by decide +kernel)
  have hf : 0 < (start (.ofLines [])).store.frames.size := by decide
  have hothers : ∀ g, g < (start (.ofLines [])).store.frames.size → g ≠ 0 → ∀ name,
      (m'.store.bindingsOf g).lookup name =
        ((start (.ofLines [])).store.bindingsOf g).lookup name :=
    fun g hg hne => absurd (Nat.lt_one_iff.mp hg) hne
  exact ⟨m', hfail, fun depth' text' terminal => (failed_input_leaves_no_mark 5 _
    (start_wellFormed _) hf hfail hothers depth' text' terminal).1⟩

end Session
end LexicalLisp
