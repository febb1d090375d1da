import LexicalLisp.Proofs.Evaluation.FrameEffect

/-!
# Stores without dangling links

In every store that a program can reach, a frame stands inside an older one, and
a closure that is bound anywhere was made in a frame that exists and has a
number that has been given out.
-/

namespace LexicalLisp

/-- The frame of the closure exists, and its number has been given out. -/
def Store.Knows (s : Store) (c : Closure) : Prop :=
  c.frame < s.frames.size ∧ c.id < s.closureCount

structure Store.WellFormed (s : Store) : Prop where
  outer_lt : ∀ f g, s.outerOf f = some g → g < f
  knows_held : ∀ c, s.Holds c → s.Knows c

namespace Store

variable {s s' : Store} {closed : FrameId → Prop}

theorem Knows.mono (h : s.Extends closed s') {c : Closure} (hc : s.Knows c) : s'.Knows c :=
  ⟨Nat.lt_of_lt_of_le hc.1 h.size_le, Nat.lt_of_lt_of_le hc.2 h.closureCount_le⟩

namespace WellFormed

variable {f : FrameId}

theorem setBindings (h : s.WellFormed) {b : Bindings}
    (hb : ∀ name v, b.lookup name = some v → ∀ c ∈ v.closures, s.Knows c) :
    (s.setBindings f b).WellFormed where
  outer_lt g k hk := h.outer_lt g k (by rwa [outerOf_setBindings] at hk)
  knows_held c hc := by
    unfold Knows
    rw [size_setBindings, closureCount_setBindings]
    rcases holds_of_holds_setBindings hc with hold | ⟨name, v, hv, hnew⟩
    · exact h.knows_held c hold
    · exact hb name v hv c hnew

theorem bind (h : s.WellFormed) (name : String) {v : Value} (hv : ∀ c ∈ v.closures, s.Knows c) :
    (s.bind f name v).WellFormed := by
  refine h.setBindings fun other w hw c hc => ?_
  rw [Bindings.lookup_put] at hw
  split at hw
  · cases hw
    exact hv c hc
  · exact h.knows_held c ⟨f, other, w, hw, hc⟩

theorem push_inside (h : s.WellFormed) {outer : Option FrameId}
    (houter : ∀ f, outer = some f → f < s.frames.size) {b : Bindings}
    (hb : ∀ name v, b.lookup name = some v → ∀ c ∈ v.closures, s.Knows c) :
    (s.push outer b).2.WellFormed where
  outer_lt g k hk := by
    rw [outerOf_push] at hk
    split at hk
    · rename_i hg
      rw [hg]
      exact houter k hk
    · exact h.outer_lt g k hk
  knows_held c hc := by
    have hle : s.Grows (s.push outer b).2 := .push s outer b
    rcases holds_of_holds_push hc with hold | ⟨name, v, hv, hnew⟩
    · exact (h.knows_held c hold).mono hle
    · exact (hb name v hv c hnew).mono hle

theorem push (h : s.WellFormed) (hf : f < s.frames.size) {b : Bindings}
    (hb : ∀ name v, b.lookup name = some v → ∀ c ∈ v.closures, s.Knows c) :
    (s.push (some f) b).2.WellFormed := by
  refine h.push_inside (fun g hg => ?_) hb
  cases hg
  exact hf

theorem makeClosure (h : s.WellFormed) (params : List String) (body : Expr) (f : FrameId) :
    (s.makeClosure params body f).2.WellFormed where
  outer_lt := h.outer_lt
  knows_held c hc := by
    have hle : s.Grows (s.makeClosure params body f).2 := .makeClosure s params body f
    exact (h.knows_held c hc).mono hle

end WellFormed

end Store

open Store

/-- Worlds are stores, and the closures around are those that the store knows. -/
def wellFormed : Invariant where
  World := Store
  le := Grows
  holds w s := s = w ∧ s.WellFormed
  closures := Knows
  tolerates _ := True
  le_refl := Grows.refl
  le_trans := Grows.trans
  closures_mono h _ := Knows.mono h
  tolerates_local _ := trivial

namespace wellFormed

theorem bind_acts {s : Store} (hs : s.WellFormed) (f : FrameId) (name : String) {v : Value}
    (hv : ∀ c ∈ v.closures, s.Knows c) :
    wellFormed.Acts s wellFormed.NoResult (.ok (), s.bind f name v) :=
  ⟨_, Grows.bind s f name v, ⟨rfl, hs.bind name hv⟩, trivial⟩

theorem unchanged {α : Type} {P : Store → α → Prop} {s : Store} (hs : s.WellFormed)
    {r : Except NameError α} (hP : ∀ a, r = .ok a → P s a) : wellFormed.Acts s P (r, s) :=
  Invariant.acts_of_holds ⟨rfl, hs⟩ hP fun _ _ => trivial

theorem push_acts {s : Store} (hs : s.WellFormed) {f : FrameId} (hf : f < s.frames.size)
    {b? : Except NameError Bindings}
    (hb : ∀ b, b? = .ok b → ∀ name v, b.lookup name = some v → ∀ c ∈ v.closures, s.Knows c) :
    wellFormed.Acts s (fun w f => f < w.frames.size) (s.pushResult (some f) b?) := by
  cases b? with
  | error e => exact unchanged hs fun _ h => nomatch h
  | ok b =>
    have hlast : s.frames.size < (s.push (some f) b).2.frames.size := by simp
    exact ⟨_, Grows.push s (some f) b, ⟨rfl, hs.push hf (hb b rfl)⟩, hlast⟩

theorem sound : wellFormed.Sound (fun w f => f < w.frames.size) (fun _ => True) where
  frames_mono h _ hf := Nat.lt_of_lt_of_le hf h.size_le
  parts _ _ _ := trivial
  body _ := trivial
  lookup := by
    intro _ s f name h _ _ _
    obtain ⟨rfl, hs⟩ := h
    exact unchanged hs fun v hv c hc => hs.knows_held c (holds_of_lookup hv hc)
  define := by
    intro _ s f name e v h _ _ hv
    obtain ⟨rfl, hs⟩ := h
    unfold Store.define
    split
    · exact unchanged hs fun _ _ => trivial
    · exact bind_acts hs f name hv
  assign := by
    intro _ s f name e v h _ _ hv
    obtain ⟨rfl, hs⟩ := h
    unfold Store.assign
    split
    · exact bind_acts hs _ name hv
    · exact unchanged hs fun _ _ => trivial
  openLet := by
    intro _ s f ps h hf hps
    obtain ⟨rfl, hs⟩ := h
    exact push_acts hs hf fun b hb name v hv => closures_of_extend hps hb hv
  openCall := by
    intro _ s c self? vs h hc hvs _
    obtain ⟨rfl, hs⟩ := h
    rw [pushCall_eq]
    exact push_acts hs hc.1 fun b hb name v hv => closures_of_callBindings hc hvs hb hv
  makeClosure := by
    intro _ s f params body h hf _ _
    obtain ⟨rfl, hs⟩ := h
    exact ⟨_, Grows.makeClosure s params body f, ⟨rfl, hs.makeClosure params body f⟩, hf,
      Nat.lt_succ_self _⟩
  refused _ := trivial
  endOfInput := trivial

end wellFormed

theorem Session.not_holds_start (terminal : Terminal) (c : Closure) :
    ¬(start terminal).store.Holds c := by
  intro h
  rcases holds_of_holds_push h with ⟨f, name, v, hv, -⟩ | ⟨name, v, hv, -⟩
  · rw [Store.empty.bindingsOf_of_size_le f (Nat.zero_le f)] at hv
    cases hv
  · cases hv

theorem Session.start_wellFormed (terminal : Terminal) : (start terminal).store.WellFormed where
  outer_lt f g h := by
    have houter : (start terminal).store.outerOf f = none := by
      refine (Store.empty.outerOf_push f none []).trans ?_
      split
      · rfl
      · exact Store.empty.outerOf_of_size_le f (Nat.zero_le f)
    rw [houter] at h
    cases h
  knows_held c h := absurd h (not_holds_start terminal c)

theorem Session.run_keeps_wellFormed (n : Nat) (program : List Expr) {f : FrameId} {m : Machine}
    (hm : m.store.WellFormed) (hf : f < m.store.frames.size) :
    (run n program f m).Leaves fun m' => m'.store.WellFormed := by
  have hprogram : ∀ e ∈ program, True := fun _ _ => trivial
  have hends := wellFormed.sound.run_keeps n hf hprogram ⟨rfl, hm⟩
  refine hends.leaves.imp ?_
  intro m' h
  obtain ⟨_, -, rfl, hm'⟩ := h
  exact hm'

end LexicalLisp
