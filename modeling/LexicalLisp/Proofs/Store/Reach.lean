import LexicalLisp.Proofs.Store.Frames

/-!
# Reachable frames

Code that runs in a frame can get at the frames around it and at the frames in
which the closures bound there were made, and from these at further ones. A set
of frames that both steps stay in holds everything that such code can get at.

Stores that agree on such a set cannot be told apart from inside of it: a search
for a name goes through the same frames in both, and finds the same.
-/

namespace LexicalLisp

namespace Store

/-- From a frame one gets to the frames around it, and to those in which the closures
that are bound there, by themselves or inside of lists, were made. -/
inductive Reaches (s : Store) (f : FrameId) : FrameId → Prop
  | here : Reaches s f f
  | outward {g h : FrameId} : Reaches s f g → s.outerOf g = some h → Reaches s f h
  | captured {g : FrameId} {name : String} {v : Value} {c : Closure} : Reaches s f g →
    (s.bindingsOf g).lookup name = some v → c ∈ v.closures → Reaches s f c.frame

/-- Nothing outside of the set is reachable from inside. -/
structure Closed (s : Store) (R : FrameId → Prop) : Prop where
  outward : ∀ {g h}, R g → s.outerOf g = some h → R h
  captured : ∀ {g name v}, R g → (s.bindingsOf g).lookup name = some v → ∀ c ∈ v.closures, R c.frame

/-- The same frames and closure numbers have been given out, and each frame of the set
stands in the same frame and binds the same names to the same values. -/
structure AgreesOn (R : FrameId → Prop) (s t : Store) : Prop where
  size_eq : s.frames.size = t.frames.size
  closureCount_eq : s.closureCount = t.closureCount
  outerOf_eq : ∀ {g}, R g → s.outerOf g = t.outerOf g
  lookup_eq : ∀ {g}, R g → ∀ name, (s.bindingsOf g).lookup name = (t.bindingsOf g).lookup name

variable {s t : Store} {R R' : FrameId → Prop} {f g : FrameId} {name : String} {v : Value}

theorem closed_reaches (s : Store) (f : FrameId) : s.Closed (s.Reaches f) where
  outward hg houter := hg.outward houter
  captured hg hv _ hc := hg.captured hv hc

namespace Closed

variable (hR : s.Closed R)
include hR

theorem of_reaches (hf : R f) (h : s.Reaches f g) : R g := by
  induction h with
  | here => exact hf
  | outward _ houter ih => exact hR.outward ih houter
  | captured _ hv hc ih => exact hR.captured ih hv _ hc

theorem of_mem_chainFrom {n : Nat} (hf : R f) (hg : g ∈ s.chainFrom n f) : R g := by
  induction n generalizing f with
  | zero => cases hg
  | succ n ih =>
    unfold chainFrom at hg
    rcases List.mem_cons.mp hg with rfl | hg
    · exact hf
    · cases houter : s.outerOf f with
      | none => simp [houter] at hg
      | some h =>
        rw [houter] at hg
        exact ih (hR.outward hf houter) hg

theorem of_mem_chain (hf : R f) (hg : g ∈ s.chain f) : R g := hR.of_mem_chainFrom hf hg

theorem of_nearest (hf : R f) (h : s.nearest? f name = some g) : R g :=
  hR.of_mem_chain hf (List.mem_of_find?_eq_some h)

theorem of_lookup (hf : R f) (h : s.lookup f name = .ok v) : ∀ c ∈ v.closures, R c.frame := by
  obtain ⟨g, hg, hv⟩ := exists_of_lookup h
  exact hR.captured (hR.of_mem_chain hf hg) hv

theorem bind (name : String) (hv : ∀ c ∈ v.closures, R c.frame) :
    (s.bind f name v).Closed R where
  outward hg houter := by
    rw [outerOf_bind] at houter
    exact hR.outward hg houter
  captured {g other w} hg hw := by
    rw [bindingsOf_bind] at hw
    split at hw
    · rename_i hgf
      rw [Bindings.lookup_put] at hw
      split at hw
      · cases hw
        exact hv
      · exact hR.captured (hgf.1 ▸ hg) hw
    · exact hR.captured hg hw

theorem push (hf : R f) {b : Bindings} (hR' : ∀ g, R' g ↔ R g ∨ g = s.frames.size)
    (hb : ∀ name v, b.lookup name = some v → ∀ c ∈ v.closures, R c.frame) :
    (s.push (some f) b).2.Closed R' where
  outward {g h} hg houter := by
    rw [outerOf_push] at houter
    split at houter
    · cases houter
      exact (hR' f).mpr (.inl hf)
    · have hold : R g := ((hR' g).mp hg).resolve_right ‹_›
      exact (hR' h).mpr (.inl (hR.outward hold houter))
  captured {g name v} hg hv c hc := by
    rw [bindingsOf_push] at hv
    split at hv
    · exact (hR' _).mpr (.inl (hb name v hv c hc))
    · have hold : R g := ((hR' g).mp hg).resolve_right ‹_›
      exact (hR' _).mpr (.inl (hR.captured hold hv c hc))

end Closed

theorem AgreesOn.refl (R : FrameId → Prop) (s : Store) : AgreesOn R s s :=
  ⟨rfl, rfl, fun _ => rfl, fun _ _ => rfl⟩

namespace AgreesOn

variable (h : AgreesOn R s t)
include h

theorem binds_eq (hg : R g) (name : String) :
    (s.bindingsOf g).binds name = (t.bindingsOf g).binds name := by
  unfold Bindings.binds
  rw [h.lookup_eq hg]

theorem chainFrom_eq (hR : s.Closed R) (n : Nat) (hf : R f) :
    s.chainFrom n f = t.chainFrom n f := by
  induction n generalizing f with
  | zero => rfl
  | succ n ih =>
    unfold chainFrom
    rw [← h.outerOf_eq hf]
    cases houter : s.outerOf f with
    | none => rfl
    | some g => simp [ih (hR.outward hf houter)]

theorem chain_eq (hR : s.Closed R) (hf : R f) : s.chain f = t.chain f := h.chainFrom_eq hR _ hf

theorem lookup_frame_eq (hR : s.Closed R) (hf : R f) (name : String) :
    s.lookup f name = t.lookup f name := by
  apply lookup_eq_of_chain (h.chain_eq hR hf)
  intro g hg
  exact h.lookup_eq (hR.of_mem_chain hf hg) name

theorem nearest_eq (hR : s.Closed R) (hf : R f) (name : String) :
    s.nearest? f name = t.nearest? f name := by
  apply nearest_eq_of_chain (h.chain_eq hR hf)
  intro g hg
  exact h.lookup_eq (hR.of_mem_chain hf hg) name

theorem mono (hR : ∀ g, R' g → R g) : AgreesOn R' s t where
  size_eq := h.size_eq
  closureCount_eq := h.closureCount_eq
  outerOf_eq hg := h.outerOf_eq (hR _ hg)
  lookup_eq hg := h.lookup_eq (hR _ hg)

theorem bind (f : FrameId) (name : String) (v : Value) :
    AgreesOn R (s.bind f name v) (t.bind f name v) where
  size_eq := by simp [h.size_eq]
  closureCount_eq := by simp [h.closureCount_eq]
  outerOf_eq hg := by simp [h.outerOf_eq hg]
  lookup_eq {g} hg other := by
    rw [bindingsOf_bind, bindingsOf_bind, h.size_eq]
    split
    · rename_i hgf
      rw [Bindings.lookup_put, Bindings.lookup_put, h.lookup_eq (hgf.1 ▸ hg)]
    · exact h.lookup_eq hg other

theorem push (outer : Option FrameId) (b : Bindings)
    (hR' : ∀ g, R' g → R g ∨ g = s.frames.size) :
    AgreesOn R' (s.push outer b).2 (t.push outer b).2 where
  size_eq := by simp [h.size_eq]
  closureCount_eq := by simp [h.closureCount_eq]
  outerOf_eq {g} hg := by
    rw [outerOf_push, outerOf_push, ← h.size_eq]
    split
    · rfl
    · exact h.outerOf_eq ((hR' g hg).resolve_right ‹_›)
  lookup_eq {g} hg name := by
    rw [bindingsOf_push, bindingsOf_push, ← h.size_eq]
    split
    · rfl
    · exact h.lookup_eq ((hR' g hg).resolve_right ‹_›) name

theorem makeClosure (params : List String) (body : Expr) (f : FrameId) :
    AgreesOn R (s.makeClosure params body f).2 (t.makeClosure params body f).2 where
  size_eq := h.size_eq
  closureCount_eq := congrArg (· + 1) h.closureCount_eq
  outerOf_eq := h.outerOf_eq
  lookup_eq := h.lookup_eq

end AgreesOn

end Store
end LexicalLisp
