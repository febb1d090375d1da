import LexicalLisp.Proofs.Store.Chain

/-!
# Stores that differ in the name of a call

The frame of a call that names its closure binds that name to the closure, and the
frame of the same call with another head does not. Two stores that differ in this
one binding are alike for every name and frame that does not come to it. A search
for the name that does come to it finds the closure in the one store at once, and
in the other as well if that is what the name means around the frame of the call.
-/

namespace LexicalLisp

namespace Store

/-- The stores are the same, except that in the first one frame `k`, which belongs to a call
of `c`, also binds the name to `c`. -/
structure SelfBound (k : FrameId) (name : String) (c : Closure) (s t : Store) : Prop where
  size_eq : s.frames.size = t.frames.size
  closureCount_eq : s.closureCount = t.closureCount
  outerOf_eq : ∀ g, s.outerOf g = t.outerOf g
  outerOf_call : s.outerOf k = some c.frame
  others_eq : ∀ g, g ≠ k → s.bindingsOf g = t.bindingsOf g
  lookup_eq : ∀ x, x ≠ name → (s.bindingsOf k).lookup x = (t.bindingsOf k).lookup x
  bound : (s.bindingsOf k).lookup name = some (.closure c)
  unbound : (t.bindingsOf k).lookup name = none

namespace SelfBound

variable {k : FrameId} {name : String} {c : Closure} {s t : Store} {f g : FrameId} {x : String}

theorem of_push (s : Store) {b : Bindings} (hb : b.lookup name = none) :
    SelfBound s.frames.size name c (s.push (some c.frame) (b.put name (.closure c))).2
      (s.push (some c.frame) b).2 where
  size_eq := by simp
  closureCount_eq := by simp
  outerOf_eq g := by rw [outerOf_push, outerOf_push]
  outerOf_call := by rw [outerOf_push, if_pos rfl]
  others_eq g hg := by rw [bindingsOf_push, bindingsOf_push, if_neg hg, if_neg hg]
  lookup_eq x hx := by
    rw [bindingsOf_push, bindingsOf_push, if_pos rfl, if_pos rfl, Bindings.lookup_put, if_neg hx]
  bound := by
    rw [bindingsOf_push, if_pos rfl, Bindings.lookup_put, if_pos rfl]
  unbound := by
    rw [bindingsOf_push, if_pos rfl, hb]

variable (h : SelfBound k name c s t)
include h

theorem lt_size : k < s.frames.size := s.lt_size_of_lookup k h.bound

theorem chain_eq (f : FrameId) : s.chain f = t.chain f := chain_congr h.outerOf_eq f

theorem lookup_bindingsOf_eq (hx : g = k → x ≠ name) :
    (s.bindingsOf g).lookup x = (t.bindingsOf g).lookup x := by
  by_cases hg : g = k
  · rw [hg]
    exact h.lookup_eq x (hx hg)
  · rw [h.others_eq g hg]

theorem binds_eq (hx : g = k → x ≠ name) :
    (s.bindingsOf g).binds x = (t.bindingsOf g).binds x := by
  unfold Bindings.binds
  rw [h.lookup_bindingsOf_eq hx]

theorem lookup_frame_eq (hx : k ∈ s.chain f → x ≠ name) : s.lookup f x = t.lookup f x := by
  apply lookup_eq_of_chain (h.chain_eq f)
  intro g hg
  apply h.lookup_bindingsOf_eq
  rintro rfl
  exact hx hg

theorem nearest_eq (hx : k ∈ s.chain f → x ≠ name) : s.nearest? f x = t.nearest? f x := by
  apply nearest_eq_of_chain (h.chain_eq f)
  intro g hg
  apply h.lookup_bindingsOf_eq
  rintro rfl
  exact hx hg

/-- A search that comes to frame `k` finds the closure on both sides, if that is what the name
means around it. The frames before `k` are the same. -/
theorem lookup_name_eq (hs : s.WellFormed) (houter : s.lookup c.frame name = .ok (.closure c))
    (hk : k ∈ s.chain f) : s.lookup f name = t.lookup f name := by
  obtain ⟨inner, hchain, hinner⟩ := hs.exists_append_chain hk
  have hsplit : s.chain f = inner ++ k :: s.chain c.frame := by
    rw [hchain, hs.chain_of_outer h.outerOf_call]
  have hbefore : (inner.findSome? fun g => (s.bindingsOf g).lookup name) =
      inner.findSome? fun g => (t.bindingsOf g).lookup name := by
    apply findSome_congr
    intro g hg
    have hne : g ≠ k := fun heq => hinner (heq ▸ hg)
    rw [h.others_eq g hne]
  have hnotmem : k ∉ s.chain c.frame := by
    intro hmem
    have hle : k ≤ c.frame := hs.le_of_mem_chain hmem
    exact Nat.not_lt.mpr hle (hs.outer_lt k c.frame h.outerOf_call)
  have hafter : ((s.chain c.frame).findSome? fun g => (t.bindingsOf g).lookup name) =
      some (.closure c) := by
    rw [← lookup_eq_ok_iff.mp houter]
    apply findSome_congr
    intro g hg
    have hne : g ≠ k := fun heq => hnotmem (heq ▸ hg)
    rw [h.others_eq g hne]
  unfold lookup
  rw [← h.chain_eq f, hsplit, List.findSome?_append, List.findSome?_append, hbefore]
  simp [h.bound, h.unbound, hafter]

theorem bind (hx : g = k → x ≠ name) (v : Value) :
    SelfBound k name c (s.bind g x v) (t.bind g x v) where
  size_eq := by simp [h.size_eq]
  closureCount_eq := by simp [h.closureCount_eq]
  outerOf_eq g' := by simp [h.outerOf_eq g']
  outerOf_call := by simp [h.outerOf_call]
  others_eq g' hg' := by
    rw [bindingsOf_bind, bindingsOf_bind, h.size_eq, h.others_eq g' hg']
    split
    · rename_i hand
      rw [h.others_eq g (hand.1 ▸ hg')]
    · rfl
  lookup_eq y hy := by
    rw [bindingsOf_bind, bindingsOf_bind, h.size_eq]
    split
    · rename_i hand
      rw [Bindings.lookup_put, Bindings.lookup_put, ← hand.1, h.lookup_eq y hy]
    · exact h.lookup_eq y hy
  bound := by
    by_cases hg : g = k
    · rw [lookup_bindingsOf_bind_of_ne s g k x v (hx hg).symm]
      exact h.bound
    · rw [bindingsOf_bind, if_neg fun hand => hg hand.1.symm]
      exact h.bound
  unbound := by
    by_cases hg : g = k
    · rw [lookup_bindingsOf_bind_of_ne t g k x v (hx hg).symm]
      exact h.unbound
    · rw [bindingsOf_bind, if_neg fun hand => hg hand.1.symm]
      exact h.unbound

theorem push (outer : Option FrameId) (b : Bindings) :
    SelfBound k name c (s.push outer b).2 (t.push outer b).2 := by
  have hs : k ≠ s.frames.size := Nat.ne_of_lt h.lt_size
  have ht : k ≠ t.frames.size := by rwa [← h.size_eq]
  refine ⟨by simp [h.size_eq], by simp [h.closureCount_eq], fun g => ?_, ?_, fun g hg => ?_,
    fun x hx => ?_, ?_, ?_⟩
  · rw [outerOf_push, outerOf_push, h.size_eq, h.outerOf_eq g]
  · rw [outerOf_push, if_neg hs]
    exact h.outerOf_call
  · rw [bindingsOf_push, bindingsOf_push, h.size_eq, h.others_eq g hg]
  · rw [bindingsOf_push, bindingsOf_push, if_neg hs, if_neg ht]
    exact h.lookup_eq x hx
  · rw [bindingsOf_push, if_neg hs]
    exact h.bound
  · rw [bindingsOf_push, if_neg ht]
    exact h.unbound

theorem makeClosure (params : List String) (body : Expr) (f : FrameId) :
    SelfBound k name c (s.makeClosure params body f).2 (t.makeClosure params body f).2 where
  size_eq := h.size_eq
  closureCount_eq := congrArg (· + 1) h.closureCount_eq
  outerOf_eq := h.outerOf_eq
  outerOf_call := h.outerOf_call
  others_eq := h.others_eq
  lookup_eq := h.lookup_eq
  bound := h.bound
  unbound := h.unbound

end SelfBound

end Store
end LexicalLisp
