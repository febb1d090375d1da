import LexicalLisp.Proofs.Evaluation.WellFormed

/-!
# Chains of frames

In a well-formed store each frame stands inside an older one, so that the chain
outward from a frame is that frame followed by the chain of the frame around it.
A chain that goes through some frame ends with the whole chain of that frame.

What happens to a store later does not change the chains of the frames there are.
-/

namespace LexicalLisp

namespace Store

variable {s s' t : Store} {f g k : FrameId} {x name : String} {v : Value}

theorem lookup_eq_ok_iff : s.lookup f x = .ok v ↔
    ((s.chain f).findSome? fun g => (s.bindingsOf g).lookup x) = some v := by
  unfold lookup
  cases (s.chain f).findSome? fun g => (s.bindingsOf g).lookup x with
  | none => simp
  | some w => simp

theorem mem_chain_self (s : Store) (f : FrameId) : f ∈ s.chain f := by
  unfold chain chainFrom
  exact List.mem_cons_self

theorem lt_size_of_lookup_eq_ok (h : s.lookup f x = .ok v) : f < s.frames.size := by
  apply Nat.lt_of_not_le
  intro hle
  have hchain : s.chain f = [f] := by simp [chain, chainFrom, s.outerOf_of_size_le f hle]
  obtain ⟨g, hg, hv⟩ := exists_of_lookup h
  rw [hchain, List.mem_singleton] at hg
  rw [hg, s.bindingsOf_of_size_le f hle] at hv
  cases hv

theorem chain_congr (h : ∀ g, s.outerOf g = t.outerOf g) (f : FrameId) : s.chain f = t.chain f := by
  have hfrom : ∀ n f, s.chainFrom n f = t.chainFrom n f := by
    intro n
    induction n with
    | zero => exact fun _ => rfl
    | succ n ih =>
      intro f
      unfold chainFrom
      rw [h f]
      cases t.outerOf f with
      | none => rfl
      | some g => simp [ih g]
  exact hfrom _ f

theorem lookup_bind_of_ne (s : Store) (f g : FrameId) (v : Value) (h : x ≠ name) :
    (s.bind g name v).lookup f x = s.lookup f x := by
  have hchain : (s.bind g name v).chain f = s.chain f := chain_congr (by simp) f
  apply lookup_eq_of_chain hchain
  intro h' _
  exact lookup_bindingsOf_bind_of_ne s g h' name v h

theorem lookup_makeClosure (s : Store) (params : List String) (body : Expr) (f g : FrameId)
    (x : String) : (s.makeClosure params body g).2.lookup f x = s.lookup f x := by
  have houter : ∀ h, (s.makeClosure params body g).2.outerOf h = s.outerOf h := fun _ => rfl
  exact lookup_eq_of_chain (chain_congr houter f) fun _ _ => rfl

namespace WellFormed

variable (hs : s.WellFormed)
include hs

/-- Any bound that the frame stays below is as good as another. -/
theorem chainFrom_eq_chain {n : Nat} (hf : f < n) : s.chainFrom n f = s.chain f := by
  induction n using Nat.strongRecOn generalizing f with
  | ind n ih =>
    obtain ⟨n, rfl⟩ := Nat.exists_eq_add_of_lt hf
    unfold chain chainFrom
    cases houter : s.outerOf f with
    | none => rfl
    | some g =>
      have hg : g < f := hs.outer_lt f g houter
      have hleft := ih (f + n) (by omega) (Nat.lt_add_right n hg)
      have hright := ih f (by omega) hg
      simp [hleft, hright]

theorem chain_of_outer (h : s.outerOf f = some g) : s.chain f = f :: s.chain g := by
  have hg : g < f := hs.outer_lt f g h
  rw [chain, chainFrom, h]
  simp [hs.chainFrom_eq_chain hg]

theorem le_of_mem_chain (h : k ∈ s.chain f) : k ≤ f := by
  induction f using Nat.strongRecOn with
  | ind f ih =>
    cases houter : s.outerOf f with
    | none =>
      have hchain : s.chain f = [f] := by simp [chain, chainFrom, houter]
      rw [hchain] at h
      exact Nat.le_of_eq (List.mem_singleton.mp h)
    | some g =>
      have hg : g < f := hs.outer_lt f g houter
      rw [hs.chain_of_outer houter] at h
      rcases List.mem_cons.mp h with rfl | h
      · exact Nat.le_refl _
      · exact Nat.le_trans (ih g hg h) (Nat.le_of_lt hg)

theorem exists_append_chain (h : k ∈ s.chain f) :
    ∃ inner, s.chain f = inner ++ s.chain k ∧ k ∉ inner := by
  induction f using Nat.strongRecOn with
  | ind f ih =>
    by_cases hkf : k = f
    · exact ⟨[], by simp [hkf], by simp⟩
    · cases houter : s.outerOf f with
      | none =>
        have hchain : s.chain f = [f] := by simp [chain, chainFrom, houter]
        rw [hchain] at h
        exact absurd (List.mem_singleton.mp h) hkf
      | some g =>
        rw [hs.chain_of_outer houter] at h ⊢
        have hmem : k ∈ s.chain g := (List.mem_cons.mp h).resolve_left hkf
        obtain ⟨inner, hchain, hinner⟩ := ih g (hs.outer_lt f g houter) hmem
        exact ⟨f :: inner, by simp [hchain], by simp [hkf, hinner]⟩

theorem chainFrom_eq_of_extends {closed : FrameId → Prop} (h : s.Extends closed s') (n : Nat)
    (hf : f < s.frames.size) : s'.chainFrom n f = s.chainFrom n f := by
  induction n generalizing f with
  | zero => rfl
  | succ n ih =>
    unfold chainFrom
    rw [h.outerOf_eq f hf]
    cases houter : s.outerOf f with
    | none => rfl
    | some g =>
      have hg : g < s.frames.size := Nat.lt_trans (hs.outer_lt f g houter) hf
      simp [ih hg]

theorem chain_eq_of_extends {closed : FrameId → Prop} (h : s.Extends closed s')
    (hf : f < s.frames.size) : s'.chain f = s.chain f := hs.chainFrom_eq_of_extends h _ hf

theorem chain_push (hf : f < s.frames.size) (b : Bindings) :
    (s.push (some f) b).2.chain s.frames.size = s.frames.size :: s.chain f := by
  have hext : s.Grows (s.push (some f) b).2 := .push s (some f) b
  rw [chain, chainFrom, outerOf_push, if_pos rfl]
  simp [hs.chainFrom_eq_of_extends hext _ hf, hs.chainFrom_eq_chain hf]

theorem lookup_push (hf : f < s.frames.size) (outer : Option FrameId) (b : Bindings) (x : String) :
    (s.push outer b).2.lookup f x = s.lookup f x := by
  have hext : s.Grows (s.push outer b).2 := .push s outer b
  have hchain := hs.chain_eq_of_extends hext hf
  apply lookup_eq_of_chain hchain
  intro g hg
  rw [hchain] at hg
  have hlt : g < s.frames.size := Nat.lt_of_le_of_lt (hs.le_of_mem_chain hg) hf
  rw [bindingsOf_push, if_neg (Nat.ne_of_lt hlt)]

end WellFormed

end Store
end LexicalLisp
