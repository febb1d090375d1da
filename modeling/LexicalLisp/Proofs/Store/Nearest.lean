import LexicalLisp.Proofs.Scoping.Visibility
import LexicalLisp.Proofs.Store.Chain

/-!
# What a write shows

To look a name up, to assign it and to list it are searches along the same links: outward from
a frame to the nearest one that binds the name. So a name is listed where it can be looked up,
and that is where it can be assigned. A write to one frame shows in those frames from which the
search comes to that frame, which an assignment finds binding the name and a definition makes
bind it; everywhere else every name means what it meant.
-/

namespace LexicalLisp

namespace Store

/-- A search for the name that begins in the frame `f` comes to the frame `k`: no frame before
it binds the name. -/
inductive Meets (s : Store) (x : String) (k : FrameId) : FrameId → Prop
  | here : Meets s x k k
  | outward {f g : FrameId} : (s.bindingsOf f).binds x = false → s.outerOf f = some g →
    Meets s x k g → Meets s x k f

/-- The nearest frame outward from `f` that binds the name is `k`. -/
def Nearest (s : Store) (x : String) (k f : FrameId) : Prop :=
  s.Meets x k f ∧ (s.bindingsOf k).binds x = true

/-- The stores differ in one slot of one frame, where the second one has the value. -/
structure ChangedAt (k : FrameId) (x : String) (v : Value) (s s' : Store) : Prop where
  size_eq : s'.frames.size = s.frames.size
  closureCount_eq : s'.closureCount = s.closureCount
  outerOf_eq : ∀ g, s'.outerOf g = s.outerOf g
  lookup_eq : ∀ g y, (s'.bindingsOf g).lookup y =
    if g = k ∧ y = x then some v else (s.bindingsOf g).lookup y

/-- In the frames of which `P` holds the name has come to mean the value, and nothing else means
anything else than before. -/
structure Shows (P : FrameId → Prop) (x : String) (v : Value) (s s' : Store) : Prop where
  new : ∀ g, P g → s'.lookup g x = .ok v
  old : ∀ g y, ¬(y = x ∧ P g) → s'.lookup g y = s.lookup g y

variable {s : Store} {f g k : FrameId} {x : String} {v : Value}

theorem lookup_of_bound (h : (s.bindingsOf f).lookup x = some v) : s.lookup f x = .ok v := by
  rw [lookup_eq_ok_iff, chain, chainFrom, List.findSome?_cons, h]

theorem lookup_of_outer (hchain : s.chain f = f :: s.chain g)
    (h : (s.bindingsOf f).lookup x = none) : s.lookup f x = s.lookup g x := by
  unfold lookup
  rw [hchain, List.findSome?_cons, h]

theorem lookup_of_root (houter : s.outerOf f = none) (h : (s.bindingsOf f).lookup x = none) :
    s.lookup f x = .error (.unbound x) := by
  simp [lookup, chain, chainFrom, houter, h]

theorem nearest_of_binds (h : (s.bindingsOf f).binds x = true) : s.nearest? f x = some f := by
  simp [nearest?, chain, chainFrom, h]

theorem nearest_of_outer (hchain : s.chain f = f :: s.chain g)
    (h : (s.bindingsOf f).binds x = false) : s.nearest? f x = s.nearest? g x := by
  unfold nearest?
  rw [hchain, List.find?_cons, h]

theorem nearest_of_root (houter : s.outerOf f = none) (h : (s.bindingsOf f).binds x = false) :
    s.nearest? f x = none := by
  simp [nearest?, chain, chainFrom, houter, h]

theorem mem_visibleNames_iff_lookup : x ∈ s.visibleNames f ↔ ∃ v, s.lookup f x = .ok v := by
  refine ⟨exists_lookup_of_visible, ?_⟩
  rintro ⟨v, hv⟩
  obtain ⟨g, hg, hbound⟩ := exists_of_lookup hv
  exact mem_visibleNames.mpr ⟨g, hg, Bindings.binds_of_lookup hbound⟩

theorem mem_visibleNames_iff_nearest : x ∈ s.visibleNames f ↔ ∃ k, s.nearest? f x = some k := by
  refine ⟨exists_nearest_of_visible, ?_⟩
  rintro ⟨k, hk⟩
  unfold nearest? at hk
  have hbinds := List.find?_some hk
  exact mem_visibleNames.mpr ⟨k, List.mem_of_find?_eq_some hk, hbinds⟩

theorem assign_eq_ok_iff : (s.assign f x v).1 = .ok () ↔ ∃ k, s.nearest? f x = some k := by
  unfold assign
  cases s.nearest? f x with
  | none => simp
  | some k => simp

theorem changedAt_bind (hk : k < s.frames.size) : ChangedAt k x v s (s.bind k x v) where
  size_eq := by simp
  closureCount_eq := by simp
  outerOf_eq g := by simp
  lookup_eq g y := by
    rw [bindingsOf_bind]
    by_cases hg : g = k
    · rw [if_pos ⟨hg, hk⟩, Bindings.lookup_put, hg]
      simp
    · simp [hg]

namespace WellFormed

variable (hs : s.WellFormed)
include hs

/-- Along the links, the search finds the nearest frame that binds the name. -/
theorem nearest_eq_some_iff : s.nearest? f x = some k ↔ s.Nearest x k f := by
  constructor
  · induction f using Nat.strongRecOn with
    | ind f ih =>
      intro h
      cases hbinds : (s.bindingsOf f).binds x with
      | true =>
        rw [nearest_of_binds hbinds] at h
        cases h
        exact ⟨.here, hbinds⟩
      | false =>
        cases houter : s.outerOf f with
        | none =>
          rw [nearest_of_root houter hbinds] at h
          cases h
        | some g =>
          rw [nearest_of_outer (hs.chain_of_outer houter) hbinds] at h
          obtain ⟨hmeets, hk⟩ := ih g (hs.outer_lt f g houter) h
          exact ⟨.outward hbinds houter hmeets, hk⟩
  · rintro ⟨hmeets, hk⟩
    induction hmeets with
    | here => exact nearest_of_binds hk
    | outward hbinds houter _ ih =>
      rw [nearest_of_outer (hs.chain_of_outer houter) hbinds]
      exact ih

theorem lookup_bind_of_meets (hk : k < s.frames.size) (v : Value) (h : s.Meets x k g) :
    (s.bind k x v).lookup g x = .ok v := by
  have hchain : ∀ f, (s.bind k x v).chain f = s.chain f := fun f => chain_congr (by simp) f
  have hnew : ((s.bind k x v).bindingsOf k).lookup x = some v := by
    simp [(changedAt_bind hk).lookup_eq]
  induction h with
  | here => exact lookup_of_bound hnew
  | @outward f g hbinds houter _ ih =>
    by_cases hf : f = k
    · rw [hf]
      exact lookup_of_bound hnew
    · have hnone : ((s.bind k x v).bindingsOf f).lookup x = none := by
        simpa [(changedAt_bind hk).lookup_eq, hf, Bindings.binds] using hbinds
      have houter' : (s.bind k x v).chain f = f :: (s.bind k x v).chain g := by
        rw [hchain, hchain, hs.chain_of_outer houter]
      rw [lookup_of_outer houter' hnone]
      exact ih

theorem lookup_bind_of_not_meets (hk : k < s.frames.size) (v : Value) (h : ¬s.Meets x k g) :
    (s.bind k x v).lookup g x = s.lookup g x := by
  have hchain : ∀ f, (s.bind k x v).chain f = s.chain f := fun f => chain_congr (by simp) f
  induction g using Nat.strongRecOn with
  | ind g ih =>
    have hgk : g ≠ k := by
      rintro rfl
      exact h .here
    have hsame : ((s.bind k x v).bindingsOf g).lookup x = (s.bindingsOf g).lookup x := by
      simp [(changedAt_bind hk).lookup_eq, hgk]
    cases hbound : (s.bindingsOf g).lookup x with
    | some w => rw [lookup_of_bound hbound, lookup_of_bound (hsame.trans hbound)]
    | none =>
      cases houter : s.outerOf g with
      | none =>
        have houter' : (s.bind k x v).outerOf g = none := by simpa using houter
        rw [lookup_of_root houter hbound, lookup_of_root houter' (hsame.trans hbound)]
      | some g' =>
        have hstep : s.chain g = g :: s.chain g' := hs.chain_of_outer houter
        have hstep' : (s.bind k x v).chain g = g :: (s.bind k x v).chain g' := by
          rw [hchain, hchain, hstep]
        have hbinds : (s.bindingsOf g).binds x = false := by simp [Bindings.binds, hbound]
        have hout : ¬s.Meets x k g' := fun hmeets => h (.outward hbinds houter hmeets)
        rw [lookup_of_outer hstep hbound, lookup_of_outer hstep' (hsame.trans hbound)]
        exact ih g' (hs.outer_lt g g' houter) hout

theorem shows_bind (hk : k < s.frames.size) (v : Value) :
    Shows (s.Meets x k) x v s (s.bind k x v) where
  new g hg := hs.lookup_bind_of_meets hk v hg
  old g y hgy := by
    by_cases hy : y = x
    · subst hy
      exact hs.lookup_bind_of_not_meets hk v fun hg => hgy ⟨rfl, hg⟩
    · exact lookup_bind_of_ne s g k v hy

end WellFormed

/-- Lookup, assignment and visibility agree on every chain of frames. A name is listed in a frame
if and only if it can be looked up there, and if and only if it can be assigned there. An
assignment that fails blames the name and changes nothing. One that succeeds changes one slot of
the nearest frame that binds the name, and it shows in just those frames of which this is the
nearest one that binds the name, too. A definition succeeds if and only if the frame does not
bind the name itself; then it shows in just those frames from which a search for the name comes to
this frame before any that binds the name. If it fails, it changes nothing. -/
theorem lookup_assignment_and_visibility_agree {s : Store} (hs : s.WellFormed) {f : FrameId}
    (hf : f < s.frames.size) (x : String) (v : Value) :
    ((x ∈ s.visibleNames f ↔ ∃ w, s.lookup f x = .ok w) ∧
      ((∃ w, s.lookup f x = .ok w) ↔ (s.assign f x v).1 = .ok ())) ∧
    (∀ e, (s.assign f x v).1 = .error e → e = .unbound x ∧ (s.assign f x v).2 = s) ∧
    ((s.assign f x v).1 = .ok () → ∃ k, s.Nearest x k f ∧ ChangedAt k x v s (s.assign f x v).2 ∧
      Shows (s.Nearest x k) x v s (s.assign f x v).2) ∧
    ((s.define f x v).1 = .ok () ↔ (s.bindingsOf f).binds x = false) ∧
    ((s.define f x v).1 = .ok () → ChangedAt f x v s (s.define f x v).2 ∧
      Shows (s.Meets x f) x v s (s.define f x v).2) ∧
    ∀ e, (s.define f x v).1 = .error e → e = .alreadyDefined x ∧ (s.define f x v).2 = s := by
  refine ⟨⟨mem_visibleNames_iff_lookup, ?_⟩, ?_⟩
  · rw [assign_eq_ok_iff, ← mem_visibleNames_iff_lookup, mem_visibleNames_iff_nearest]
  have hassign : (∀ e, (s.assign f x v).1 = .error e → e = .unbound x ∧ (s.assign f x v).2 = s) ∧
      ((s.assign f x v).1 = .ok () → ∃ k, s.Nearest x k f ∧ ChangedAt k x v s (s.assign f x v).2 ∧
        Shows (s.Nearest x k) x v s (s.assign f x v).2) := by
    unfold assign
    cases hnearest : s.nearest? f x with
    | none => exact ⟨fun e he => ⟨(Except.error.inj he).symm, rfl⟩, nofun⟩
    | some k =>
      have hk : s.Nearest x k f := hs.nearest_eq_some_iff.mp hnearest
      have hlt : k < s.frames.size := s.lt_size_of_binds k hk.2
      have hshows : Shows (s.Meets x k) x v s (s.bind k x v) := hs.shows_bind hlt v
      refine ⟨nofun, fun _ => ⟨k, hk, changedAt_bind hlt, ?_⟩⟩
      exact ⟨fun g hg => hshows.new g hg.1, fun g y hgy => hshows.old g y
        fun hmeets => hgy ⟨hmeets.1, hmeets.2, hk.2⟩⟩
  refine ⟨hassign.1, hassign.2, ?_⟩
  unfold define
  cases hbinds : (s.bindingsOf f).binds x with
  | true => simp
  | false => simp [changedAt_bind hf, hs.shows_bind hf v]

/-- Two frames stand in one that binds `x`, and of these only one binds it as well, with another
frame inside it. To assign `x` in the frame that does not bind it shows outside of it and not in
the frames next to it. -/
theorem assignment_shows_around_only :
    let root := (Session.start (.ofLines [])).store.bind 0 "x" (.integer 1)
    let s := (((root.push (some 0) [("x", .integer 2)]).2.push (some 0) []).2.push (some 1) []).2
    let s' := (s.assign 2 "x" (.integer 3)).2
    s.Nearest "x" 0 2 ∧ s'.lookup 0 "x" = .ok (.integer 3) ∧ s'.lookup 2 "x" = .ok (.integer 3) ∧
      s'.lookup 3 "x" = .ok (.integer 2) := by
  intro root s s'
  have hroot : root.WellFormed := (Session.start_wellFormed _).bind "x" nofun
  have hbound : (root.push (some 0) [("x", .integer 2)]).2.WellFormed := by
    refine hroot.push Nat.zero_lt_one fun y v hv c hc => ?_
    rw [Bindings.lookup_cons] at hv
    split at hv
    · cases hv
      cases hc
    · cases hv
  have hs : s.WellFormed := by
    refine (hbound.push Nat.zero_lt_two fun y v hv => ?_).push (by decide) fun y v hv => ?_
    · cases hv
    · cases hv
  have hagree := lookup_assignment_and_visibility_agree hs (f := 2) (by decide) "x" (.integer 3)
  obtain ⟨k, hk, -, hshows⟩ := hagree.2.2.1 rfl
  have h0 : s.Nearest "x" 0 2 := ⟨.outward rfl rfl .here, rfl⟩
  have h1 : s.Nearest "x" 1 3 := ⟨.outward rfl rfl .here, rfl⟩
  obtain rfl : k = 0 := by
    have hfound := hs.nearest_eq_some_iff.mpr hk
    rw [hs.nearest_eq_some_iff.mpr h0] at hfound
    exact (Option.some.inj hfound).symm
  refine ⟨h0, hshows.new 0 ⟨.here, rfl⟩, hshows.new 2 h0, ?_⟩
  refine (hshows.old 3 "x" fun h => ?_).trans rfl
  have hfound := hs.nearest_eq_some_iff.mpr h.2
  rw [hs.nearest_eq_some_iff.mpr h1] at hfound
  cases hfound

end Store
end LexicalLisp
