import LexicalLisp.Proofs.Evaluation.FrameEffect
import LexicalLisp.Proofs.Scoping.FreeNames

/-!
# Which names are visible

A name is visible in a frame if some frame outward from it binds the name; then a
lookup succeeds. Whatever happens to a store, names stay visible where they are,
and what is visible in a frame is visible in every frame opened inside it.
-/

namespace LexicalLisp

namespace Store

variable {s s' : Store} {f g : FrameId} {name : String} {closed : FrameId → Prop}

theorem mem_visibleNames :
    name ∈ s.visibleNames f ↔ ∃ g ∈ s.chain f, (s.bindingsOf g).binds name = true := by
  unfold visibleNames
  rw [Text.mem_sortNames, List.mem_flatMap]
  simp only [Bindings.binds_iff_mem_names]

theorem mem_visibleNames_of_binds (h : (s.bindingsOf f).binds name = true) :
    name ∈ s.visibleNames f :=
  mem_visibleNames.mpr ⟨f, by simp [chain, chainFrom], h⟩

theorem mem_chainFrom_of_extends (h : s.Extends closed s') {n : Nat}
    (hg : g ∈ s.chainFrom n f) : g ∈ s'.chainFrom n f := by
  induction n generalizing f with
  | zero => cases hg
  | succ n ih =>
    unfold chainFrom at hg ⊢
    rcases List.mem_cons.mp hg with rfl | hg
    · exact List.mem_cons_self
    · cases houter : s.outerOf f with
      | none => rw [houter] at hg; cases hg
      | some k =>
        rw [houter] at hg
        rw [h.outerOf_eq f (lt_size_of_outerOf houter), houter]
        exact List.mem_cons_of_mem _ (ih hg)

theorem mem_chainFrom_of_le {n k : Nat} (hnk : n ≤ k) (hg : g ∈ s.chainFrom n f) :
    g ∈ s.chainFrom k f := by
  induction n generalizing f k with
  | zero => cases hg
  | succ n ih =>
    obtain ⟨k, rfl⟩ := Nat.exists_eq_add_of_le' (Nat.le_trans (Nat.le_add_left 1 n) hnk)
    unfold chainFrom at hg ⊢
    rcases List.mem_cons.mp hg with rfl | hg
    · exact List.mem_cons_self
    · refine List.mem_cons_of_mem _ ?_
      cases houter : s.outerOf f with
      | none => rw [houter] at hg; cases hg
      | some k' =>
        rw [houter] at hg
        exact ih (Nat.le_of_succ_le_succ hnk) hg

theorem visibleNames_subset_of_extends (h : s.Extends closed s') :
    s.visibleNames f ⊆ s'.visibleNames f := by
  intro name hname
  obtain ⟨g, hg, hb⟩ := mem_visibleNames.mp hname
  exact mem_visibleNames.mpr ⟨g, mem_chainFrom_of_extends h hg, h.keeps_names g name hb⟩

theorem visibleNames_subset_push (f : FrameId) (b : Bindings) :
    s.visibleNames f ⊆ (s.push (some f) b).2.visibleNames s.frames.size := by
  intro name hname
  obtain ⟨g, hg, hb⟩ := mem_visibleNames.mp hname
  have hext : s.Grows (s.push (some f) b).2 := .push s (some f) b
  have hlt : f < s.frames.size ∨ g = f := by
    unfold chain chainFrom at hg
    rcases List.mem_cons.mp hg with rfl | hg
    · exact .inr rfl
    · cases houter : s.outerOf f with
      | none => rw [houter] at hg; cases hg
      | some k => exact .inl (lt_size_of_outerOf houter)
  have hf : f < s.frames.size := by
    rcases hlt with hlt | rfl
    · exact hlt
    · exact s.lt_size_of_binds g hb
  have hchain : g ∈ (s.push (some f) b).2.chain s.frames.size := by
    unfold chain chainFrom
    rw [outerOf_push, if_pos rfl]
    exact List.mem_cons_of_mem _ (mem_chainFrom_of_le hf (mem_chainFrom_of_extends hext hg))
  exact mem_visibleNames.mpr ⟨g, hchain, hext.keeps_names g name hb⟩

theorem exists_lookup_of_visible (h : name ∈ s.visibleNames f) :
    ∃ v, s.lookup f name = .ok v := by
  obtain ⟨g, hg, hb⟩ := mem_visibleNames.mp h
  unfold lookup
  cases hfind : (s.chain f).findSome? fun g => (s.bindingsOf g).lookup name with
  | some v => exact ⟨v, rfl⟩
  | none =>
    have hnone := List.findSome?_eq_none_iff.mp hfind g hg
    unfold Bindings.binds at hb
    rw [hnone] at hb
    cases hb

theorem exists_nearest_of_visible (h : name ∈ s.visibleNames f) :
    ∃ g, s.nearest? f name = some g := by
  obtain ⟨g, hg, hb⟩ := mem_visibleNames.mp h
  exact Option.isSome_iff_exists.mp (List.find?_isSome.mpr ⟨g, hg, hb⟩)

end Store

namespace Bindings

theorem binds_of_extend {ps : List (String × Value)} {b b' : Bindings}
    (h : b.extend ps = .ok b') {name : String}
    (hname : b.binds name = true ∨ name ∈ ps.map Prod.fst) : b'.binds name = true := by
  induction ps generalizing b with
  | nil =>
    cases h
    simpa using hname
  | cons p ps ih =>
    obtain ⟨key, v⟩ := p
    unfold extend at h
    split at h
    · cases h
    · refine ih h ?_
      rw [binds_put, Bool.or_eq_true, decide_eq_true_eq]
      rcases hname with hb | hmem
      · exact .inl (.inr hb)
      · rcases List.mem_cons.mp hmem with hkey | hmem
        · exact .inl (.inl hkey)
        · exact .inr hmem

theorem exists_of_extend_error {ps : List (String × Value)} {b : Bindings} {e : NameError}
    (h : b.extend ps = .error e) : ∃ name, e = .alreadyDefined name := by
  induction ps generalizing b with
  | nil => cases h
  | cons p ps ih =>
    obtain ⟨key, v⟩ := p
    unfold extend at h
    split at h
    · cases h
      exact ⟨key, rfl⟩
    · exact ih h

end Bindings

theorem Store.binds_of_callBindings {c : Closure} {self? : Option String} {args : List Value}
    {b : Bindings} (h : callBindings c self? args = .ok b) (hlength : args.length = c.params.length)
    {name : String} (hname : name ∈ c.params) : b.binds name = true := by
  have hfst : (c.params.zip args).map Prod.fst = c.params :=
    List.map_fst_zip (Nat.le_of_eq hlength.symm)
  unfold callBindings at h
  cases hb : Bindings.extend [] (c.params.zip args) with
  | error e => rw [hb] at h; cases h
  | ok b' =>
    rw [hb] at h
    cases h
    have hbound : b'.binds name = true :=
      Bindings.binds_of_extend hb (.inr (by rwa [hfst]))
    cases self? with
    | none => exact hbound
    | some self => simp [hbound]

theorem Store.exists_of_callBindings_error {c : Closure} {self? : Option String}
    {args : List Value} {e : NameError} (h : callBindings c self? args = .error e) :
    ∃ name, e = .alreadyDefined name := by
  unfold callBindings at h
  cases hb : Bindings.extend [] (c.params.zip args) with
  | error e' =>
    rw [hb] at h
    cases h
    exact Bindings.exists_of_extend_error hb
  | ok b' => rw [hb] at h; cases h

end LexicalLisp
