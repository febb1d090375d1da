import LexicalLisp.Proofs.Evaluation.Rules
import LexicalLisp.Proofs.Store.Frames

/-!
# Stores up to the identities of frames and closures

Frames and closures have no properties but what they contain, so that nothing a
program does depends on which frame or which number it is given. Two stores
correspond if some of their frames can be matched one to one, such that matching
frames bind matching values. Frames without a counterpart are garbage: they
cannot be reached from the others.

That makes a simulation, in which each new frame is matched with the frame that
the other run adds at the same time.
-/

namespace LexicalLisp

/-- Which frames and which closure numbers on two sides match, one to one. -/
structure Renaming where
  frames : FrameId → FrameId → Prop
  closures : Nat → Nat → Prop
  frames_unique : ∀ {f g f' g'}, frames f g → frames f' g' → (f = f' ↔ g = g')
  closures_unique : ∀ {i j i' j'}, closures i j → closures i' j' → (i = i' ↔ j = j')

namespace Renaming

/-- All that matches still matches in the second one. -/
structure Within (ρ σ : Renaming) : Prop where
  frames : ∀ f g, ρ.frames f g → σ.frames f g
  closures : ∀ i j, ρ.closures i j → σ.closures i j

theorem Within.refl (ρ : Renaming) : ρ.Within ρ := ⟨fun _ _ h => h, fun _ _ h => h⟩

theorem Within.trans {ρ σ τ : Renaming} (h : ρ.Within σ) (h' : σ.Within τ) : ρ.Within τ :=
  ⟨fun f g hfg => h'.frames f g (h.frames f g hfg),
    fun i j hij => h'.closures i j (h.closures i j hij)⟩

/-- The same code, made in matching frames, under matching numbers. -/
structure Closures (ρ : Renaming) (c d : Closure) : Prop where
  id : ρ.closures c.id d.id
  params : c.params = d.params
  body : c.body = d.body
  frame : ρ.frames c.frame d.frame

abbrev Values (ρ : Renaming) : Value → Value → Prop := Value.Related ρ.Closures

def Bindings (ρ : Renaming) (b c : LexicalLisp.Bindings) : Prop :=
  ∀ name, Option.Rel ρ.Values (b.lookup name) (c.lookup name)

/-- Matching frames bind matching values, and either stand inside matching frames
older than themselves or both have no frame around them. -/
structure Frames (ρ : Renaming) (s t : Store) (f g : FrameId) : Prop where
  lt_left : f < s.frames.size
  lt_right : g < t.frames.size
  outer : Option.Rel (fun f' g' => ρ.frames f' g' ∧ f' < f ∧ g' < g) (s.outerOf f) (t.outerOf g)
  bindings : ρ.Bindings (s.bindingsOf f) (t.bindingsOf g)

structure Stores (ρ : Renaming) (s t : Store) : Prop where
  frames : ∀ f g, ρ.frames f g → ρ.Frames s t f g
  closures_lt : ∀ i j, ρ.closures i j → i < s.closureCount ∧ j < t.closureCount

variable {ρ σ : Renaming} {s t : Store} {f g : FrameId}

theorem Closures.mono (h : ρ.Within σ) {c d : Closure} (hcd : ρ.Closures c d) :
    σ.Closures c d :=
  ⟨h.closures _ _ hcd.id, hcd.params, hcd.body, h.frames _ _ hcd.frame⟩

theorem Values.mono (h : ρ.Within σ) {v w : Value} (hvw : ρ.Values v w) : σ.Values v w :=
  Value.Related.mono (fun _ _ => Closures.mono h) hvw

theorem Bindings.mono (h : ρ.Within σ) {b c : LexicalLisp.Bindings} (hbc : ρ.Bindings b c) :
    σ.Bindings b c := by
  intro name
  have hname := hbc name
  generalize b.lookup name = x, c.lookup name = y at hname
  cases hname with
  | none => exact .none
  | some hvw => exact .some (hvw.mono h)

theorem Frames.mono (h : ρ.Within σ) {s' t' : Store} (hfg : ρ.Frames s t f g)
    (hs : s.frames.size ≤ s'.frames.size) (ht : t.frames.size ≤ t'.frames.size)
    (hsouter : s'.outerOf f = s.outerOf f) (htouter : t'.outerOf g = t.outerOf g)
    (hbindings : σ.Bindings (s'.bindingsOf f) (t'.bindingsOf g)) : σ.Frames s' t' f g := by
  refine ⟨Nat.lt_of_lt_of_le hfg.lt_left hs, Nat.lt_of_lt_of_le hfg.lt_right ht, ?_, hbindings⟩
  rw [hsouter, htouter]
  have houter := hfg.outer
  generalize s.outerOf f = x, t.outerOf g = y at houter
  cases houter with
  | none => exact .none
  | some hfg' => exact .some ⟨h.frames _ _ hfg'.1, hfg'.2⟩

namespace Bindings

variable {b c : LexicalLisp.Bindings}

theorem nil (ρ : Renaming) : ρ.Bindings [] [] := fun _ => .none

theorem binds_eq (h : ρ.Bindings b c) (name : String) : b.binds name = c.binds name := by
  have hname := h name
  unfold LexicalLisp.Bindings.binds
  generalize b.lookup name = x, c.lookup name = y at hname
  cases hname <;> rfl

theorem put (h : ρ.Bindings b c) (name : String) {v w : Value} (hvw : ρ.Values v w) :
    ρ.Bindings (b.put name v) (c.put name w) := by
  intro other
  rw [LexicalLisp.Bindings.lookup_put, LexicalLisp.Bindings.lookup_put]
  split
  · exact .some hvw
  · exact h other

end Bindings

/-- Bindings that can be made on both sides or on neither. -/
inductive Extended (ρ : Renaming) :
    Except NameError LexicalLisp.Bindings → Except NameError LexicalLisp.Bindings → Prop
  | ok {b c : LexicalLisp.Bindings} : ρ.Bindings b c → Extended ρ (.ok b) (.ok c)
  | error (e : NameError) : Extended ρ (.error e) (.error e)

theorem extend_related {ps qs : List (String × Value)} {b c : LexicalLisp.Bindings}
    (h : List.Forall₂ (fun p q => p.1 = q.1 ∧ ρ.Values p.2 q.2) ps qs) (hbc : ρ.Bindings b c) :
    ρ.Extended (b.extend ps) (c.extend qs) := by
  induction h generalizing b c with
  | nil => exact .ok hbc
  | @cons p q ps qs hpq _ ih =>
    obtain ⟨name, v⟩ := p
    obtain ⟨name', w⟩ := q
    obtain ⟨rfl, hvw⟩ : name = name' ∧ ρ.Values v w := hpq
    simp only [LexicalLisp.Bindings.extend, hbc.binds_eq]
    split
    · exact .error _
    · exact ih (hbc.put name hvw)

theorem zip_related (params : List String) {vs ws : List Value}
    (h : List.Forall₂ ρ.Values vs ws) :
    List.Forall₂ (fun p q => p.1 = q.1 ∧ ρ.Values p.2 q.2) (params.zip vs) (params.zip ws) := by
  induction h generalizing params with
  | nil => simp
  | cons hvw _ ih =>
    cases params with
    | nil => exact .nil
    | cons name params => exact .cons ⟨rfl, hvw⟩ (ih params)

theorem callBindings_related {c d : Closure} (hcd : ρ.Closures c d) (self? : Option String)
    {vs ws : List Value} (h : List.Forall₂ ρ.Values vs ws) :
    ρ.Extended (Store.callBindings c self? vs) (Store.callBindings d self? ws) := by
  have hextend := extend_related (zip_related c.params h) (.nil ρ)
  unfold Store.callBindings
  rw [← hcd.params]
  generalize LexicalLisp.Bindings.extend [] (c.params.zip vs) = x,
    LexicalLisp.Bindings.extend [] (c.params.zip ws) = y at hextend
  cases hextend with
  | error e => exact .error e
  | ok hbc =>
    cases self? with
    | none => exact .ok hbc
    | some name => exact .ok (hbc.put name (.closure hcd))

/-- Also matches two frames that have had no counterpart so far. -/
def addFrame (ρ : Renaming) (f g : FrameId) (hf : ∀ g', ¬ρ.frames f g')
    (hg : ∀ f', ¬ρ.frames f' g) : Renaming where
  frames f' g' := ρ.frames f' g' ∨ f' = f ∧ g' = g
  closures := ρ.closures
  frames_unique := by
    rintro f₁ g₁ f₂ g₂ (h₁ | ⟨rfl, rfl⟩) (h₂ | ⟨rfl, rfl⟩)
    · exact ρ.frames_unique h₁ h₂
    · exact ⟨fun h => absurd (h ▸ h₁) (hf _), fun h => absurd (h ▸ h₁) (hg _)⟩
    · exact ⟨fun h => absurd (h ▸ h₂) (hf _), fun h => absurd (h ▸ h₂) (hg _)⟩
    · simp
  closures_unique := ρ.closures_unique

def addClosure (ρ : Renaming) (i j : Nat) (hi : ∀ j', ¬ρ.closures i j')
    (hj : ∀ i', ¬ρ.closures i' j) : Renaming where
  frames := ρ.frames
  closures i' j' := ρ.closures i' j' ∨ i' = i ∧ j' = j
  frames_unique := ρ.frames_unique
  closures_unique := by
    rintro i₁ j₁ i₂ j₂ (h₁ | ⟨rfl, rfl⟩) (h₂ | ⟨rfl, rfl⟩)
    · exact ρ.closures_unique h₁ h₂
    · exact ⟨fun h => absurd (h ▸ h₁) (hi _), fun h => absurd (h ▸ h₁) (hj _)⟩
    · exact ⟨fun h => absurd (h ▸ h₂) (hi _), fun h => absurd (h ▸ h₂) (hj _)⟩
    · simp

namespace Stores

variable (h : ρ.Stores s t)
include h

theorem not_frames_size_left (g : FrameId) : ¬ρ.frames s.frames.size g :=
  fun hfg => Nat.lt_irrefl _ (h.frames _ _ hfg).lt_left

theorem not_frames_size_right (f : FrameId) : ¬ρ.frames f t.frames.size :=
  fun hfg => Nat.lt_irrefl _ (h.frames _ _ hfg).lt_right

theorem not_closures_count_left (j : Nat) : ¬ρ.closures s.closureCount j :=
  fun hij => Nat.lt_irrefl _ (h.closures_lt _ _ hij).1

theorem not_closures_count_right (i : Nat) : ¬ρ.closures i t.closureCount :=
  fun hij => Nat.lt_irrefl _ (h.closures_lt _ _ hij).2

def withFrame : Renaming :=
  ρ.addFrame s.frames.size t.frames.size h.not_frames_size_left h.not_frames_size_right

def withClosure : Renaming :=
  ρ.addClosure s.closureCount t.closureCount h.not_closures_count_left h.not_closures_count_right

theorem within_withFrame : ρ.Within h.withFrame := ⟨fun _ _ => .inl, fun _ _ hij => hij⟩

theorem within_withClosure : ρ.Within h.withClosure := ⟨fun _ _ hfg => hfg, fun _ _ => .inl⟩

theorem setBindings (hfg : ρ.frames f g) {b c : LexicalLisp.Bindings} (hbc : ρ.Bindings b c) :
    ρ.Stores (s.setBindings f b) (t.setBindings g c) := by
  refine ⟨fun f' g' hfg' => ?_, h.closures_lt⟩
  have hold := h.frames f' g' hfg'
  refine hold.mono (.refl ρ) (by simp) (by simp) (by simp) (by simp) ?_
  rw [Store.bindingsOf_setBindings, Store.bindingsOf_setBindings]
  by_cases hsame : f' = f
  · -- Frames match one to one, so both sides of the pair are replaced or neither is.
    have hsame' : g' = g := (ρ.frames_unique hfg' hfg).mp hsame
    rw [if_pos ⟨hsame, (h.frames f g hfg).lt_left⟩, if_pos ⟨hsame', (h.frames f g hfg).lt_right⟩]
    exact hbc
  · have hsame' : g' ≠ g := fun heq => hsame ((ρ.frames_unique hfg' hfg).mpr heq)
    rw [if_neg fun hand => hsame hand.1, if_neg fun hand => hsame' hand.1]
    exact hold.bindings

theorem bind (hfg : ρ.frames f g) (name : String) {v w : Value} (hvw : ρ.Values v w) :
    ρ.Stores (s.bind f name v) (t.bind g name w) :=
  h.setBindings hfg ((h.frames f g hfg).bindings.put name hvw)

theorem push (hfg : ρ.frames f g) {b c : LexicalLisp.Bindings} (hbc : ρ.Bindings b c) :
    h.withFrame.Stores (s.push (some f) b).2 (t.push (some g) c).2 := by
  have hwithin := h.within_withFrame
  refine ⟨?_, h.closures_lt⟩
  rintro f' g' (hfg' | ⟨rfl, rfl⟩)
  · have hold := h.frames f' g' hfg'
    have hf' := Nat.ne_of_lt hold.lt_left
    have hg' := Nat.ne_of_lt hold.lt_right
    refine hold.mono hwithin (by simp) (by simp) ?_ ?_ ?_
    · rw [Store.outerOf_push, if_neg hf']
    · rw [Store.outerOf_push, if_neg hg']
    · rw [Store.bindingsOf_push, Store.bindingsOf_push, if_neg hf', if_neg hg']
      exact hold.bindings.mono hwithin
  · have houter := h.frames f g hfg
    refine ⟨by simp, by simp, ?_, ?_⟩
    · rw [Store.outerOf_push, Store.outerOf_push, if_pos rfl, if_pos rfl]
      exact .some ⟨.inl hfg, houter.lt_left, houter.lt_right⟩
    · rw [Store.bindingsOf_push, Store.bindingsOf_push, if_pos rfl, if_pos rfl]
      exact hbc.mono hwithin

theorem makeClosure (params : List String) (body : Expr) :
    h.withClosure.Stores (s.makeClosure params body f).2 (t.makeClosure params body g).2 := by
  refine ⟨fun f' g' hfg' => ?_, ?_⟩
  · have hold := h.frames f' g' hfg'
    exact hold.mono h.within_withClosure (Nat.le_refl _) (Nat.le_refl _) rfl rfl
      (hold.bindings.mono h.within_withClosure)
  · rintro i j (hij | ⟨rfl, rfl⟩)
    · exact (h.closures_lt i j hij).imp Nat.lt_succ_of_lt Nat.lt_succ_of_lt
    · exact ⟨Nat.lt_succ_self _, Nat.lt_succ_self _⟩

/-- Links lead to older frames, so both searches end, and they go through matching frames. -/
theorem chainFrom_related : ∀ (n k : Nat) {f g : FrameId}, f < n → g < k → ρ.frames f g →
    List.Forall₂ ρ.frames (s.chainFrom n f) (t.chainFrom k g) := by
  intro n
  induction n with
  | zero => exact fun k f g hf => absurd hf (Nat.not_lt_zero f)
  | succ n ih =>
    intro k f g hf hg hfg
    cases k with
    | zero => exact absurd hg (Nat.not_lt_zero g)
    | succ k =>
      refine .cons hfg ?_
      have houter := (h.frames f g hfg).outer
      generalize s.outerOf f = x, t.outerOf g = y at houter
      cases houter with
      | none => exact .nil
      | some hfg' =>
        obtain ⟨hframes, hf', hg'⟩ := hfg'
        exact ih k (Nat.lt_of_lt_of_le hf' (Nat.le_of_lt_succ hf))
          (Nat.lt_of_lt_of_le hg' (Nat.le_of_lt_succ hg)) hframes

theorem chain_related (hfg : ρ.frames f g) : List.Forall₂ ρ.frames (s.chain f) (t.chain g) :=
  h.chainFrom_related _ _ (Nat.lt_succ_self f) (Nat.lt_succ_self g) hfg

theorem findSome_related {fs gs : List FrameId} (hfgs : List.Forall₂ ρ.frames fs gs)
    (name : String) :
    Option.Rel ρ.Values (fs.findSome? fun f => (s.bindingsOf f).lookup name)
      (gs.findSome? fun g => (t.bindingsOf g).lookup name) := by
  induction hfgs with
  | nil => exact .none
  | @cons f g _ _ hfg _ ih =>
    have hname := (h.frames f g hfg).bindings name
    rw [List.findSome?_cons, List.findSome?_cons]
    generalize (s.bindingsOf f).lookup name = x, (t.bindingsOf g).lookup name = y at hname
    cases hname with
    | none => exact ih
    | some hvw => exact .some hvw

theorem find_related {fs gs : List FrameId} (hfgs : List.Forall₂ ρ.frames fs gs)
    (name : String) :
    Option.Rel ρ.frames (fs.find? fun f => (s.bindingsOf f).binds name)
      (gs.find? fun g => (t.bindingsOf g).binds name) := by
  induction hfgs with
  | nil => exact .none
  | @cons f g _ _ hfg _ ih =>
    rw [List.find?_cons, List.find?_cons, (h.frames f g hfg).bindings.binds_eq]
    cases (t.bindingsOf g).binds name with
    | true => exact .some hfg
    | false => exact ih

end Stores

/-- Two runs on stores that correspond up to a renaming, with the same terminal. -/
def simulation : Simulation where
  World := Renaming
  le := Within
  stores := Stores
  terminals := Eq
  closures := Closures
  tolerates _ := True
  le_refl := Within.refl
  le_trans _ _ _ := Within.trans
  closures_mono h _ _ := Closures.mono h
  keepsParams _ _ _ h := h.params
  keepsIdentity ρ _ _ _ _ h h' := ρ.closures_unique h.id h'.id
  tolerates_local _ := trivial

theorem lookup_acts (h : ρ.Stores s t) (hfg : ρ.frames f g) (name : String) :
    simulation.Acts ρ simulation.Values (s.lookup f name, s) (t.lookup g name, t) := by
  have hfind := h.findSome_related (h.chain_related hfg) name
  unfold Store.lookup
  generalize (s.chain f).findSome? _ = x, (t.chain g).findSome? _ = y at hfind
  cases hfind with
  | none => exact .error (.refl ρ) h trivial
  | some hvw => exact .ok (.refl ρ) h hvw

theorem define_acts (h : ρ.Stores s t) (hfg : ρ.frames f g) (name : String) {v w : Value}
    (hvw : ρ.Values v w) :
    simulation.Acts ρ simulation.NoResult (s.define f name v) (t.define g name w) := by
  unfold Store.define
  rw [(h.frames f g hfg).bindings.binds_eq]
  split
  · exact .error (.refl ρ) h trivial
  · exact .ok (.refl ρ) (h.bind hfg name hvw) trivial

theorem assign_acts (h : ρ.Stores s t) (hfg : ρ.frames f g) (name : String) {v w : Value}
    (hvw : ρ.Values v w) :
    simulation.Acts ρ simulation.NoResult (s.assign f name v) (t.assign g name w) := by
  have hfind := h.find_related (h.chain_related hfg) name
  unfold Store.assign Store.nearest?
  generalize (s.chain f).find? _ = x, (t.chain g).find? _ = y at hfind
  cases hfind with
  | none => exact .error (.refl ρ) h trivial
  | some hfg' => exact .ok (.refl ρ) (h.bind hfg' name hvw) trivial

theorem push_acts (h : ρ.Stores s t) (hfg : ρ.frames f g)
    {x y : Except NameError LexicalLisp.Bindings} (hxy : ρ.Extended x y) :
    simulation.Acts ρ Renaming.frames (s.pushResult (some f) x) (t.pushResult (some g) y) := by
  cases hxy with
  | ok hbc => exact .ok h.within_withFrame (h.push hfg hbc) (.inr ⟨rfl, rfl⟩)
  | error e => exact .error (.refl ρ) h trivial

theorem sound : simulation.Sound frames (fun _ => True) where
  frames_mono h _ _ hfg := h.frames _ _ hfg
  parts _ _ _ := trivial
  body h := ⟨h.body, trivial⟩
  lookup hfg _ _ := Simulation.related_lookup fun _ _ _ hu hst =>
    lookup_acts hst (hu.frames _ _ hfg) _
  define hfg _ hvw := Simulation.related_onStore fun _ _ _ hu hst =>
    define_acts hst (hu.frames _ _ hfg) _ (Values.mono hu hvw)
  assign hfg _ hvw := Simulation.related_onStore fun _ _ _ hu hst =>
    assign_acts hst (hu.frames _ _ hfg) _ (Values.mono hu hvw)
  openLet hfg hps := by
    refine Simulation.related_onStore fun σ s t hu hst => ?_
    rw [Store.pushPairs_eq, Store.pushPairs_eq]
    exact push_acts hst (hu.frames _ _ hfg)
      (extend_related (Simulation.Pairs.mono_all hu hps) (.nil σ))
  openCall := by
    rintro ρ c d self? vs ws hcd hvs -
    refine Simulation.related_onStore fun σ s t hu hst => ?_
    have hcd' := Closures.mono hu hcd
    rw [Store.pushCall_eq, Store.pushCall_eq]
    exact push_acts hst hcd'.frame
      (callBindings_related hcd' self? (Simulation.Values.mono_all hu hvs))
  makeClosure := by
    rintro ρ f g params body hfg - -
    refine Simulation.related_onStore fun σ s t hu hst => ?_
    have hacts : simulation.Acts σ simulation.closures
        (.ok (s.makeClosure params body f).1, (s.makeClosure params body f).2)
        (.ok (t.makeClosure params body g).1, (t.makeClosure params body g).2) :=
      .ok hst.within_withClosure (hst.makeClosure params body)
        ⟨.inr ⟨rfl, rfl⟩, rfl, rfl, hu.frames _ _ hfg⟩
    exact hacts
  write := Simulation.related_write rfl (fun _ => trivial) _
  readLine := Simulation.related_readLine rfl (fun _ => trivial) trivial

end Renaming
end LexicalLisp
