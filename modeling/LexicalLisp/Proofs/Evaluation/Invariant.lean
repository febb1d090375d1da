import LexicalLisp.Proofs.Evaluation.Rules

/-!
# Properties of single runs

An invariant says, for each world, what is known of a store and of the closures
that are around. It is a simulation of each run with itself; so an invariant
that the actions on stores keep is kept by evaluation, whether it succeeds or
fails (`Sound.eval_keeps`).
-/

namespace LexicalLisp

/-- What is known of the store and the closures while a run goes on. -/
structure Invariant where
  World : Type
  /-- The second world is a possible future of the first. -/
  le : World → World → Prop
  holds : World → Store → Prop
  closures : World → Closure → Prop
  /-- The errors with which the run may end. -/
  tolerates : EvalError → Prop
  le_refl : ∀ w, le w w
  le_trans : ∀ u v w, le u v → le v w → le u w
  closures_mono : ∀ {u v}, le u v → ∀ c, closures u c → closures v c
  tolerates_local : ∀ {e : EvalError}, e.IsLocal → tolerates e

namespace Invariant

variable (I : Invariant) {α : Type}

def simulation : Simulation where
  World := I.World
  le := I.le
  stores w s₁ s₂ := s₁ = s₂ ∧ I.holds w s₁
  terminals := Eq
  closures w c d := c = d ∧ I.closures w c
  tolerates := I.tolerates
  le_refl := I.le_refl
  le_trans := I.le_trans
  closures_mono hw c _ h := ⟨h.1, I.closures_mono hw c h.2⟩
  keepsParams _ _ _ h := congrArg _ h.1
  keepsIdentity _ _ _ _ _ h h' := by rw [h.1, h'.1]
  tolerates_local := I.tolerates_local

instance : Preorder I.World := inferInstanceAs (Preorder I.simulation.World)

/-- What is known of the closures in a value. -/
def Values (w : I.World) (v : Value) : Prop := ∀ c ∈ v.closures, I.closures w c

def NoResult (_ : I.World) (_ : Unit) : Prop := True

/-- An action on a store that has begun in the world `w` has kept the invariant. -/
def Acts (w : I.World) (P : I.World → α → Prop) (r : Except NameError α × Store) : Prop :=
  ∃ u, w ≤ u ∧ I.holds u r.2 ∧ match r.1 with
    | .ok a => P u a
    | .error e => I.tolerates (.name e)

/-- A run that has begun in the world `w` has kept the invariant. -/
def Ends (w : I.World) (P : I.World → α → Prop) : Outcome EvalError α → Prop
  | .result a m => ∃ u, w ≤ u ∧ I.holds u m.store ∧ P u a
  | .error e m => I.tolerates e ∧ ∃ u, w ≤ u ∧ I.holds u m.store
  | .outOfFuel => True

variable {I} {w : I.World} {P : I.World → α → Prop}

theorem values_iff {v v' : Value} : I.simulation.Values w v v' ↔ v = v' ∧ I.Values w v :=
  Value.Related.same_iff

theorem values_all_iff {vs vs' : List Value} :
    List.Forall₂ (I.simulation.Values w) vs vs' ↔ vs = vs' ∧ ∀ v ∈ vs, I.Values w v :=
  Value.Related.same_all_iff

theorem pairs_iff {ps qs : List (String × Value)} :
    List.Forall₂ (I.simulation.Pairs w) ps qs ↔ ps = qs ∧ ∀ p ∈ ps, I.Values w p.2 :=
  Value.Related.same_pairs_iff

/-- An action keeps the invariant where it holds of the store that is left, in the same world. -/
theorem acts_of_holds {r : Except NameError α × Store} (hs : I.holds w r.2)
    (hok : ∀ a, r.1 = .ok a → P w a) (herror : ∀ e, r.1 = .error e → I.tolerates (.name e)) :
    I.Acts w P r := by
  refine ⟨w, le_rfl, hs, ?_⟩
  split
  · exact hok _ ‹_›
  · exact herror _ ‹_›

theorem onStore_related {act : Store → Except NameError α × Store}
    (h : ∀ u s, w ≤ u → I.holds u s → I.Acts u P (act s)) :
    I.simulation.Related w (fun u a b => a = b ∧ P u a) (Run.onStore act) (Run.onStore act) := by
  refine Simulation.related_onStore ?_
  intro u s _ hu h
  obtain ⟨rfl, hs⟩ := h
  obtain ⟨v, hv, hs', hr⟩ := h u s hu hs
  revert hs' hr
  rcases act s with ⟨_ | _, s'⟩
  · exact fun hs' hr => .error hv ⟨rfl, hs'⟩ hr
  · exact fun hs' hr => .ok hv ⟨rfl, hs'⟩ ⟨rfl, hr⟩

theorem ends_of_related {Q : I.World → α → α → Prop} {o : Outcome EvalError α}
    (h : I.simulation.Ends w Q o o) (hQ : ∀ u a b, w ≤ u → Q u a b → P u a) : I.Ends w P o := by
  cases o with
  | result a m =>
    cases h with
    | result hu hm hab => exact ⟨_, hu, hm.1.2, hQ _ _ _ hu hab⟩
  | error e m =>
    cases h with
    | error hu hm he => exact ⟨he, _, hu, hm.1.2⟩
  | outOfFuel => trivial

theorem ends_of_run {Q : I.World → α → α → Prop} {x : Run EvalError α} {m : Machine}
    (h : I.simulation.Related w Q x x) (hQ : ∀ u a b, w ≤ u → Q u a b → P u a)
    (hm : I.holds w m.store) : I.Ends w P (x m) :=
  ends_of_related (h w m m le_rfl ⟨⟨rfl, hm⟩, rfl⟩) hQ

theorem Ends.leaves {o : Outcome EvalError α} (h : I.Ends w P o) :
    o.Leaves fun m => ∃ u, w ≤ u ∧ I.holds u m.store := by
  cases o with
  | result a m =>
    obtain ⟨u, hu, hm, -⟩ := h
    exact ⟨u, hu, hm⟩
  | error e m => exact h.2
  | outOfFuel => trivial

/-- The actions on stores keep the invariant, for code that runs in the frames and
consists of the expressions for which it is meant. -/
structure Sound (I : Invariant) (frames : I.World → FrameId → Prop) (admits : Expr → Prop) :
    Prop where
  frames_mono : ∀ {u v}, u ≤ v → ∀ {f}, frames u f → frames v f
  parts : ∀ {e}, admits e → ∀ e' ∈ e.parts, admits e'
  body : ∀ {w c}, I.closures w c → admits c.body
  lookup : ∀ {w s f name}, I.holds w s → frames w f → admits (.symbol name) → name ≠ "else" →
    I.Acts w I.Values (s.lookup f name, s)
  define : ∀ {w s f name e v}, I.holds w s → frames w f →
    admits (.list [.symbol Keyword.define.name, .symbol name, e]) → I.Values w v →
    I.Acts w I.NoResult (s.define f name v)
  assign : ∀ {w s f name e v}, I.holds w s → frames w f →
    admits (.list [.symbol Keyword.set.name, .symbol name, e]) → I.Values w v →
    I.Acts w I.NoResult (s.assign f name v)
  openLet : ∀ {w s f ps}, I.holds w s → frames w f → (∀ p ∈ ps, I.Values w p.2) →
    I.Acts w frames (s.pushPairs (some f) ps)
  openCall : ∀ {w s c self? vs}, I.holds w s → I.closures w c → (∀ v ∈ vs, I.Values w v) →
    vs.length = c.params.length → I.Acts w frames (s.pushCall c self? vs)
  makeClosure : ∀ {w s f params body}, I.holds w s → frames w f → admits body → params.Nodup →
    ∃ u, w ≤ u ∧ I.holds u (s.makeClosure params body f).2 ∧
      I.closures u (s.makeClosure params body f).1
  refused : ∀ r, I.tolerates (.refused r)
  endOfInput : I.tolerates .endOfInput

namespace Sound

variable {frames : I.World → FrameId → Prop} {admits : Expr → Prop} (hI : I.Sound frames admits)
include hI

theorem simulation : I.simulation.Sound (fun w f g => f = g ∧ frames w f) admits where
  frames_mono hw _ _ h := ⟨h.1, hI.frames_mono hw h.2⟩
  parts := hI.parts
  body h := ⟨congrArg _ h.1, hI.body h.2⟩
  lookup := by
    intro w f _ name h hadm hname
    obtain ⟨rfl, hf⟩ := h
    refine Simulation.related_lookup ?_
    intro u s _ hu h
    obtain ⟨rfl, hs⟩ := h
    obtain ⟨v, hv, hs', hr⟩ := hI.lookup hs (hI.frames_mono hu hf) hadm hname
    revert hr
    cases s.lookup f name with
    | ok _ => exact fun hr => .ok hv ⟨rfl, hs'⟩ (values_iff.mpr ⟨rfl, hr⟩)
    | error _ => exact fun hr => .error hv ⟨rfl, hs'⟩ hr
  define := by
    intro w f _ name e v _ h hadm hvalues
    obtain ⟨rfl, hf⟩ := h
    obtain ⟨rfl, hv⟩ := values_iff.mp hvalues
    refine (onStore_related (P := I.NoResult) fun u s hu hs => ?_).imp
      fun _ _ _ _ _ => trivial
    exact hI.define hs (hI.frames_mono hu hf) hadm fun c hc => I.closures_mono hu c (hv c hc)
  assign := by
    intro w f _ name e v _ h hadm hvalues
    obtain ⟨rfl, hf⟩ := h
    obtain ⟨rfl, hv⟩ := values_iff.mp hvalues
    refine (onStore_related (P := I.NoResult) fun u s hu hs => ?_).imp
      fun _ _ _ _ _ => trivial
    exact hI.assign hs (hI.frames_mono hu hf) hadm fun c hc => I.closures_mono hu c (hv c hc)
  openLet := by
    intro w f _ ps _ h hpairs
    obtain ⟨rfl, hf⟩ := h
    obtain ⟨rfl, hps⟩ := pairs_iff.mp hpairs
    exact onStore_related fun u s hu hs => hI.openLet hs (hI.frames_mono hu hf)
      fun p hp c hc => I.closures_mono hu c (hps p hp c hc)
  openCall := by
    intro w c _ self? vs _ h hvalues hlength
    obtain ⟨rfl, hc⟩ := h
    obtain ⟨rfl, hvs⟩ := values_all_iff.mp hvalues
    refine onStore_related fun u s hu hs => ?_
    exact hI.openCall hs (I.closures_mono hu c hc)
      (fun v hv d hd => I.closures_mono hu d (hvs v hv d hd)) hlength
  makeClosure := by
    intro w f _ params body h hadm hparams
    obtain ⟨rfl, hf⟩ := h
    exact onStore_related fun u s hu hs => hI.makeClosure hs (hI.frames_mono hu hf) hadm hparams
  write := Simulation.related_write rfl hI.refused _
  readLine := Simulation.related_readLine rfl hI.refused hI.endOfInput

theorem eval_keeps (n : Nat) {e : Expr} {f : FrameId} {m : Machine} (hf : frames w f)
    (he : admits e) (hm : I.holds w m.store) : I.Ends w I.Values (eval n e f m) :=
  ends_of_run (hI.simulation.eval_related n ⟨rfl, hf⟩ he)
    (fun _ _ _ _ h => (values_iff.mp h).2) hm

theorem operands_keep (n : Nat) {es : List Expr} {f : FrameId} {m : Machine} (hf : frames w f)
    (hes : ∀ e ∈ es, admits e) (hm : I.holds w m.store) :
    I.Ends w (fun u vs => ∀ v ∈ vs, I.Values u v) (Eval.operands (eval n) f es m) :=
  ends_of_run (Simulation.operands_related fun e he =>
      hI.simulation.eval_related n ⟨rfl, hf⟩ (hes e he))
    (fun _ _ _ _ h => (values_all_iff.mp h).2) hm

theorem run_keeps (n : Nat) {program : List Expr} {f : FrameId} {m : Machine} (hf : frames w f)
    (hprogram : ∀ e ∈ program, admits e) (hm : I.holds w m.store) :
    I.Ends w I.Values (Session.run n program f m) :=
  ends_of_run (hI.simulation.run_related ⟨rfl, hf⟩ n hprogram)
    (fun _ _ _ _ h => (values_iff.mp h).2) hm

end Sound

end Invariant

end LexicalLisp
