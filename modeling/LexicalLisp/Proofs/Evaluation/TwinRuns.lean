import LexicalLisp.Proofs.Evaluation.Rules
import LexicalLisp.Proofs.Store.Frames

/-!
# The same code on two stores

Two runs of the same code in the same frame go the same way, on stores that differ
somewhere, as long as they do not come upon the difference. Frames, closures and values
are then the same on both sides, and it suffices that both stores agree in how many
frames and closures there are and in whatever the code asks for. What remains to be
shown of a kind of difference is that it stays one of that kind when both stores change
in the same way.
-/

namespace LexicalLisp

open Store

/-- Two runs have ended with the same value or the same error, the same output and the same
input left. How the stores compare may depend on the closures in the value. -/
inductive Outcome.SameUpTo (R : List Closure → Store → Store → Prop) :
    Outcome EvalError Value → Outcome EvalError Value → Prop
  | result {v : Value} {s t : Store} {terminal : Terminal} : R v.closures s t →
    SameUpTo R (.result v ⟨s, terminal⟩) (.result v ⟨t, terminal⟩)
  | error {e : EvalError} {s t : Store} {terminal : Terminal} : R [] s t →
    SameUpTo R (.error e ⟨s, terminal⟩) (.error e ⟨t, terminal⟩)
  | outOfFuel : SameUpTo R .outOfFuel .outOfFuel

theorem Outcome.SameUpTo.imp {R R' : List Closure → Store → Store → Prop}
    {o₁ o₂ : Outcome EvalError Value} (h : o₁.SameUpTo R o₂)
    (hR : ∀ cs s t, R cs s t → R' cs s t) : o₁.SameUpTo R' o₂ := by
  cases h with
  | result hst => exact .result (hR _ _ _ hst)
  | error hst => exact .error (hR _ _ _ hst)
  | outOfFuel => exact .outOfFuel

/-- How two stores may differ while the same code runs on both, and what is known of the
closures around. -/
structure TwinRuns where
  World : Type
  /-- The second world is a possible future of the first. -/
  le : World → World → Prop
  stores : World → Store → Store → Prop
  closures : World → Closure → Prop
  le_refl : ∀ w, le w w
  le_trans : ∀ u v w, le u v → le v w → le u w
  closures_mono : ∀ {u v}, le u v → ∀ c, closures u c → closures v c
  size_eq : ∀ {w s t}, stores w s t → s.frames.size = t.frames.size
  closureCount_eq : ∀ {w s t}, stores w s t → s.closureCount = t.closureCount

namespace TwinRuns

variable (T : TwinRuns)

def Values (w : T.World) (v : Value) : Prop := ∀ c ∈ v.closures, T.closures w c

def simulation : Simulation where
  World := T.World
  le := T.le
  stores := T.stores
  terminals := Eq
  closures w c d := c = d ∧ T.closures w c
  tolerates _ := True
  le_refl := T.le_refl
  le_trans := T.le_trans
  closures_mono hw c _ h := ⟨h.1, T.closures_mono hw c h.2⟩
  keepsParams _ _ _ h := congrArg _ h.1
  keepsIdentity _ _ _ _ _ h h' := by rw [h.1, h'.1]
  tolerates_local _ := trivial

instance : Preorder T.World := inferInstanceAs (Preorder T.simulation.World)

/-- Stores that both runs may have come to from the world `w` on. -/
def Later (w : T.World) (s t : Store) : Prop := ∃ u, w ≤ u ∧ T.stores u s t

/-- Code that may run does not come upon the difference, nor does it do away with it. -/
structure Supports (T : TwinRuns) (runs : T.World → Expr → FrameId → Prop) : Prop where
  mono : ∀ {u v}, u ≤ v → ∀ {e f}, runs u e f → runs v e f
  parts : ∀ {w e f}, runs w e f → ∀ e' ∈ e.parts, runs w e' f
  body : ∀ {w c}, T.closures w c → runs w c.body c.frame
  lookup : ∀ {w s t f x}, T.stores w s t → runs w (.symbol x) f → x ≠ "else" →
    s.lookup f x = t.lookup f x ∧ ∀ v, s.lookup f x = .ok v → T.Values w v
  define : ∀ {w s t f x e}, T.stores w s t →
    runs w (.list [.symbol Keyword.define.name, .symbol x, e]) f →
    (s.bindingsOf f).binds x = (t.bindingsOf f).binds x ∧
      ∀ v, T.Values w v → T.Later w (s.bind f x v) (t.bind f x v)
  assign : ∀ {w s t f x e}, T.stores w s t →
    runs w (.list [.symbol Keyword.set.name, .symbol x, e]) f →
    s.nearest? f x = t.nearest? f x ∧ ∀ g, s.nearest? f x = some g →
      ∀ v, T.Values w v → T.Later w (s.bind g x v) (t.bind g x v)
  push : ∀ {w s t f e b}, T.stores w s t → runs w e f →
    (∀ x v, b.lookup x = some v → T.Values w v) →
    ∃ u, w ≤ u ∧ T.stores u (s.push (some f) b).2 (t.push (some f) b).2 ∧ runs u e s.frames.size
  makeClosure : ∀ {w s t f body} (params : List String), T.stores w s t → runs w body f →
    ∃ u, w ≤ u ∧ T.stores u (s.makeClosure params body f).2 (t.makeClosure params body f).2 ∧
      T.closures u (s.makeClosure params body f).1

variable {T} {w : T.World} {s t : Store} {f : FrameId} {e : Expr} {v : Value}

theorem Values.mono {u : T.World} (hw : w ≤ u) (h : T.Values w v) : T.Values u v :=
  fun c hc => T.closures_mono hw c (h c hc)

theorem values_iff {v' : Value} : T.simulation.Values w v v' ↔ v = v' ∧ T.Values w v :=
  Value.Related.same_iff

theorem Later.acts (h : T.Later w s t) :
    T.simulation.Acts w T.simulation.NoResult (.ok (), s) (.ok (), t) := by
  obtain ⟨u, hu, hst⟩ := h
  exact .ok hu hst trivial

namespace Supports

variable {runs : T.World → Expr → FrameId → Prop} (hT : T.Supports runs)
include hT

theorem lookup_acts {x : String} (h : T.stores w s t) (hx : runs w (.symbol x) f)
    (helse : x ≠ "else") :
    T.simulation.Acts w T.simulation.Values (s.lookup f x, s) (t.lookup f x, t) := by
  obtain ⟨heq, hvalues⟩ := hT.lookup h hx helse
  rw [← heq]
  cases hlookup : s.lookup f x with
  | error err => exact .error (T.le_refl w) h trivial
  | ok v => exact .ok (T.le_refl w) h (values_iff.mpr ⟨rfl, hvalues v hlookup⟩)

theorem define_acts {x : String} (h : T.stores w s t)
    (he : runs w (.list [.symbol Keyword.define.name, .symbol x, e]) f) (hv : T.Values w v) :
    T.simulation.Acts w T.simulation.NoResult (s.define f x v) (t.define f x v) := by
  obtain ⟨heq, hbind⟩ := hT.define h he
  unfold Store.define
  rw [← heq]
  split
  · exact .error (T.le_refl w) h trivial
  · exact (hbind v hv).acts

theorem assign_acts {x : String} (h : T.stores w s t)
    (he : runs w (.list [.symbol Keyword.set.name, .symbol x, e]) f) (hv : T.Values w v) :
    T.simulation.Acts w T.simulation.NoResult (s.assign f x v) (t.assign f x v) := by
  obtain ⟨heq, hbind⟩ := hT.assign h he
  unfold Store.assign
  rw [← heq]
  cases hnearest : s.nearest? f x with
  | none => exact .error (T.le_refl w) h trivial
  | some g => exact (hbind g hnearest v hv).acts

theorem push_acts {b? : Except NameError Bindings} (h : T.stores w s t) (he : runs w e f)
    (hb : ∀ b, b? = .ok b → ∀ x v, b.lookup x = some v → T.Values w v) :
    T.simulation.Acts w (fun u g g' => g = g' ∧ runs u e g) (s.pushResult (some f) b?)
      (t.pushResult (some f) b?) := by
  cases b? with
  | error err => exact .error (T.le_refl w) h trivial
  | ok b =>
    obtain ⟨u, hu, hpush, hrun⟩ := hT.push h he (hb b rfl)
    exact .ok hu hpush ⟨T.size_eq h, hrun⟩

theorem makeClosure_acts {params : List String} {body : Expr} (h : T.stores w s t)
    (hbody : runs w body f) :
    T.simulation.Acts w T.simulation.closures
      (.ok (s.makeClosure params body f).1, (s.makeClosure params body f).2)
      (.ok (t.makeClosure params body f).1, (t.makeClosure params body f).2) := by
  obtain ⟨u, hu, hmake, hknown⟩ := hT.makeClosure params h hbody
  have hsame : (s.makeClosure params body f).1 = (t.makeClosure params body f).1 := by
    simp [Store.makeClosure, T.closureCount_eq h]
  exact .ok hu hmake ⟨hsame, hknown⟩

theorem supports : T.simulation.Supports fun w e f g => f = g ∧ runs w e f where
  mono hw _ _ _ h := ⟨h.1, hT.mono hw h.2⟩
  parts {_ e _ _} h e' he' := ⟨h.1, hT.parts h.2 e' (e.ownParts_subset he')⟩
  body h := congrArg _ h.1
  lookup := by
    rintro w f _ x ⟨rfl, hx⟩ helse
    exact Simulation.related_lookup fun u s t hu h => hT.lookup_acts h (hT.mono hu hx) helse
  define := by
    rintro w f _ x e v _ ⟨rfl, he⟩ hvalues
    obtain ⟨rfl, hv⟩ := values_iff.mp hvalues
    exact Simulation.related_onStore fun u s t hu h =>
      hT.define_acts h (hT.mono hu he) (hv.mono hu)
  assign := by
    rintro w f _ x e v _ ⟨rfl, he⟩ hvalues
    obtain ⟨rfl, hv⟩ := values_iff.mp hvalues
    exact Simulation.related_onStore fun u s t hu h =>
      hT.assign_acts h (hT.mono hu he) (hv.mono hu)
  openLet := by
    rintro w f _ binders body ps _ ⟨rfl, hlet⟩ hpairs
    have hbody : runs w body f := hT.parts hlet body (Expr.mem_parts_letBody binders body)
    obtain ⟨rfl, hps⟩ := Value.Related.same_pairs_iff.mp hpairs
    refine Simulation.related_onStore fun u s t hu h => ?_
    rw [pushPairs_eq, pushPairs_eq]
    apply hT.push_acts h (hT.mono hu hbody)
    intro b hb x v hv
    exact closures_of_extend (fun p hp c hc => T.closures_mono hu c (hps p hp c hc)) hb hv
  openCall := by
    rintro w c _ self? vs _ ⟨rfl, hc⟩ hvalues -
    obtain ⟨rfl, hvs⟩ := Value.Related.same_all_iff.mp hvalues
    refine Simulation.related_onStore fun u s t hu h => ?_
    rw [pushCall_eq, pushCall_eq]
    apply hT.push_acts h (hT.mono hu (hT.body hc))
    intro b hb x v hv
    exact closures_of_callBindings (T.closures_mono hu c hc)
      (fun v hv d hd => T.closures_mono hu d (hvs v hv d hd)) hb hv
  makeClosure := by
    rintro w f _ parameters body params ⟨rfl, hlambda⟩ -
    have hbody : runs w body f := hT.parts hlambda body (Expr.mem_parts_lambdaBody parameters body)
    exact Simulation.related_onStore fun u s t hu h => hT.makeClosure_acts h (hT.mono hu hbody)
  write _ _ := Simulation.related_write rfl (fun _ => trivial) _
  readLine _ := Simulation.related_readLine rfl (fun _ => trivial) trivial

/-- Evaluation on both stores ends alike, and the stores still differ in that way only. -/
theorem eval_same (n : Nat) (hrun : runs w e f) (h : T.stores w s t) (terminal : Terminal) :
    (eval n e f ⟨s, terminal⟩).SameUpTo
      (fun cs s' t' => ∃ u, w ≤ u ∧ T.stores u s' t' ∧ ∀ c ∈ cs, T.closures u c)
      (eval n e f ⟨t, terminal⟩) := by
  have hends := hT.supports.eval_related n ⟨rfl, hrun⟩ w ⟨s, terminal⟩ ⟨t, terminal⟩ (T.le_refl w)
    ⟨h, rfl⟩
  generalize eval n e f ⟨s, terminal⟩ = o₁, eval n e f ⟨t, terminal⟩ = o₂ at hends
  cases hends with
  | outOfFuel => exact .outOfFuel
  | @error u err m₁ m₂ hu hm _ =>
    obtain ⟨s', terminal'⟩ := m₁
    obtain ⟨t', _⟩ := m₂
    obtain ⟨hstores, rfl⟩ := hm
    exact .error ⟨u, hu, hstores, nofun⟩
  | @result u v v' m₁ m₂ hu hm hvalues =>
    obtain ⟨s', terminal'⟩ := m₁
    obtain ⟨t', _⟩ := m₂
    obtain ⟨hstores, rfl⟩ := hm
    obtain ⟨rfl, hv⟩ := values_iff.mp hvalues
    exact .result ⟨u, hu, hstores, hv⟩

end Supports

end TwinRuns

end LexicalLisp
