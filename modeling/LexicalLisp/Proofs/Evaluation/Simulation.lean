import Mathlib.Order.Basic
import LexicalLisp.Eval
import LexicalLisp.Proofs.Operator.Related

/-!
# Two runs side by side

A simulation compares two runs that take the same steps on machines that need
not be the same. What the machines have in common at some moment is described by
a world, and worlds only grow while the runs go on. Related runs either both end
with related results, or both with the same error, or both run out of fuel; in
the first two cases they leave corresponding machines in some later world.

A property of a single run is the case in which both sides are the same run: the
world then holds what is known about the machine.
-/

namespace LexicalLisp

/-- What is kept in common by two runs that take the same steps. -/
structure Simulation where
  World : Type
  /-- The second world is a possible future of the first. -/
  le : World → World → Prop
  stores : World → Store → Store → Prop
  terminals : Terminal → Terminal → Prop
  closures : World → Closure → Closure → Prop
  /-- The errors with which the runs may end. -/
  tolerates : EvalError → Prop
  le_refl : ∀ w, le w w
  le_trans : ∀ u v w, le u v → le v w → le u w
  closures_mono : ∀ {u v}, le u v → ∀ c d, closures u c d → closures v c d
  keepsParams : ∀ w, Closure.KeepsParams (closures w)
  keepsIdentity : ∀ w, Closure.KeepsIdentity (closures w)
  tolerates_local : ∀ {e : EvalError}, e.IsLocal → tolerates e

namespace Simulation

variable (S : Simulation) {α β γ δ : Type}

instance : Preorder S.World where
  le := S.le
  le_refl := S.le_refl
  le_trans := S.le_trans

def Machines (w : S.World) (m₁ m₂ : Machine) : Prop :=
  S.stores w m₁.store m₂.store ∧ S.terminals m₁.terminal m₂.terminal

def Values (w : S.World) : Value → Value → Prop := Value.Related (S.closures w)

def Pairs (w : S.World) (p q : String × Value) : Prop := p.1 = q.1 ∧ S.Values w p.2 q.2

def NoResult (_ : S.World) (_ _ : Unit) : Prop := True

/-- How two runs may end that have begun in corresponding machines in the world `w`. -/
inductive Ends (w : S.World) (Q : S.World → α → β → Prop) :
    Outcome EvalError α → Outcome EvalError β → Prop
  | result {u : S.World} {a : α} {b : β} {m₁ m₂ : Machine} :
    w ≤ u → S.Machines u m₁ m₂ → Q u a b → Ends w Q (.result a m₁) (.result b m₂)
  | error {u : S.World} {e : EvalError} {m₁ m₂ : Machine} :
    w ≤ u → S.Machines u m₁ m₂ → S.tolerates e → Ends w Q (.error e m₁) (.error e m₂)
  | outOfFuel : Ends w Q .outOfFuel .outOfFuel

/-- From corresponding machines in the world `w` or a later one, both runs end
alike, with results that are related by `Q`. -/
def Related (w : S.World) (Q : S.World → α → β → Prop) (x : Run EvalError α)
    (y : Run EvalError β) : Prop :=
  ∀ w' m₁ m₂, w ≤ w' → S.Machines w' m₁ m₂ → S.Ends w' Q (x m₁) (y m₂)

/-- Both evaluators treat an expression alike, each in its frame, from a world on. -/
def Treats (ev₁ ev₂ : Evaluator) (f₁ f₂ : FrameId) (w : S.World) (e : Expr) : Prop :=
  S.Related w S.Values (ev₁ e f₁) (ev₂ e f₂)

variable {S} {w w' : S.World} {P : S.World → α → β → Prop} {Q : S.World → γ → δ → Prop}

theorem Values.mono (hw : w ≤ w') {v₁ v₂ : Value} (h : S.Values w v₁ v₂) : S.Values w' v₁ v₂ :=
  Value.Related.mono (S.closures_mono hw) h

theorem Values.mono_all (hw : w ≤ w') {vs₁ vs₂ : List Value}
    (h : List.Forall₂ (S.Values w) vs₁ vs₂) : List.Forall₂ (S.Values w') vs₁ vs₂ :=
  Value.Related.mono_all (S.closures_mono hw) h

theorem Pairs.mono_all (hw : w ≤ w') {ps qs : List (String × Value)}
    (h : List.Forall₂ (S.Pairs w) ps qs) : List.Forall₂ (S.Pairs w') ps qs :=
  h.imp fun _ _ hpq => ⟨hpq.1, hpq.2.mono hw⟩

theorem Related.mono (hw : w ≤ w') {x : Run EvalError α} {y : Run EvalError β}
    (h : S.Related w P x y) : S.Related w' P x y :=
  fun u m₁ m₂ hu hm => h u m₁ m₂ (hw.trans hu) hm

theorem Ends.of_le {o₁ : Outcome EvalError α} {o₂ : Outcome EvalError β} (hw : w ≤ w')
    (h : S.Ends w' P o₁ o₂) : S.Ends w P o₁ o₂ := by
  cases h with
  | result hu hm hab => exact .result (hw.trans hu) hm hab
  | error hu hm he => exact .error (hw.trans hu) hm he
  | outOfFuel => exact .outOfFuel

theorem Ends.imp {P' : S.World → α → β → Prop} {o₁ : Outcome EvalError α}
    {o₂ : Outcome EvalError β} (h : S.Ends w P o₁ o₂) (hP : ∀ u a b, w ≤ u → P u a b → P' u a b) :
    S.Ends w P' o₁ o₂ := by
  cases h with
  | result hu hm hab => exact .result hu hm (hP _ _ _ hu hab)
  | error hu hm he => exact .error hu hm he
  | outOfFuel => exact .outOfFuel

theorem Related.imp {P' : S.World → α → β → Prop} {x : Run EvalError α} {y : Run EvalError β}
    (h : S.Related w P x y) (hP : ∀ u a b, w ≤ u → P u a b → P' u a b) : S.Related w P' x y :=
  fun u m₁ m₂ hu hm => (h u m₁ m₂ hu hm).imp fun v a b hv => hP v a b (hu.trans hv)

theorem related_pure {a : α} {b : β} (h : ∀ u, w ≤ u → P u a b) :
    S.Related w P (pure a) (pure b) :=
  fun u _ _ hu hm => .result le_rfl hm (h u hu)

theorem related_fail {e : EvalError} (he : S.tolerates e) :
    S.Related w P (Run.fail e) (Run.fail e) :=
  fun _ _ _ _ hm => .error le_rfl hm he

theorem related_malformed (cause : Malformed) :
    S.Related w P (Run.fail (.malformed cause)) (Run.fail (.malformed cause)) :=
  related_fail (S.tolerates_local trivial)

theorem related_outOfFuel : S.Related w P Run.outOfFuel Run.outOfFuel :=
  fun _ _ _ _ _ => .outOfFuel

/-- Runs in sequence: what follows is compared in the world that the first parts lead to. -/
theorem Related.bind {x : Run EvalError α} {y : Run EvalError β} {k : α → Run EvalError γ}
    {l : β → Run EvalError δ} (h : S.Related w P x y)
    (hk : ∀ u a b, w ≤ u → P u a b → S.Related u Q (k a) (l b)) :
    S.Related w Q (x >>= k) (y >>= l) := by
  intro u m₁ m₂ hu hm
  have hends := h u m₁ m₂ hu hm
  rw [Run.bind_apply, Run.bind_apply]
  generalize x m₁ = o₁, y m₂ = o₂ at hends
  cases hends with
  | error hv hm' he => exact .error hv hm' he
  | outOfFuel => exact .outOfFuel
  | result hv hm' hab => exact (hk _ _ _ (hu.trans hv) hab _ _ _ le_rfl hm').of_le hv

theorem related_ofExcept {R : α → β → Prop} {x : Except EvalError α} {y : Except EvalError β}
    (h : Agree R x y) (hR : ∀ u a b, w ≤ u → R a b → P u a b) :
    S.Related w P (Run.ofExcept x) (Run.ofExcept y) := by
  cases h with
  | ok hab => exact related_pure fun u hu => hR u _ _ hu hab
  | error he => exact related_fail (S.tolerates_local he)

/-- How two actions on corresponding stores may end in the world `w`. -/
inductive Acts (S : Simulation) (w : S.World) (P : S.World → α → β → Prop) :
    Except NameError α × Store → Except NameError β × Store → Prop
  | ok {u : S.World} {a : α} {b : β} {s₁ s₂ : Store} :
    w ≤ u → S.stores u s₁ s₂ → P u a b → Acts S w P (.ok a, s₁) (.ok b, s₂)
  | error {u : S.World} {e : NameError} {s₁ s₂ : Store} :
    w ≤ u → S.stores u s₁ s₂ → S.tolerates (.name e) → Acts S w P (.error e, s₁) (.error e, s₂)

theorem related_onStore {act₁ : Store → Except NameError α × Store}
    {act₂ : Store → Except NameError β × Store}
    (h : ∀ u s₁ s₂, w ≤ u → S.stores u s₁ s₂ → S.Acts u P (act₁ s₁) (act₂ s₂)) :
    S.Related w P (Run.onStore act₁) (Run.onStore act₂) := by
  rintro u ⟨s₁, t₁⟩ ⟨s₂, t₂⟩ hu ⟨hs, ht⟩
  have hacts := h u s₁ s₂ hu hs
  simp only [Run.onStore]
  generalize act₁ s₁ = r₁, act₂ s₂ = r₂ at hacts
  cases hacts with
  | ok hv hs' hab => exact .result hv ⟨hs', ht⟩ hab
  | error hv hs' he => exact .error hv ⟨hs', ht⟩ he

theorem related_lookup {f g : FrameId} {name : String}
    (h : ∀ u s₁ s₂, w ≤ u → S.stores u s₁ s₂ →
      S.Acts u S.Values (s₁.lookup f name, s₁) (s₂.lookup g name, s₂)) :
    S.Related w S.Values (Run.lookup f name) (Run.lookup g name) := by
  rintro u ⟨s₁, t₁⟩ ⟨s₂, t₂⟩ hu ⟨hs, ht⟩
  have hacts := h u s₁ s₂ hu hs
  simp only [Run.lookup]
  generalize s₁.lookup f name = r₁, s₂.lookup g name = r₂ at hacts
  cases hacts with
  | ok hv hs' hab => exact .result hv ⟨hs', ht⟩ hab
  | error hv hs' he => exact .error hv ⟨hs', ht⟩ he

section SameTerminal

variable (hterm : S.terminals = Eq)
include hterm

theorem related_write (htol : ∀ r, S.tolerates (.refused r)) (text : String) :
    S.Related w S.NoResult (Run.write text) (Run.write text) := by
  rintro u ⟨s₁, t₁⟩ ⟨s₂, t₂⟩ hu ⟨hs, ht⟩
  rw [hterm] at ht
  cases ht
  simp only [Run.write]
  split
  · exact .result le_rfl ⟨hs, by rw [hterm]⟩ trivial
  · exact .error le_rfl ⟨hs, by rw [hterm]⟩ (htol _)

theorem related_readLine (htol : ∀ r, S.tolerates (.refused r))
    (hend : S.tolerates .endOfInput) :
    S.Related w (fun _ => Eq) Run.readLine Run.readLine := by
  rintro u ⟨s₁, t₁⟩ ⟨s₂, t₂⟩ hu ⟨hs, ht⟩
  rw [hterm] at ht
  cases ht
  simp only [Run.readLine]
  split
  · exact .result le_rfl ⟨hs, by rw [hterm]⟩ rfl
  · exact .error le_rfl ⟨hs, by rw [hterm]⟩ hend
  · exact .error le_rfl ⟨hs, by rw [hterm]⟩ (htol _)

end SameTerminal

end Simulation
end LexicalLisp
