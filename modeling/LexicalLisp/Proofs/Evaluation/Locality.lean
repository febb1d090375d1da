import LexicalLisp.Proofs.Evaluation.TwinRuns
import LexicalLisp.Proofs.Store.Reach

/-!
# Evaluation is local

Code depends on nothing but the frames that are reachable from the frame it runs
in, it changes no others, and it cannot get hold of others. All three follow from
one simulation of runs on two stores that agree on the reachable frames: while the
runs go on, they stay in these frames and in those that they add themselves.
-/

namespace LexicalLisp

open Store

/-- The frames of a set, and the frames that have been added while their number went
from `size` to `n`. -/
def Region (R : FrameId → Prop) (size n g : Nat) : Prop := R g ∨ size ≤ g ∧ g < n

namespace Region

variable {R : FrameId → Prop} {size n n' g : Nat}

theorem mono (hn : n ≤ n') (hg : Region R size n g) : Region R size n' g :=
  hg.imp_right fun h => ⟨h.1, Nat.lt_of_lt_of_le h.2 hn⟩

theorem succ_iff (hn : size ≤ n) : Region R size (n + 1) g ↔ Region R size n g ∨ g = n := by
  unfold Region
  by_cases hR : R g
  · simp [hR]
  · simp only [hR, false_or]
    omega

theorem start_eq (R : FrameId → Prop) (size : Nat) : Region R size size = R := by
  funext g
  have hnone : ¬(size ≤ g ∧ g < size) := by omega
  simp [Region, hnone]

end Region

/-- What two runs have in common that began on stores agreeing on the set `R`, of which `s₀`
was the first: there are `n` frames by now, the stores agree on those of the set and on the
new ones, nothing else can be reached from there, and nothing else has changed. -/
structure Shared (R : FrameId → Prop) (s₀ : Store) (n : Nat) (s t : Store) : Prop where
  size_eq : s.frames.size = n
  size_le : s₀.frames.size ≤ n
  closed : s.Closed (Region R s₀.frames.size n)
  agrees : AgreesOn (Region R s₀.frames.size n) s t
  keeps : ∀ g, g < s₀.frames.size → ¬R g → s.bindingsOf g = s₀.bindingsOf g

namespace Shared

variable {R : FrameId → Prop} {s₀ s t : Store} {n : Nat} {f : FrameId} {b : Bindings}

theorem start (hR : s.Closed R) (h : AgreesOn R s t) : Shared R s s.frames.size s t where
  size_eq := rfl
  size_le := Nat.le_refl _
  closed := by rwa [Region.start_eq]
  agrees := by rwa [Region.start_eq]
  keeps _ _ _ := rfl

theorem bind (h : Shared R s₀ n s t) (hf : Region R s₀.frames.size n f) (name : String) {v : Value}
    (hv : ∀ c ∈ v.closures, Region R s₀.frames.size n c.frame) :
    Shared R s₀ n (s.bind f name v) (t.bind f name v) where
  size_eq := by simp [h.size_eq]
  size_le := h.size_le
  closed := h.closed.bind name hv
  agrees := h.agrees.bind f name v
  keeps g hg hR := by
    have hgf : g ≠ f := by
      rintro rfl
      rcases hf with hf | hf
      · exact hR hf
      · omega
    rw [bindingsOf_bind, if_neg fun hand => hgf hand.1]
    exact h.keeps g hg hR

theorem push (h : Shared R s₀ n s t) (hf : Region R s₀.frames.size n f)
    (hb : ∀ name v, b.lookup name = some v → ∀ c ∈ v.closures, Region R s₀.frames.size n c.frame) :
    Shared R s₀ (n + 1) (s.push (some f) b).2 (t.push (some f) b).2 where
  size_eq := by simp [h.size_eq]
  size_le := Nat.le_succ_of_le h.size_le
  closed := by
    apply h.closed.push hf _ hb
    intro g
    rw [h.size_eq]
    exact Region.succ_iff h.size_le
  agrees := by
    apply h.agrees.push
    intro g hg
    rw [h.size_eq]
    exact (Region.succ_iff h.size_le).mp hg
  keeps g hg hR := by
    have hlt : g < s.frames.size := by
      have hle := h.size_le
      have heq := h.size_eq
      omega
    rw [bindingsOf_push, if_neg (Nat.ne_of_lt hlt)]
    exact h.keeps g hg hR

theorem makeClosure (h : Shared R s₀ n s t) (params : List String) (body : Expr) (f : FrameId) :
    Shared R s₀ n (s.makeClosure params body f).2 (t.makeClosure params body f).2 where
  size_eq := h.size_eq
  size_le := h.size_le
  closed := ⟨h.closed.outward, h.closed.captured⟩
  agrees := h.agrees.makeClosure params body f
  keeps := h.keeps

end Shared

/-- Worlds are numbers of frames. The closures around were made in frames that both share. -/
def sharing (R : FrameId → Prop) (s₀ : Store) : TwinRuns where
  World := Nat
  le n n' := n ≤ n'
  stores := Shared R s₀
  closures n c := Region R s₀.frames.size n c.frame
  le_refl := Nat.le_refl
  le_trans _ _ _ := Nat.le_trans
  closures_mono hn _ h := h.mono hn
  size_eq h := h.agrees.size_eq
  closureCount_eq h := h.agrees.closureCount_eq

namespace sharing

variable {R : FrameId → Prop} {s₀ s t : Store}

theorem supports : (sharing R s₀).Supports fun n _ f => Region R s₀.frames.size n f where
  mono hn _ _ hf := hf.mono hn
  parts hf _ _ := hf
  body hc := hc
  lookup {n s t f x} h hf _ :=
    ⟨h.agrees.lookup_frame_eq h.closed hf x, fun _ hv => h.closed.of_lookup hf hv⟩
  define {n s t f x e} h hf :=
    ⟨h.agrees.binds_eq hf x, fun _ hv => ⟨n, Nat.le_refl n, h.bind hf x hv⟩⟩
  assign {n s t f x e} h hf := by
    refine ⟨h.agrees.nearest_eq h.closed hf x, fun g hg v hv => ?_⟩
    exact ⟨n, Nat.le_refl n, h.bind (h.closed.of_nearest hf hg) x hv⟩
  push {n s t f e b} h hf hb := by
    refine ⟨_, Nat.le_succ n, h.push hf hb, ?_⟩
    rw [h.size_eq]
    exact (Region.succ_iff h.size_le).mpr (.inr rfl)
  makeClosure {n s t f body} params h hf := ⟨n, Nat.le_refl n, h.makeClosure params body f, hf⟩

/-- Evaluation from two stores that agree on what is reachable ends alike on both. -/
theorem eval_same (n : Nat) (e : Expr) {f : FrameId} (terminal : Terminal)
    (h : AgreesOn (s.Reaches f) s t) :
    (eval n e f ⟨s, terminal⟩).SameUpTo
      (fun cs s' t' => ∃ n', s.frames.size ≤ n' ∧ Shared (s.Reaches f) s n' s' t' ∧
        ∀ c ∈ cs, Region (s.Reaches f) s.frames.size n' c.frame)
      (eval n e f ⟨t, terminal⟩) := by
  have hf : Region (s.Reaches f) s.frames.size s.frames.size f := .inl .here
  exact supports.eval_same n hf (Shared.start (closed_reaches s f) h) terminal

end sharing

/-- What holds of the result of a run and of the machine it leaves, if there is a result. -/
def Outcome.Yields {ε α : Type} (P : α → Machine → Prop) : Outcome ε α → Prop
  | result a m => P a m
  | _ => True

/-- The second store comes about from the first without anything happening to the frames that
are out of reach from `f`: they bind what they did, and no closure was made in one of them
that is bound in a frame within reach. -/
structure Store.Confined (f : FrameId) (s s' : Store) : Prop where
  untouched : ∀ g, g < s.frames.size → ¬s.Reaches f g → s'.bindingsOf g = s.bindingsOf g
  captured : ∀ g name v, s'.Reaches f g → (s'.bindingsOf g).lookup name = some v →
    ∀ c ∈ v.closures, Region (s.Reaches f) s.frames.size s'.frames.size c.frame

theorem Shared.confined {s s' t : Store} {n : Nat} {f : FrameId}
    (h : Shared (s.Reaches f) s n s' t) : s.Confined f s' where
  untouched := h.keeps
  captured g name v hg hv := by
    have hf : Region (s.Reaches f) s.frames.size n f := .inl .here
    rw [h.size_eq]
    exact h.closed.captured (h.closed.of_reaches hf hg) hv

/-- Evaluation touches only what it can reach. Whether it succeeds or fails, the frames that
were out of reach keep their bindings, and the closures in the value and in the frames that
are then within reach were made in frames that were within reach or have been added. -/
theorem evaluation_keeps_within_reach (n : Nat) (e : Expr) (f : FrameId) (m : Machine) :
    ((eval n e f m).Leaves fun m' => m.store.Confined f m'.store) ∧
    (eval n e f m).Yields fun v m' => ∀ c ∈ v.closures,
      Region (m.store.Reaches f) m.store.frames.size m'.store.frames.size c.frame := by
  have hsame := sharing.eval_same n e m.terminal (.refl (m.store.Reaches f) m.store)
  cases heval : eval n e f m with
  | outOfFuel => exact ⟨trivial, trivial⟩
  | error err m' =>
    rw [heval] at hsame
    cases hsame with
    | error hm =>
      obtain ⟨n', -, hshared, -⟩ := hm
      exact ⟨hshared.confined, trivial⟩
  | result v m' =>
    rw [heval] at hsame
    cases hsame with
    | result hm =>
      obtain ⟨n', -, hshared, hclosures⟩ := hm
      rw [← hshared.size_eq] at hclosures
      exact ⟨hshared.confined, hclosures⟩

/-- Two runs have ended with the same value or the same error, the same output and the same
input left, in stores that agree on all that is reachable from a frame and from the value. -/
def Outcome.SameWithinReach (f : FrameId) :
    Outcome EvalError Value → Outcome EvalError Value → Prop :=
  SameUpTo fun cs s t => AgreesOn (fun g => s.Reaches f g ∨ ∃ c ∈ cs, s.Reaches c.frame g) s t

/-- State that cannot be reached does not interfere. From stores that agree on all frames
that are reachable from a frame, evaluation in that frame ends alike, and the stores it leaves
agree again. -/
theorem unreachable_state_does_not_interfere (n : Nat) (e : Expr) {f : FrameId} {s t : Store}
    (terminal : Terminal) (h : AgreesOn (s.Reaches f) s t) :
    (eval n e f ⟨s, terminal⟩).SameWithinReach f (eval n e f ⟨t, terminal⟩) := by
  apply (sharing.eval_same n e terminal h).imp
  intro cs s' t' hend
  obtain ⟨n', -, hshared, hclosures⟩ := hend
  have hf : Region (s.Reaches f) s.frames.size n' f := .inl .here
  apply hshared.agrees.mono
  intro g hg
  rcases hg with hg | ⟨c, hc, hg⟩
  · exact hshared.closed.of_reaches hf hg
  · exact hshared.closed.of_reaches (hclosures c hc) hg

/-- A frame inside of another cannot be told from outside, whatever it binds. -/
theorem inner_frame_does_not_interfere :
    let storeWith (v : Value) : Store := ⟨#[⟨none, [("x", .integer 5)]⟩, ⟨some 0, [("x", v)]⟩], 0⟩
    let e : Expr := .list [.symbol "begin",
      .list [.symbol "set!", .symbol "x", .list [.symbol "+", .symbol "x", .integer 1]],
      .list [.symbol "lambda", .list [], .symbol "x"]]
    AgreesOn ((storeWith (.integer 1)).Reaches 0) (storeWith (.integer 1)) (storeWith .void) ∧
      (storeWith (.integer 1)).lookup 1 "x" = .ok (.integer 1) ∧
      (storeWith .void).lookup 1 "x" = .ok .void ∧
      (eval 4 e 0 ⟨storeWith (.integer 1), .ofLines []⟩).SameWithinReach 0
        (eval 4 e 0 ⟨storeWith .void, .ofLines []⟩) := by
  intro storeWith e
  have hclosed : (storeWith (.integer 1)).Closed (· = 0) := by
    refine ⟨?_, ?_⟩
    · rintro g h rfl houter
      cases houter
    · rintro g name v rfl hv c hc
      have hfive : List.lookup name [("x", Value.integer 5)] = some v := hv
      rw [Bindings.lookup_cons] at hfive
      split at hfive
      · cases hfive
        cases hc
      · cases hfive
  have hagrees : AgreesOn ((storeWith (.integer 1)).Reaches 0) (storeWith (.integer 1))
      (storeWith .void) := by
    refine ⟨rfl, rfl, fun hg => ?_, fun hg => ?_⟩
    · rw [hclosed.of_reaches rfl hg]
      rfl
    · rw [hclosed.of_reaches rfl hg]
      exact fun _ => rfl
  exact ⟨hagrees, rfl, rfl, unreachable_state_does_not_interfere 4 e (.ofLines []) hagrees⟩

end LexicalLisp
