import LexicalLisp.Proofs.Evaluation.Assignment
import LexicalLisp.Proofs.Evaluation.TwinRuns
import LexicalLisp.Proofs.Store.SelfBound

/-!
# The name of a call in its own frame

A call that names its closure binds the name to the closure in the frame of the call,
so that the body can call itself. Ordinary procedures do not notice. Code comes upon
the binding only inside of that frame, and there it is the body of the closure that
runs, with the closures made in it. If the body does not mention the name, nothing is
looked up there under it; and if the name means the closure around the frame as well,
and nobody changes that, then to look it up further out makes no difference.

Both are cases of one comparison of two runs, on stores that differ in this one binding.
-/

namespace LexicalLisp

open Store

/-- A binding of a name to a closure in the frame of a call of it, and conditions on code
under which the code cannot tell whether it is there. -/
structure HiddenBinding where
  frame : FrameId
  name : String
  closure : Closure
  /-- Around the frame the name means the closure as well. -/
  settled : Prop
  /-- The condition on code that runs inside of the frame. -/
  inside : Expr → Prop
  /-- The condition on all code. -/
  anywhere : Expr → Prop
  inside_parts : ∀ {e}, inside e → ∀ e' ∈ e.parts, inside e'
  anywhere_parts : ∀ {e}, anywhere e → ∀ e' ∈ e.parts, anywhere e'
  settled_of_inside : inside (.symbol name) → settled
  inside_changes : ∀ {k e}, k ∈ [Keyword.set, .define] →
    inside (.list [.symbol k.name, .symbol name, e]) →
    ¬anywhere (.list [.symbol k.name, .symbol name, e])
  settled_changes : ∀ {k e}, k ∈ [Keyword.set, .define] → settled →
    ¬anywhere (.list [.symbol k.name, .symbol name, e])

namespace HiddenBinding

/-- The name does not occur in the code that runs inside of the frame. -/
def ofUnmentioned (k : FrameId) (name : String) (c : Closure) : HiddenBinding where
  frame := k
  name := name
  closure := c
  settled := False
  inside e := ¬(Expr.symbol name).OccursIn e
  anywhere _ := True
  inside_parts h _ he' hname := h (hname.trans (Expr.occursIn_of_mem_parts he'))
  anywhere_parts _ _ _ := trivial
  settled_of_inside h := h .here
  inside_changes _ h := absurd (.inside (by simp) .here) h
  settled_changes _ h := h.elim

/-- The name means the closure around the frame, and no code changes what it means. -/
def ofSettled (k : FrameId) (name : String) (c : Closure) : HiddenBinding where
  frame := k
  name := name
  closure := c
  settled := True
  inside _ := True
  anywhere := Expr.Spares [.set, .define] name
  inside_parts _ _ _ := trivial
  anywhere_parts h _ he' := h.of_occursIn (Expr.occursIn_of_mem_parts he')
  settled_of_inside _ := trivial
  inside_changes {k e} hk _ h := h k hk (Expr.targets_form k name [e])
  settled_changes {k e} hk _ h := h k hk (Expr.targets_form k name [e])

variable (κ : HiddenBinding) {s s' t : Store} {e : Expr} {f g : FrameId} {d : Closure} {v : Value}
  {x : String}

/-- The code meets its conditions if it runs in the frame `g`. -/
def MayRun (s : Store) (e : Expr) (g : FrameId) : Prop :=
  (κ.frame ∈ s.chain g → κ.inside e) ∧ κ.anywhere e

/-- The body of the closure meets its conditions where the closure was made. -/
def Unaware (s : Store) (d : Closure) : Prop := s.Knows d ∧ κ.MayRun s d.body d.frame

/-- The stores differ in the hidden binding, of which no closure in them is aware. -/
structure Stores (s t : Store) : Prop where
  selfBound : SelfBound κ.frame κ.name κ.closure s t
  held : ∀ d, s.Holds d → κ.Unaware s d
  around : κ.settled → s.lookup κ.closure.frame κ.name = .ok (.closure κ.closure)

variable {κ}

theorem MayRun.mono (hs : s.WellFormed) (h : s.Grows s') (hg : g < s.frames.size)
    (he : κ.MayRun s e g) : κ.MayRun s' e g := by
  unfold MayRun
  rwa [hs.chain_eq_of_extends h hg]

theorem Unaware.mono (hs : s.WellFormed) (h : s.Grows s') (hd : κ.Unaware s d) :
    κ.Unaware s' d :=
  ⟨hd.1.mono h, hd.2.mono hs h hd.1.1⟩

theorem MayRun.push (hs : s.WellFormed) (hg : g < s.frames.size) (hframe : κ.frame < s.frames.size)
    (b : Bindings) (he : κ.MayRun s e g) :
    κ.MayRun (s.push (some g) b).2 e s.frames.size := by
  refine ⟨fun hmem => ?_, he.2⟩
  rw [hs.chain_push hg] at hmem
  have hne : κ.frame ≠ s.frames.size := Nat.ne_of_lt hframe
  exact he.1 ((List.mem_cons.mp hmem).resolve_left hne)

namespace Stores

variable (h : κ.Stores s t) (hs : s.WellFormed)
include h hs

theorem bind (hx : g = κ.frame → x ≠ κ.name) (hsettled : κ.settled → x ≠ κ.name)
    (hv : ∀ d ∈ v.closures, κ.Unaware s d) :
    (s.bind g x v).WellFormed ∧ κ.Stores (s.bind g x v) (t.bind g x v) := by
  have hext : s.Grows (s.bind g x v) := .bind s g x v
  refine ⟨hs.bind x fun d hd => (hv d hd).1, h.selfBound.bind hx v, fun d hd => ?_, fun hset => ?_⟩
  · rcases holds_of_holds_bind hd with hold | hnew
    · exact (h.held d hold).mono hs hext
    · exact (hv d hnew).mono hs hext
  · rw [lookup_bind_of_ne s κ.closure.frame g v (hsettled hset).symm]
    exact h.around hset

theorem push (hg : g < s.frames.size) {b : Bindings}
    (hb : ∀ x v, b.lookup x = some v → ∀ d ∈ v.closures, κ.Unaware s d) :
    (s.push (some g) b).2.WellFormed ∧ κ.Stores (s.push (some g) b).2 (t.push (some g) b).2 := by
  have hext : s.Grows (s.push (some g) b).2 := .push s (some g) b
  have houter : κ.closure.frame < s.frames.size :=
    Nat.lt_trans (hs.outer_lt _ _ h.selfBound.outerOf_call) h.selfBound.lt_size
  refine ⟨hs.push hg fun x v hv d hd => (hb x v hv d hd).1, h.selfBound.push (some g) b,
    fun d hd => ?_, fun hset => ?_⟩
  · rcases holds_of_holds_push hd with hold | ⟨x, v, hv, hnew⟩
    · exact (h.held d hold).mono hs hext
    · exact (hb x v hv d hnew).mono hs hext
  · rw [hs.lookup_push houter]
    exact h.around hset

theorem makeClosure (params : List String) (body : Expr) (g : FrameId) :
    (s.makeClosure params body g).2.WellFormed ∧
      κ.Stores (s.makeClosure params body g).2 (t.makeClosure params body g).2 := by
  have hext : s.Grows (s.makeClosure params body g).2 := .makeClosure s params body g
  refine ⟨hs.makeClosure params body g, h.selfBound.makeClosure params body g,
    fun d hd => (h.held d hd).mono hs hext, fun hset => ?_⟩
  rw [lookup_makeClosure]
  exact h.around hset

/-- What code may look up means the same on both sides. -/
theorem lookup_eq (hx : κ.MayRun s (.symbol x) f) : s.lookup f x = t.lookup f x := by
  by_cases hinside : κ.frame ∈ s.chain f ∧ x = κ.name
  · obtain ⟨hmem, rfl⟩ := hinside
    have hsettled : κ.settled := κ.settled_of_inside (hx.1 hmem)
    exact h.selfBound.lookup_name_eq hs (h.around hsettled) hmem
  · exact h.selfBound.lookup_frame_eq fun hmem hname => hinside ⟨hmem, hname⟩

end Stores

/-- A form that changes a name is not about the hidden one inside of the frame. -/
theorem MayRun.ne_of_mem {k : Keyword} (hk : k ∈ [Keyword.set, .define])
    (he : κ.MayRun s (.list [.symbol k.name, .symbol x, e]) f) (hf : κ.frame ∈ s.chain f) :
    x ≠ κ.name := by
  rintro rfl
  exact κ.inside_changes hk (he.1 hf) he.2

theorem MayRun.ne_of_settled {k : Keyword} (hk : k ∈ [Keyword.set, .define])
    (he : κ.MayRun s (.list [.symbol k.name, .symbol x, e]) f) (hset : κ.settled) :
    x ≠ κ.name := by
  rintro rfl
  exact κ.settled_changes hk hset he.2

/-- Worlds are the first of the two stores. No closure around is aware of the binding. -/
def twins (κ : HiddenBinding) : TwinRuns where
  World := { s : Store // s.WellFormed }
  le w w' := w.1.Grows w'.1
  stores w s t := s = w.1 ∧ κ.Stores s t
  closures w := κ.Unaware w.1
  le_refl w := .refl w.1
  le_trans _ _ _ := Extends.trans
  closures_mono {u _} h _ hd := hd.mono u.2 h
  size_eq h := h.2.selfBound.size_eq
  closureCount_eq h := h.2.selfBound.closureCount_eq

abbrev world (κ : HiddenBinding) (hs : s.WellFormed) : κ.twins.World := Subtype.mk s hs

/-- Code runs in a frame that exists and where it meets its conditions. -/
def Runs (κ : HiddenBinding) (w : κ.twins.World) (e : Expr) (f : FrameId) : Prop :=
  f < w.1.frames.size ∧ κ.MayRun w.1 e f

theorem supports (κ : HiddenBinding) : κ.twins.Supports κ.Runs where
  mono {u v} h e f hrun :=
    ⟨Nat.lt_of_lt_of_le hrun.1 h.size_le, hrun.2.mono u.2 h hrun.1⟩
  parts hrun e' he' :=
    ⟨hrun.1, fun hmem => κ.inside_parts (hrun.2.1 hmem) e' he', κ.anywhere_parts hrun.2.2 e' he'⟩
  body hd := ⟨hd.1.1, hd.2⟩
  lookup := by
    rintro w _ t f x ⟨rfl, h⟩ hrun -
    exact ⟨h.lookup_eq w.2 hrun.2, fun v hv d hd => h.held d (holds_of_lookup hv hd)⟩
  define := by
    rintro w _ t f x e ⟨rfl, h⟩ ⟨-, hrun⟩
    have hx : f = κ.frame → x ≠ κ.name := by
      rintro rfl
      exact hrun.ne_of_mem (by simp) (mem_chain_self _ _)
    refine ⟨h.selfBound.binds_eq hx, fun v hv => ?_⟩
    obtain ⟨hwell, hbind⟩ := h.bind w.2 hx (hrun.ne_of_settled (by simp)) hv
    exact ⟨κ.world hwell, Grows.bind w.1 f x v, rfl, hbind⟩
  assign := by
    rintro w _ t f x e ⟨rfl, h⟩ ⟨-, hrun⟩
    refine ⟨h.selfBound.nearest_eq (hrun.ne_of_mem (by simp)), fun g hg v hv => ?_⟩
    -- The search came to `g`, so the code runs inside of it.
    have hx : g = κ.frame → x ≠ κ.name := by
      rintro rfl
      exact hrun.ne_of_mem (by simp) (List.mem_of_find?_eq_some hg)
    obtain ⟨hwell, hbind⟩ := h.bind w.2 hx (hrun.ne_of_settled (by simp)) hv
    exact ⟨κ.world hwell, Grows.bind w.1 g x v, rfl, hbind⟩
  push := by
    rintro w _ t f e b ⟨rfl, h⟩ ⟨hf, hrun⟩ hb
    obtain ⟨hwell, hpush⟩ := h.push w.2 hf hb
    have hlast : w.1.frames.size < (w.1.push (some f) b).2.frames.size := by simp
    have hnew : κ.MayRun (w.1.push (some f) b).2 e w.1.frames.size :=
      hrun.push w.2 hf h.selfBound.lt_size b
    exact ⟨κ.world hwell, Grows.push w.1 (some f) b, ⟨rfl, hpush⟩, hlast, hnew⟩
  makeClosure := by
    rintro w _ t f body params ⟨rfl, h⟩ ⟨hf, hrun⟩
    have hext : w.1.Grows (w.1.makeClosure params body f).2 := .makeClosure w.1 params body f
    obtain ⟨hwell, hmake⟩ := h.makeClosure w.2 params body f
    exact ⟨κ.world hwell, hext, ⟨rfl, hmake⟩, ⟨hf, Nat.lt_succ_self _⟩, hrun.mono w.2 hext hf⟩

end HiddenBinding

end LexicalLisp
