import LexicalLisp.Proofs.Evaluation.BindsOnce
import LexicalLisp.Proofs.Session.Rollback
import LexicalLisp.Proofs.Store.Chain

/-!
# Hosts

A host opens frames, binds names in them, looks values up and has code evaluated. It keeps
the values that it is given and copies of the bindings of frames, which it may put back at
any time and into any frame. Whatever it does, in whatever order and with whatever success,
the links between the frames form no circle and are never changed, so that every search
along them ends; and no closure that can be found anywhere was made in a frame that does
not exist.
-/

namespace LexicalLisp

namespace Store

/-- The frames there were are still there, inside of the same frames. -/
structure Persists (s s' : Store) : Prop where
  size_le : s.frames.size ≤ s'.frames.size
  closureCount_le : s.closureCount ≤ s'.closureCount
  outerOf_eq : ∀ g, g < s.frames.size → s'.outerOf g = s.outerOf g

/-- There are no dangling links in the store, and no frame binds a name twice. -/
structure Orderly (s : Store) : Prop where
  wellFormed : s.WellFormed
  once : s.BindsOnce

variable {s s' s'' : Store} {f : FrameId}

theorem Extends.persists {closed : FrameId → Prop} (h : s.Extends closed s') : s.Persists s' :=
  ⟨h.size_le, h.closureCount_le, h.outerOf_eq⟩

namespace Persists

theorem refl (s : Store) : s.Persists s := ⟨Nat.le_refl _, Nat.le_refl _, fun _ _ => rfl⟩

theorem trans (h : s.Persists s') (h' : s'.Persists s'') : s.Persists s'' where
  size_le := Nat.le_trans h.size_le h'.size_le
  closureCount_le := Nat.le_trans h.closureCount_le h'.closureCount_le
  outerOf_eq g hg := (h'.outerOf_eq g (Nat.lt_of_lt_of_le hg h.size_le)).trans (h.outerOf_eq g hg)

theorem setBindings (s : Store) (f : FrameId) (b : Bindings) : s.Persists (s.setBindings f b) :=
  ⟨by simp, by simp, fun g _ => by simp⟩

theorem knows (h : s.Persists s') {c : Closure} (hc : s.Knows c) : s'.Knows c :=
  ⟨Nat.lt_of_lt_of_le hc.1 h.size_le, Nat.lt_of_lt_of_le hc.2 h.closureCount_le⟩

end Persists

/-- From the frame on, the links lead through these frames to one that has none around it. -/
inductive Outward (s : Store) : FrameId → List FrameId → Prop
  | root {f : FrameId} : s.outerOf f = none → Outward s f [f]
  | step {f g : FrameId} {gs : List FrameId} :
    s.outerOf f = some g → Outward s g gs → Outward s f (f :: gs)

theorem length_chainFrom_le (s : Store) (n : Nat) (f : FrameId) :
    (s.chainFrom n f).length ≤ n := by
  induction n generalizing f with
  | zero => exact Nat.le_refl 0
  | succ n ih =>
    unfold chainFrom
    cases s.outerOf f with
    | none => simp
    | some g => simpa using ih g

theorem length_chain_le (hf : f < s.frames.size) : (s.chain f).length ≤ s.frames.size :=
  Nat.le_trans (s.length_chainFrom_le (f + 1) f) hf

/-- The bound on the length of a search is never the reason why it ends. -/
theorem WellFormed.outward_chain (hs : s.WellFormed) (f : FrameId) : s.Outward f (s.chain f) := by
  induction f using Nat.strongRecOn with
  | ind f ih =>
    cases houter : s.outerOf f with
    | none =>
      have hchain : s.chain f = [f] := by simp [chain, chainFrom, houter]
      rw [hchain]
      exact .root houter
    | some g =>
      rw [hs.chain_of_outer houter]
      exact .step houter (ih g (hs.outer_lt f g houter))

theorem Orderly.knows_bound (hs : s.Orderly) {p : String × Value} (hp : p ∈ s.bindingsOf f) :
    ∀ c ∈ p.2.closures, s.Knows c := by
  intro c hc
  have hlookup : (s.bindingsOf f).lookup p.1 = some p.2 := Bindings.lookup_eq_of_mem (hs.once f) hp
  exact hs.wellFormed.knows_held c ⟨f, p.1, p.2, hlookup, hc⟩

end Store

open Store

/-- The run has kept the store orderly and the links as they are, and knows the closures in
its value. -/
def Outcome.KeepsOrder {ε : Type} (s : Store) : Outcome ε Value → Prop
  | .result v m => (s.Persists m.store ∧ m.store.Orderly) ∧ ∀ c ∈ v.closures, m.store.Knows c
  | .error _ m => s.Persists m.store ∧ m.store.Orderly
  | .outOfFuel => True

namespace Session

variable {f : FrameId} {m : Machine}

theorem run_keepsOrder (n : Nat) (program : List Expr) (hm : m.store.Orderly)
    (hf : f < m.store.frames.size) : (run n program f m).KeepsOrder m.store := by
  have hwell := wellFormed.sound.run_keeps n hf (fun e (_ : e ∈ program) => trivial)
    ⟨rfl, hm.wellFormed⟩
  have honce := run_bindsOnce n program f hm.once
  cases hrun : run n program f m with
  | outOfFuel => trivial
  | result v m' =>
    rw [hrun] at hwell honce
    obtain ⟨_, hgrows, ⟨rfl, hm'⟩, hv⟩ := hwell
    exact ⟨⟨hgrows.persists, hm', honce⟩, hv⟩
  | error e m' =>
    rw [hrun] at hwell honce
    obtain ⟨-, _, hgrows, rfl, hm'⟩ := hwell
    exact ⟨hgrows.persists, hm', honce⟩

theorem eval_keepsOrder (n : Nat) (e : Expr) (hm : m.store.Orderly)
    (hf : f < m.store.frames.size) : (eval n e f m).KeepsOrder m.store := by
  have hrun : run n [e] f = eval n e f := bind_pure (eval n e f)
  rw [← hrun]
  exact run_keepsOrder n [e] hm hf

theorem runText_keepsOrder (n : Nat) (text : String) (hm : m.store.Orderly)
    (hf : f < m.store.frames.size) : (runText n text f m).KeepsOrder m.store := by
  unfold runText runLines
  cases parseLines (Text.lines text) with
  | error e => exact ⟨.refl m.store, hm⟩
  | ok program =>
    have hrun := run_keepsOrder n program hm hf
    simp only [Run.mapError]
    cases h : run n program f m with
    | result v m' => rwa [h] at hrun
    | error e m' => rwa [h] at hrun
    | outOfFuel => trivial

theorem submit_keepsOrder (n : Nat) (text : String) (hm : m.store.Orderly)
    (hf : f < m.store.frames.size) : (submit n text f m).KeepsOrder m.store := by
  cases hparse : parse text with
  | error e =>
    rw [submit_of_parse_error n text hparse]
    exact ⟨.refl m.store, hm⟩
  | ok program =>
    have hrun := runText_keepsOrder n text hm hf
    rw [submit_of_parse_ok n text hparse]
    simp only [protect]
    cases h : runText n text f m with
    | result v m' => rwa [h] at hrun
    | outOfFuel => trivial
    | error e m' =>
      rw [h] at hrun
      obtain ⟨hpersists, hm'⟩ := hrun
      -- What is put back was bound before, and what was known then still is.
      refine ⟨hpersists.trans (.setBindings ..), ?_, hm'.once.setBindings f (hm.once f)⟩
      refine hm'.wellFormed.setBindings fun x v hv c hc => ?_
      exact hpersists.knows (hm.wellFormed.knows_held c ⟨f, x, v, hv, hc⟩)

end Session

/-- A store, and what someone who works with it has kept. -/
structure Host where
  store : Store
  /-- Bindings of frames, as they were at some time. -/
  snapshots : List Bindings
  values : List Value

namespace Host

def start : Host := ⟨Store.empty, [], []⟩

/-- The closure can be found, by itself or inside of lists, among the bindings of a frame or
of a snapshot, or in a value that was given to the host. -/
def Finds (h : Host) (c : Closure) : Prop :=
  (∃ f, ∃ p ∈ h.store.bindingsOf f, c ∈ p.2.closures) ∨
  (∃ b ∈ h.snapshots, ∃ p ∈ b, c ∈ p.2.closures) ∨
  ∃ v ∈ h.values, c ∈ v.closures

/-- A value that the host can come by: the closures in it can be found. -/
def AtHand (h : Host) (v : Value) : Prop := ∀ c ∈ v.closures, h.Finds c

def after {ε : Type} (h : Host) : Outcome ε Value → Option Host
  | .result v m => some { h with store := m.store, values := v :: h.values }
  | .error _ m => some { h with store := m.store }
  | .outOfFuel => none

/-- What a host may do, and what becomes of the store whether it succeeds or fails. To
create a global frame is to open one inside of none that binds nothing. -/
inductive Step (h : Host) : Host → Prop
  | openFrame (outer : Option FrameId) (pairs : List (String × Value)) :
    (∀ f, outer = some f → f < h.store.frames.size) → (∀ p ∈ pairs, h.AtHand p.2) →
    Step h { h with store := (h.store.pushPairs outer pairs).2 }
  | openCall (c : Closure) (self? : Option String) (args : List Value) :
    h.Finds c → (∀ v ∈ args, h.AtHand v) →
    Step h { h with store := (h.store.pushCall c self? args).2 }
  | define (f : FrameId) (x : String) (v : Value) : f < h.store.frames.size → h.AtHand v →
    Step h { h with store := (h.store.define f x v).2 }
  | assign (f : FrameId) (x : String) (v : Value) : f < h.store.frames.size → h.AtHand v →
    Step h { h with store := (h.store.assign f x v).2 }
  | bind (f : FrameId) (x : String) (v : Value) : f < h.store.frames.size → h.AtHand v →
    Step h { h with store := h.store.bind f x v }
  | lookup (f : FrameId) (x : String) (v : Value) : h.store.lookup f x = .ok v →
    Step h { h with values := v :: h.values }
  | copy (f g : FrameId) (x y : String) (v : Value) : h.store.lookup f x = .ok v →
    g < h.store.frames.size → Step h { h with store := (h.store.define g y v).2 }
  | snapshot (f : FrameId) : f < h.store.frames.size →
    Step h { h with snapshots := h.store.bindingsOf f :: h.snapshots }
  | restore (f : FrameId) (b : Bindings) : f < h.store.frames.size → b ∈ h.snapshots →
    Step h { h with store := h.store.setBindings f b }
  | evaluate (n : Nat) (e : Expr) (f : FrameId) (terminal : Terminal) {h' : Host} :
    f < h.store.frames.size → h.after (eval n e f ⟨h.store, terminal⟩) = some h' → Step h h'
  | runText (n : Nat) (text : String) (f : FrameId) (terminal : Terminal) {h' : Host} :
    f < h.store.frames.size →
    h.after (Session.runText n text f ⟨h.store, terminal⟩) = some h' → Step h h'
  | submit (n : Nat) (text : String) (f : FrameId) (terminal : Terminal) {h' : Host} :
    f < h.store.frames.size →
    h.after (Session.submit n text f ⟨h.store, terminal⟩) = some h' → Step h h'

abbrev Leads : Host → Host → Prop := Relation.ReflTransGen Step

/-- The store is in order, and so is all that was kept. -/
structure Orderly (h : Host) : Prop where
  store : h.store.Orderly
  snapshots : ∀ b ∈ h.snapshots, b.names.Nodup
  knows : ∀ c, h.Finds c → h.store.Knows c

theorem start_orderly : start.Orderly where
  store := by
    refine ⟨⟨fun f g h => ?_, fun c hc => ?_⟩, .empty⟩
    · cases h
    · obtain ⟨f, x, v, hv, -⟩ := hc
      cases hv
  snapshots := nofun
  knows := by
    rintro c (⟨f, p, hp, -⟩ | ⟨b, hb, -⟩ | ⟨v, hv, -⟩)
    · cases hp
    · cases hb
    · cases hv

namespace Orderly

variable {h h' : Host} {s : Store} {α ε : Type}

theorem withStore (hh : h.Orderly) (hs : h.store.Persists s ∧ s.Orderly) :
    Orderly { h with store := s } where
  store := hs.2
  snapshots := hh.snapshots
  knows := by
    rintro c (⟨f, p, hp, hc⟩ | hkept)
    · exact hs.2.knows_bound hp c hc
    · exact hs.1.knows (hh.knows c (.inr hkept))

theorem withValue (hh : h.Orderly) {v : Value} (hv : ∀ c ∈ v.closures, h.store.Knows c) :
    Orderly { h with values := v :: h.values } where
  store := hh.store
  snapshots := hh.snapshots
  knows := by
    rintro c (hbound | hsnapshot | ⟨w, hw, hc⟩)
    · exact hh.knows c (.inl hbound)
    · exact hh.knows c (.inr (.inl hsnapshot))
    · rcases List.mem_cons.mp hw with rfl | hold
      · exact hv c hc
      · exact hh.knows c (.inr (.inr ⟨w, hold, hc⟩))

theorem withSnapshot (hh : h.Orderly) (f : FrameId) :
    Orderly { h with snapshots := h.store.bindingsOf f :: h.snapshots } where
  store := hh.store
  snapshots b hb := by
    rcases List.mem_cons.mp hb with rfl | hold
    · exact hh.store.once f
    · exact hh.snapshots b hold
  knows := by
    rintro c (hbound | ⟨b, hb, p, hp, hc⟩ | hvalue)
    · exact hh.knows c (.inl hbound)
    · rcases List.mem_cons.mp hb with rfl | hold
      · exact hh.knows c (.inl ⟨f, p, hp, hc⟩)
      · exact hh.knows c (.inr (.inl ⟨b, hold, p, hp, hc⟩))
    · exact hh.knows c (.inr (.inr hvalue))

theorem withActs {P : Store → α → Prop} {r : Except NameError α × Store} (hh : h.Orderly)
    (hwell : wellFormed.Acts h.store P r) (honce : r.2.BindsOnce) :
    h.store.Persists r.2 ∧ Orderly { h with store := r.2 } := by
  obtain ⟨_, hgrows, ⟨rfl, hs⟩, -⟩ := hwell
  exact ⟨hgrows.persists, hh.withStore ⟨hgrows.persists, hs, honce⟩⟩

theorem withOutcome {o : Outcome ε Value} (hh : h.Orderly) (ho : o.KeepsOrder h.store)
    (hafter : h.after o = some h') : h.store.Persists h'.store ∧ h'.Orderly := by
  cases o with
  | outOfFuel => cases hafter
  | error e m =>
    cases hafter
    exact ⟨ho.1, hh.withStore ho⟩
  | result v m =>
    cases hafter
    exact ⟨ho.1.1, (hh.withStore ho.1).withValue ho.2⟩

theorem openFrame (hh : h.Orderly) {outer : Option FrameId} {pairs : List (String × Value)}
    (houter : ∀ f, outer = some f → f < h.store.frames.size)
    (hpairs : ∀ p ∈ pairs, h.AtHand p.2) :
    h.store.Persists (h.store.pushPairs outer pairs).2 ∧
      Orderly { h with store := (h.store.pushPairs outer pairs).2 } := by
  have honce := hh.store.once.pushPairs outer pairs
  have hkeeps : h.store.Persists (h.store.pushPairs outer pairs).2 ∧
      (h.store.pushPairs outer pairs).2.WellFormed := by
    rw [pushPairs_eq]
    cases hb : Bindings.extend [] pairs with
    | error e => exact ⟨.refl h.store, hh.store.wellFormed⟩
    | ok b =>
      have hknown : ∀ x v, b.lookup x = some v → ∀ c ∈ v.closures, h.store.Knows c :=
        fun x v hv => closures_of_extend (fun p hp c hc => hh.knows c (hpairs p hp c hc)) hb hv
      have hgrows : h.store.Grows (h.store.push outer b).2 := .push h.store outer b
      exact ⟨hgrows.persists, hh.store.wellFormed.push_inside houter hknown⟩
  exact ⟨hkeeps.1, hh.withStore ⟨hkeeps.1, hkeeps.2, honce⟩⟩

theorem step (hh : h.Orderly) (hstep : h.Step h') : h.store.Persists h'.store ∧ h'.Orderly := by
  have hwell := hh.store.wellFormed
  have hknown : ∀ {v}, h.AtHand v → ∀ c ∈ v.closures, h.store.Knows c :=
    fun hv c hc => hh.knows c (hv c hc)
  cases hstep with
  | openFrame outer pairs houter hpairs => exact hh.openFrame houter hpairs
  | openCall c self? args hc hargs =>
    have hcall : wellFormed.Acts h.store (fun s f => f < s.frames.size)
        (h.store.pushCall c self? args) := by
      rw [pushCall_eq]
      exact wellFormed.push_acts hwell (hh.knows c hc).1 fun b hb x v hv =>
        closures_of_callBindings (hh.knows c hc) (fun w hw => hknown (hargs w hw)) hb hv
    exact hh.withActs hcall (hh.store.once.pushCall c self? args)
  | define f x v hf hv =>
    have hdefine : wellFormed.Acts h.store wellFormed.NoResult (h.store.define f x v) :=
      wellFormed.sound.define (e := .null) ⟨rfl, hwell⟩ hf trivial (hknown hv)
    exact hh.withActs hdefine (hh.store.once.define f x v)
  | assign f x v hf hv =>
    have hassign : wellFormed.Acts h.store wellFormed.NoResult (h.store.assign f x v) :=
      wellFormed.sound.assign (e := .null) ⟨rfl, hwell⟩ hf trivial (hknown hv)
    exact hh.withActs hassign (hh.store.once.assign f x v)
  | bind f x v hf hv =>
    have hbind := wellFormed.bind_acts hwell f x (hknown hv)
    exact hh.withActs hbind (hh.store.once.bind f x v)
  | lookup f x v hv =>
    have hclosures : ∀ c ∈ v.closures, h.store.Knows c :=
      fun c hc => hwell.knows_held c (holds_of_lookup hv hc)
    exact ⟨.refl h.store, hh.withValue hclosures⟩
  | copy f g x y v hv hg =>
    have hclosures : ∀ c ∈ v.closures, h.store.Knows c :=
      fun c hc => hwell.knows_held c (holds_of_lookup hv hc)
    have hdefine : wellFormed.Acts h.store wellFormed.NoResult (h.store.define g y v) :=
      wellFormed.sound.define (e := .null) ⟨rfl, hwell⟩ hg trivial hclosures
    exact hh.withActs hdefine (hh.store.once.define g y v)
  | snapshot f hf => exact ⟨.refl h.store, hh.withSnapshot f⟩
  | restore f b hf hb =>
    have hpersists := Persists.setBindings h.store f b
    refine ⟨hpersists, hh.withStore ⟨hpersists, ?_, hh.store.once.setBindings f ?_⟩⟩
    · refine hwell.setBindings fun x v hv c hc => ?_
      exact hh.knows c (.inr (.inl ⟨b, hb, (x, v), Bindings.mem_of_lookup hv, hc⟩))
    · exact hh.snapshots b hb
  | evaluate n e f terminal hf hafter =>
    exact hh.withOutcome (Session.eval_keepsOrder n e hh.store hf) hafter
  | runText n text f terminal hf hafter =>
    exact hh.withOutcome (Session.runText_keepsOrder n text hh.store hf) hafter
  | submit n text f terminal hf hafter =>
    exact hh.withOutcome (Session.submit_keepsOrder n text hh.store hf) hafter

theorem leads (hh : h.Orderly) (hleads : h.Leads h') : h.store.Persists h'.store ∧ h'.Orderly := by
  induction hleads with
  | refl => exact ⟨.refl h.store, hh⟩
  | tail _ hstep ih =>
    obtain ⟨hpersists, hmid⟩ := ih
    obtain ⟨hnext, hend⟩ := hmid.step hstep
    exact ⟨hpersists.trans hnext, hend⟩

end Orderly

/-- The frame graph stays well formed. Whatever a host has done, every link leads from a
frame that exists to an older one and is never changed afterwards; frames bind a name at
most once; every closure that can be found was made in a frame that exists. So the links
lead outward from each frame, through no more frames than there are, to one with no frame
around it. Names are looked up, assigned and listed along these frames. -/
theorem frame_graph_stays_well_formed {h : Host} (hstart : start.Leads h) :
    (∀ f g, h.store.outerOf f = some g → g < f ∧ f < h.store.frames.size) ∧
    (∀ h', h.Leads h' → ∀ f, f < h.store.frames.size →
      h'.store.outerOf f = h.store.outerOf f) ∧
    (∀ f, (h.store.bindingsOf f).names.Nodup) ∧
    (∀ c, h.Finds c → c.frame < h.store.frames.size) ∧
    ∀ f, f < h.store.frames.size →
      h.store.Outward f (h.store.chain f) ∧ (h.store.chain f).length ≤ h.store.frames.size := by
  have hh : h.Orderly := (start_orderly.leads hstart).2
  refine ⟨fun f g houter => ?_, fun h' hleads => ?_, hh.store.once, fun c hc => ?_, fun f hf => ?_⟩
  · exact ⟨hh.store.wellFormed.outer_lt f g houter, lt_size_of_outerOf houter⟩
  · exact (hh.leads hleads).1.outerOf_eq
  · exact (hh.knows c hc).1
  · exact ⟨hh.store.wellFormed.outward_chain f, length_chain_le hf⟩

/-- A host takes a snapshot of an empty frame and has a procedure defined there that it also
binds in a frame further in. An evaluation fails, and the host puts the snapshot back. The
procedure is still found in the frame further in. -/
theorem restored_frame_is_well_formed :
    let loop : Closure := ⟨0, [], .list [.symbol "loop"], 0⟩
    ∃ h : Host, start.Leads h ∧ h.store.bindingsOf 0 = [] ∧ h.Finds loop ∧
      loop.frame < h.store.frames.size ∧ h.store.Outward 1 [1, 0] := by
  intro loop
  let inner : Frame := ⟨some 0, [("again", .closure loop)]⟩
  let opened : Host := ⟨⟨#[⟨none, []⟩], 0⟩, [], []⟩
  let defined : Host := ⟨⟨#[⟨none, [("loop", .closure loop)]⟩], 1⟩, [[]], [.void]⟩
  let further : Host := ⟨⟨#[⟨none, [("loop", .closure loop)]⟩, inner], 1⟩, [[]], [.void]⟩
  let failed : Host :=
    ⟨⟨#[⟨none, [("loop", .closure loop), ("y", .integer 1)]⟩, inner], 1⟩, [[]], [.void]⟩
  let restored : Host := ⟨⟨#[⟨none, []⟩, inner], 1⟩, [[]], [.void]⟩
  have hopen : start.Step opened := .openFrame none [] nofun nofun
  have hsnapshot : opened.Step { opened with snapshots := [[]] } := .snapshot 0 Nat.zero_lt_one
  have hdefine : Step { opened with snapshots := [[]] } defined :=
    .evaluate 2 (.list [.symbol "define", .symbol "loop",
      .list [.symbol "lambda", .list [], loop.body]]) 0 (.ofLines []) Nat.zero_lt_one rfl
  have hfurther : defined.Step further := by
    refine .openFrame (some 0) inner.bindings (fun f hf => ?_) fun p hp c hc => ?_
    · cases hf
      exact Nat.zero_lt_one
    · obtain rfl : p = ("again", .closure loop) := List.mem_singleton.mp hp
      exact .inl ⟨0, ("loop", .closure loop), List.mem_cons_self, hc⟩
  have hfail : further.Step failed :=
    .evaluate 3 (.list [.symbol "begin", .list [.symbol "define", .symbol "y", .integer 1],
      .list [.symbol "car", .integer 2]]) 0 (.ofLines []) Nat.zero_lt_two rfl
  have hrestore : failed.Step restored := .restore 0 [] Nat.zero_lt_two List.mem_cons_self
  have hleads : start.Leads restored :=
    ((((Relation.ReflTransGen.single hopen).tail hsnapshot).tail hdefine).tail hfurther).tail
      hfail |>.tail hrestore
  have hfound : restored.Finds loop :=
    .inl ⟨1, ("again", .closure loop), List.mem_cons_self, List.mem_cons_self⟩
  obtain ⟨-, -, -, hcaptured, hsearch⟩ := frame_graph_stays_well_formed hleads
  exact ⟨restored, hleads, rfl, hfound, hcaptured loop hfound, (hsearch 1 Nat.one_lt_two).1⟩

end Host

end LexicalLisp
