import LexicalLisp.Proofs.Evaluation.Redefinition
import LexicalLisp.Proofs.Scoping.Visibility
import LexicalLisp.Proofs.Session.Host

/-!
# Parameters are distinct

That a closure has each of its parameters once is checked when it is made, and it is never checked
again. It holds of all closures that a host can find, whatever it has done, so the frame of a call
with the right number of arguments can always be built. That a name is bound already is therefore
never an error of a call.
-/

namespace LexicalLisp

def Value.DistinctParams (v : Value) : Prop := ∀ c ∈ v.closures, c.params.Nodup

def Store.DistinctParams (s : Store) : Prop := ∀ c, s.Holds c → c.params.Nodup

theorem Bindings.exists_extend_of_nodup {ps : List (String × Value)} (h : (names ps).Nodup) :
    ∃ b, extend [] ps = .ok b := by
  cases hextend : extend [] ps with
  | ok b => exact ⟨b, rfl⟩
  | error e =>
    obtain ⟨name, rfl⟩ := exists_of_extend_error hextend
    exact absurd h (extend_nil_eq_error_iff.mp hextend).not_nodup

theorem Run.exists_pushCall {c : Closure} (hc : c.params.Nodup) (self? : Option String)
    {args : List Value} (hlength : args.length = c.params.length) (m : Machine) :
    ∃ inner m', pushCall c self? args m = .result inner m' := by
  have hnames : Bindings.names (c.params.zip args) = c.params :=
    List.map_fst_zip (Nat.le_of_eq hlength.symm)
  obtain ⟨b, hb⟩ := Bindings.exists_extend_of_nodup (hnames.symm ▸ hc)
  refine ⟨m.store.frames.size, ⟨(m.store.pushCall c self? args).2, m.terminal⟩, ?_⟩
  refine onStore_eq_result_iff.mpr ⟨Prod.ext ?_ rfl, rfl⟩
  rw [Store.pushCall_eq, Store.callBindings, hb]
  rfl

namespace Store.DistinctParams

variable {s : Store} {f : FrameId} {b : Bindings} (h : s.DistinctParams)
include h

theorem lookup {name : String} {v : Value} (hv : s.lookup f name = .ok v) : v.DistinctParams :=
  fun c hc => h c (holds_of_lookup hv hc)

theorem bound {name : String} {v : Value} (hv : (s.bindingsOf f).lookup name = some v) :
    v.DistinctParams := fun c hc => h c ⟨f, name, v, hv, hc⟩

theorem setBindings (hb : ∀ name v, b.lookup name = some v → v.DistinctParams) :
    (s.setBindings f b).DistinctParams := by
  intro c hc
  rcases holds_of_holds_setBindings hc with hold | ⟨name, v, hv, hnew⟩
  · exact h c hold
  · exact hb name v hv c hnew

theorem bind (name : String) {v : Value} (hv : v.DistinctParams) :
    (s.bind f name v).DistinctParams := by
  intro c hc
  rcases holds_of_holds_bind hc with hold | hnew
  · exact h c hold
  · exact hv c hnew

theorem define (name : String) {v : Value} (hv : v.DistinctParams) :
    (s.define f name v).2.DistinctParams := by
  unfold Store.define
  split
  · exact h
  · exact h.bind name hv

theorem assign (name : String) {v : Value} (hv : v.DistinctParams) :
    (s.assign f name v).2.DistinctParams := by
  unfold Store.assign
  split
  · exact h.bind name hv
  · exact h

theorem pushResult (outer : Option FrameId) {b? : Except NameError Bindings}
    (hb : ∀ b, b? = .ok b → ∀ name v, b.lookup name = some v → v.DistinctParams) :
    (s.pushResult outer b?).2.DistinctParams := by
  cases b? with
  | error e => exact h
  | ok b =>
    intro c hc
    rcases holds_of_holds_push hc with hold | ⟨name, v, hv, hnew⟩
    · exact h c hold
    · exact hb b rfl name v hv c hnew

theorem pushPairs (outer : Option FrameId) {pairs : List (String × Value)}
    (hpairs : ∀ p ∈ pairs, p.2.DistinctParams) : (s.pushPairs outer pairs).2.DistinctParams :=
  h.pushResult outer fun _ hb _ _ hv => closures_of_extend hpairs hb hv

theorem pushCall {c : Closure} (hc : c.params.Nodup) (self? : Option String) {args : List Value}
    (hargs : ∀ v ∈ args, v.DistinctParams) : (s.pushCall c self? args).2.DistinctParams := by
  rw [pushCall_eq]
  exact h.pushResult _ fun _ hb _ _ hv => closures_of_callBindings hc hargs hb hv

end Store.DistinctParams

def distinctParams : Invariant where
  World := Unit
  le _ _ := True
  holds _ := Store.DistinctParams
  closures _ c := c.params.Nodup
  tolerates _ := True
  le_refl _ := trivial
  le_trans _ _ _ _ _ := trivial
  closures_mono _ _ h := h
  tolerates_local _ := trivial

namespace distinctParams

theorem acts {α : Type} {w : distinctParams.World} {P : distinctParams.World → α → Prop}
    {r : Except NameError α × Store} (h : r.2.DistinctParams) (hP : ∀ a, r.1 = .ok a → P w a) :
    distinctParams.Acts w P r := Invariant.acts_of_holds h hP fun _ _ => trivial

/-- It is enough that parameters are distinct where a closure is made. -/
theorem sound : distinctParams.Sound (fun _ _ => True) (fun _ => True) where
  frames_mono _ _ h := h
  parts _ _ _ := trivial
  body _ := trivial
  lookup h _ _ _ := acts h fun _ hv => h.lookup hv
  define h _ _ hv := acts (h.define _ hv) fun _ _ => trivial
  assign h _ _ hv := acts (h.assign _ hv) fun _ _ => trivial
  openLet h _ hps := acts (h.pushPairs _ hps) fun _ _ => trivial
  openCall h hc hvs _ := acts (h.pushCall hc _ hvs) fun _ _ => trivial
  makeClosure h _ _ hparams := ⟨(), trivial, h, hparams⟩
  refused _ := trivial
  endOfInput := trivial

end distinctParams

def Outcome.DistinctParams {ε : Type} : Outcome ε Value → Prop
  | .result v m => m.store.DistinctParams ∧ v.DistinctParams
  | .error _ m => m.store.DistinctParams
  | .outOfFuel => True

theorem Invariant.Ends.distinctParams {o : Outcome EvalError Value}
    (h : distinctParams.Ends () distinctParams.Values o) : o.DistinctParams := by
  cases o with
  | result v m =>
    obtain ⟨_, -, hm, hv⟩ := h
    exact ⟨hm, hv⟩
  | error e m =>
    obtain ⟨-, _, -, hm⟩ := h
    exact hm
  | outOfFuel => trivial

namespace Session

variable {f : FrameId} {m : Machine}

theorem runText_distinctParams (n : Nat) (text : String) (hm : m.store.DistinctParams) :
    (runText n text f m).DistinctParams := by
  unfold runText runLines
  cases parseLines (Text.lines text) with
  | error e => exact hm
  | ok program =>
    have hrun := (distinctParams.sound.run_keeps n (w := ()) (f := f) trivial
      (fun e (_ : e ∈ program) => trivial) hm).distinctParams
    simp only [Run.mapError]
    cases h : run n program f m with
    | result v m' => rwa [h] at hrun
    | error e m' => rwa [h] at hrun
    | outOfFuel => trivial

theorem submit_distinctParams (n : Nat) (text : String) (hm : m.store.DistinctParams) :
    (submit n text f m).DistinctParams := by
  cases hparse : parse text with
  | error e =>
    rw [submit_of_parse_error n text hparse]
    exact hm
  | ok program =>
    have hrun := runText_distinctParams n text (f := f) hm
    rw [submit_of_parse_ok n text hparse]
    simp only [protect]
    cases h : runText n text f m with
    | result v m' => rwa [h] at hrun
    | outOfFuel => trivial
    | error e m' =>
      rw [h] at hrun
      exact Store.DistinctParams.setBindings hrun fun _ _ hv => hm.bound hv

end Session

namespace Host

/-- All closures that the host has to do with have distinct parameters. -/
structure DistinctParams (h : Host) : Prop where
  store : h.store.DistinctParams
  snapshots : ∀ b ∈ h.snapshots, ∀ p ∈ b, p.2.DistinctParams
  values : ∀ v ∈ h.values, v.DistinctParams

namespace DistinctParams

variable {h h' : Host}

theorem start : Host.start.DistinctParams where
  store := by
    rintro c ⟨f, name, v, ⟨⟩, -⟩
  snapshots := nofun
  values := nofun

theorem finds (hd : h.DistinctParams) (hh : h.Orderly) {c : Closure} (hc : h.Finds c) :
    c.params.Nodup := by
  rcases hc with ⟨f, p, hp, hc⟩ | ⟨b, hb, p, hp, hc⟩ | ⟨v, hv, hc⟩
  · exact hd.store.bound (Bindings.lookup_eq_of_mem (hh.store.once f) hp) c hc
  · exact hd.snapshots b hb p hp c hc
  · exact hd.values v hv c hc

theorem withValue (hd : h.DistinctParams) {v : Value} (hv : v.DistinctParams) :
    DistinctParams { h with values := v :: h.values } where
  store := hd.store
  snapshots := hd.snapshots
  values := List.forall_mem_cons.mpr ⟨hv, hd.values⟩

theorem withStore (hd : h.DistinctParams) {s : Store} (hs : s.DistinctParams) :
    DistinctParams { h with store := s } := ⟨hs, hd.snapshots, hd.values⟩

theorem withOutcome (hd : h.DistinctParams) {ε : Type} {o : Outcome ε Value} (ho : o.DistinctParams)
    (hafter : h.after o = some h') : h'.DistinctParams := by
  cases o with
  | outOfFuel => cases hafter
  | error e m =>
    cases hafter
    exact hd.withStore ho
  | result v m =>
    cases hafter
    exact (hd.withStore ho.1).withValue ho.2

theorem step (hd : h.DistinctParams) (hh : h.Orderly) (hstep : h.Step h') :
    h'.DistinctParams := by
  have hhand : ∀ {v}, h.AtHand v → v.DistinctParams := fun hv c hc => hd.finds hh (hv c hc)
  cases hstep with
  | openFrame outer pairs _ hpairs =>
    exact hd.withStore (hd.store.pushPairs outer fun p hp => hhand (hpairs p hp))
  | openCall c self? args hc hargs =>
    have hcall := hd.store.pushCall (hd.finds hh hc) self? fun v hv => hhand (hargs v hv)
    exact hd.withStore hcall
  | define f x v _ hv => exact hd.withStore (hd.store.define x (hhand hv))
  | assign f x v _ hv => exact hd.withStore (hd.store.assign x (hhand hv))
  | bind f x v _ hv => exact hd.withStore (hd.store.bind x (hhand hv))
  | lookup f x v hv => exact hd.withValue (hd.store.lookup hv)
  | copy f g x y v hv _ => exact hd.withStore (hd.store.define y (hd.store.lookup hv))
  | snapshot f _ =>
    have hbound : ∀ p ∈ h.store.bindingsOf f, p.2.DistinctParams := fun p hp =>
      hd.store.bound (Bindings.lookup_eq_of_mem (hh.store.once f) hp)
    exact ⟨hd.store, List.forall_mem_cons.mpr ⟨hbound, hd.snapshots⟩, hd.values⟩
  | restore f b _ hb =>
    exact hd.withStore (hd.store.setBindings fun x v hv =>
      hd.snapshots b hb (x, v) (Bindings.mem_of_lookup hv))
  | evaluate n e f terminal _ hafter =>
    have hends := distinctParams.sound.eval_keeps n (w := ()) (f := f) (e := e)
      (m := ⟨h.store, terminal⟩) trivial trivial hd.store
    exact hd.withOutcome hends.distinctParams hafter
  | runText n text f terminal _ hafter =>
    exact hd.withOutcome (Session.runText_distinctParams n text hd.store) hafter
  | submit n text f terminal _ hafter =>
    exact hd.withOutcome (Session.submit_distinctParams n text hd.store) hafter

theorem leads (hleads : Host.start.Leads h) : h.DistinctParams := by
  induction hleads with
  | refl => exact start
  | tail hmid hstep ih => exact ih.step (start_orderly.leads hmid).2 hstep

end DistinctParams

/-- Frames of calls can always be built. All closures that a host can find, whatever it has done,
have distinct parameters. Wherever an evaluation comes, so have all closures in the store, and
where it calls one with as many arguments as there are parameters, the frame is added. That a name
is bound already is the error with which an evaluation ends if and only if it comes to a definition
of the name in a frame that binds it or to a `let` in whose list this name is the first one that is
repeated; then the machine is left as it was before the name was to be bound. -/
theorem call_frames_are_built {h : Host} (hstart : start.Leads h) :
    (∀ c, h.Finds c → c.params.Nodup) ∧
    ∀ n e f terminal,
      (∀ q, Point.ComesTo ⟨n, e, f, ⟨h.store, terminal⟩⟩ q →
        (∀ c, q.machine.store.Holds c → c.params.Nodup) ∧
        ∀ c self? args m, q.Calls c self? args m →
          ∃ inner m', Run.pushCall c self? args m = .result inner m') ∧
      ∀ x m', eval n e f ⟨h.store, terminal⟩ = .error (.name (.alreadyDefined x)) m' ↔
        ∃ q, Point.ComesTo ⟨n, e, f, ⟨h.store, terminal⟩⟩ q ∧ q.Redefines x m' := by
  have hd : h.DistinctParams := .leads hstart
  refine ⟨fun c hc => hd.finds (start_orderly.leads hstart).2 hc, fun n e f terminal => ?_⟩
  have hpoints : ∀ q, Point.ComesTo ⟨n, e, f, ⟨h.store, terminal⟩⟩ q →
      q.machine.store.DistinctParams ∧ ∀ c self? args m, q.Calls c self? args m →
        ∃ inner m', Run.pushCall c self? args m = .result inner m' := by
    intro q hq
    have hfirst : distinctParams.HoldsAt (fun _ _ => True) (fun _ => True) ()
        ⟨n, e, f, ⟨h.store, terminal⟩⟩ := ⟨trivial, trivial, hd.store⟩
    obtain ⟨_, -, hpoint⟩ := distinctParams.sound.comesTo_keeps hq hfirst
    refine ⟨hpoint.store, fun c self? args m hcall => ?_⟩
    obtain ⟨_, -, -, hc, -⟩ := distinctParams.sound.calls_keeps hcall trivial
      (fun _ _ => trivial) hpoint.store
    exact Run.exists_pushCall hc self? hcall.length_eq m
  exact ⟨hpoints, fun x m' => Point.outcome_eq_alreadyDefined_iff fun q hq => (hpoints q hq).2⟩

/-- The body of a procedure is a `let` with two pairs for the same name, which is no parameter. The
call comes to the `let`, and this is where it fails. -/
theorem repeated_name_in_body_of_call :
    let body : Expr := .list [.symbol "let", .list [.list [.symbol "a", .symbol "x"],
      .list [.symbol "b", .symbol "y"], .list [.symbol "b", .symbol "x"]], .symbol "a"]
    let p : Closure := ⟨0, ["x", "y"], body, 0⟩
    let call : Expr := .list [.symbol "p", .integer 1, .integer 2]
    ∃ h : Host, start.Leads h ∧ h.Finds p ∧ p.params.Nodup ∧
      ∃ m', eval 4 call 0 ⟨h.store, .ofLines []⟩ = .error (.name (.alreadyDefined "b")) m' ∧
        ∃ q, Point.ComesTo ⟨4, call, 0, ⟨h.store, .ofLines []⟩⟩ q ∧ q.Redefines "b" m' := by
  intro body p call
  let opened : Host := ⟨⟨#[⟨none, []⟩], 0⟩, [], []⟩
  let defined : Host := ⟨⟨#[⟨none, [("p", .closure p)]⟩], 1⟩, [], [.void]⟩
  have hopen : start.Step opened := .openFrame none [] nofun nofun
  have hdefine : opened.Step defined :=
    .evaluate 2 (.list [.symbol "define", .symbol "p",
      .list [.symbol "lambda", .list [.symbol "x", .symbol "y"], body]]) 0 (.ofLines [])
      Nat.zero_lt_one rfl
  have hleads : start.Leads defined := (Relation.ReflTransGen.single hopen).tail hdefine
  have hfound : defined.Finds p :=
    .inl ⟨0, ("p", .closure p), List.mem_cons_self, List.mem_cons_self⟩
  obtain ⟨m', hm'⟩ : ∃ m', eval 4 call 0 ⟨defined.store, .ofLines []⟩ =
      .error (.name (.alreadyDefined "b")) m' := ⟨_, rfl⟩
  obtain ⟨hnodup, hevaluations⟩ := call_frames_are_built hleads
  exact ⟨defined, hleads, hfound, hnodup p hfound, m', hm',
    ((hevaluations 4 call 0 (.ofLines [])).2 "b" m').mp hm'⟩

end Host

end LexicalLisp
