import LexicalLisp.Proofs.Evaluation.SelfName
import LexicalLisp.Proofs.Scoping.FreeNames

/-!
# Calls by name

A call `(f ..)` of a closure binds `f` in the frame of the call, and a call of the same
closure through `((begin f) ..)` does not. Both find the same closure and evaluate the
operands in the same way; from there on they differ in that one binding. So the calls
end alike if the code that may run then cannot tell whether the binding is there.
-/

namespace LexicalLisp

open Store

/-- Two runs have ended with the same value or the same error, the same output and the same
input left, in stores that differ only in a binding of the name to the closure in one frame. -/
def Outcome.AlikeBut (k : FrameId) (name : String) (c : Closure) :
    Outcome EvalError Value → Outcome EvalError Value → Prop :=
  SameUpTo fun _ s t => SelfBound k name c s t

namespace HiddenBinding

/-- The arguments of a call of the closure are there, and its frame comes next. -/
structure Opens (κ : HiddenBinding) (s : Store) (args : List Value) : Prop where
  wellFormed : s.WellFormed
  frame_eq : κ.frame = s.frames.size
  knows : s.Knows κ.closure
  not_param : κ.name ∉ κ.closure.params
  inside : κ.inside κ.closure.body
  anywhere : κ.anywhere κ.closure.body
  held : ∀ d, s.Holds d → κ.anywhere d.body
  args : ∀ v ∈ args, ∀ d ∈ v.closures, s.Knows d ∧ κ.anywhere d.body
  around : κ.settled → s.lookup κ.closure.frame κ.name = .ok (.closure κ.closure)

variable {κ : HiddenBinding} {s : Store} {args : List Value} {b : Bindings}

namespace Opens

variable (h : κ.Opens s args)
include h

theorem unaware {d : Closure} (hknows : s.Knows d) (hd : κ.anywhere d.body) : κ.Unaware s d := by
  refine ⟨hknows, fun hmem => ?_, hd⟩
  have hle : κ.frame ≤ d.frame := h.wellFormed.le_of_mem_chain hmem
  rw [h.frame_eq] at hle
  exact absurd hknows.1 (Nat.not_lt.mpr hle)

theorem stores (hb : Bindings.extend [] (κ.closure.params.zip args) = .ok b) :
    (s.push (some κ.closure.frame) (b.put κ.name (.closure κ.closure))).2.WellFormed ∧
      κ.Stores (s.push (some κ.closure.frame) (b.put κ.name (.closure κ.closure))).2
        (s.push (some κ.closure.frame) b).2 := by
  have hcall : callBindings κ.closure (some κ.name) args =
      .ok (b.put κ.name (.closure κ.closure)) := by
    simp [callBindings, hb, Except.map]
  -- In the new frame there are only closures that were there before.
  have hnew : ∀ x v, (b.put κ.name (.closure κ.closure)).lookup x = some v →
      ∀ d ∈ v.closures, κ.Unaware s d := by
    intro x v hv
    exact closures_of_callBindings (h.unaware h.knows h.anywhere)
      (fun v hv d hd => h.unaware (h.args v hv d hd).1 (h.args v hv d hd).2) hcall hv
  have hunbound : b.lookup κ.name = none :=
    Bindings.lookup_eq_none_of_extend_zip hb h.not_param
  have hext : s.Grows (s.push (some κ.closure.frame) (b.put κ.name (.closure κ.closure))).2 :=
    .push s _ _
  refine ⟨h.wellFormed.push h.knows.1 fun x v hv d hd => (hnew x v hv d hd).1, ?_, ?_, ?_⟩
  · rw [h.frame_eq]
    exact .of_push s hunbound
  · intro d hd
    rcases holds_of_holds_push hd with hold | ⟨x, v, hv, hnew'⟩
    · exact (h.unaware (h.wellFormed.knows_held d hold) (h.held d hold)).mono h.wellFormed hext
    · exact (hnew x v hv d hnew').mono h.wellFormed hext
  · intro hset
    rw [h.wellFormed.lookup_push h.knows.1]
    exact h.around hset

end Opens

theorem body_alike (n : Nat) (h : κ.Opens s args)
    (hb : Bindings.extend [] (κ.closure.params.zip args) = .ok b) (terminal : Terminal) :
    (eval n κ.closure.body s.frames.size
      ⟨(s.push (some κ.closure.frame) (b.put κ.name (.closure κ.closure))).2, terminal⟩).AlikeBut
        κ.frame κ.name κ.closure
        (eval n κ.closure.body s.frames.size ⟨(s.push (some κ.closure.frame) b).2, terminal⟩) := by
  obtain ⟨hwell, hstores⟩ := h.stores hb
  have hlast : s.frames.size <
      (s.push (some κ.closure.frame) (b.put κ.name (.closure κ.closure))).2.frames.size := by simp
  have hrun : κ.Runs (κ.world hwell) κ.closure.body s.frames.size :=
    ⟨hlast, fun _ => h.inside, h.anywhere⟩
  apply (κ.supports.eval_same n hrun ⟨rfl, hstores⟩ terminal).imp
  intro _ s' t' hend
  obtain ⟨_, -, ⟨-, hstores'⟩, -⟩ := hend
  exact hstores'.selfBound

end HiddenBinding

section Calls

variable {ev : Evaluator} {m m' : Machine} {f : FrameId} {name : String} {c : Closure} {head : Expr}
  {es : List Expr} {args : List Value} {v : Value}

theorem Eval.form_of_not_reserved (hname : name ∉ reservedNames) :
    form ev f (.symbol name) es = call ev f (.symbol name) es := by
  apply form_call
  · cases hop : Operator.ofName? name with
    | none => exact hop
    | some op =>
      have hmem : op.name ∈ Operator.all.map Operator.name :=
        List.mem_map_of_mem (Operator.mem_all op)
      rw [Operator.name_of_ofName? hop] at hmem
      exact absurd (by simp [reservedNames, hmem]) hname
  · cases hk : Keyword.ofName? name with
    | none => exact hk
    | some k =>
      have hmem : k.name ∈ Keyword.all.map Keyword.name := by cases k <;> decide
      rw [Keyword.name_of_ofName? hk] at hmem
      exact absurd (by simp [reservedNames, hmem]) hname

/-- Once the head has been evaluated it matters only for the name in the frame of the call. -/
theorem Eval.call_of_head (h : ev head f m = .result (.closure c) m) :
    call ev f head es m = (operands ev f es >>= fun args =>
      if args.length = c.params.length then enter ev c head args
      else Run.fail (.argumentCount c.params.length args.length)) m := by
  unfold call
  rw [Run.bind_apply, h]

theorem Eval.enter_of_extend {b : Bindings} (h : Bindings.extend [] (c.params.zip args) = .ok b) :
    enter ev c head args m = ev c.body m.store.frames.size
      ⟨(m.store.push (some c.frame)
        (head.symbolName?.elim b fun name => b.put name (.closure c))).2, m.terminal⟩ := by
  unfold enter
  rw [Run.bind_apply]
  simp only [Run.pushCall, Run.onStore, pushCall_eq, callBindings, h, Except.map, pushResult]

theorem Eval.enter_of_extend_error {e : NameError}
    (h : Bindings.extend [] (c.params.zip args) = .error e) :
    enter ev c head args m = .error (.name e) m := by
  unfold enter
  rw [Run.bind_apply]
  simp only [Run.pushCall, Run.onStore, pushCall_eq, callBindings, h, Except.map, pushResult]

theorem eval_symbol (n : Nat) (hname : name ≠ "else") (hv : m.store.lookup f name = .ok v) :
    eval (n + 1) (.symbol name) f m = .result v m := by
  simp only [eval, Eval.step, if_neg hname, Run.lookup, hv]

theorem eval_begin_symbol (n : Nat) (hname : name ≠ "else")
    (hv : m.store.lookup f name = .ok v) :
    eval (n + 2) (.list [.symbol "begin", .symbol name]) f m = .result v m := by
  have hform : eval (n + 2) (.list [.symbol "begin", .symbol name]) f =
      Eval.inOrder (eval (n + 1)) f .void [.symbol name] :=
    Eval.form_keyword (eval (n + 1)) f .begin [.symbol name]
  rw [hform, Eval.inOrder, Run.bind_apply, eval_symbol n hname hv]
  rfl

/-- A call by the name and a call without it, from where the arguments are there. -/
theorem enter_alike (n : Nat) {κ : HiddenBinding} (h : κ.Opens m.store args)
    (hhead : head.symbolName? = none) :
    let named := Eval.enter (eval n) κ.closure (.symbol κ.name) args m
    let plain := Eval.enter (eval n) κ.closure head args m
    named = plain ∨ named.AlikeBut κ.frame κ.name κ.closure plain := by
  intro named plain
  cases hb : Bindings.extend [] (κ.closure.params.zip args) with
  | error e =>
    have hnamed : named = .error (.name e) m := Eval.enter_of_extend_error hb
    have hplain : plain = .error (.name e) m := Eval.enter_of_extend_error hb
    exact .inl (hnamed.trans hplain.symm)
  | ok b =>
    have hnamed : named = _ := Eval.enter_of_extend hb
    have hplain : plain = _ := Eval.enter_of_extend hb
    rw [hnamed, hplain, hhead]
    exact .inr (HiddenBinding.body_alike n h hb m.terminal)

/-- How a call by the name and a call without it compare: they end in the same way, or the
frame of the call has been added, and they end alike but for the name in that frame. -/
def CallsAlike (n : Nat) (f : FrameId) (name : String) (c : Closure) (es : List Expr) (m : Machine)
    (named plain : Outcome EvalError Value) : Prop :=
  named = plain ∨ ∃ args m', Eval.operands (eval n) f es m = .result args m' ∧
    named.AlikeBut m'.store.frames.size name c plain

theorem call_alike (n : Nat) (hnamed : eval n (.symbol name) f m = .result (.closure c) m)
    (hplain : eval n head f m = .result (.closure c) m) (hhead : head.symbolName? = none)
    (hopens : ∀ args m', Eval.operands (eval n) f es m = .result args m' →
      ∃ κ : HiddenBinding, κ.frame = m'.store.frames.size ∧ κ.name = name ∧ κ.closure = c ∧
        κ.Opens m'.store args) :
    CallsAlike n f name c es m (Eval.call (eval n) f (.symbol name) es m)
      (Eval.call (eval n) f head es m) := by
  rw [Eval.call_of_head hnamed, Eval.call_of_head hplain, Run.bind_apply, Run.bind_apply]
  cases hargs : Eval.operands (eval n) f es m with
  | outOfFuel => exact .inl rfl
  | error e m' => exact .inl rfl
  | result args m' =>
    obtain ⟨κ, hframe, rfl, rfl, h⟩ := hopens args m' hargs
    by_cases hlength : args.length = κ.closure.params.length
    · simp only [if_pos hlength]
      rcases enter_alike n h hhead with heq | halike
      · exact .inl heq
      · rw [hframe] at halike
        exact .inr ⟨args, m', hargs, halike⟩
    · simp only [if_neg hlength]
      exact .inl rfl

theorem operands_keep_wellFormed (n : Nat) (hm : m.store.WellFormed) (hf : f < m.store.frames.size)
    (hargs : Eval.operands (eval n) f es m = .result args m') :
    m.store.Grows m'.store ∧ m'.store.WellFormed ∧
      ∀ v ∈ args, ∀ d ∈ v.closures, m'.store.Knows d := by
  have hends := wellFormed.sound.operands_keep n hf (fun e (_ : e ∈ es) => trivial) ⟨rfl, hm⟩
  rw [hargs] at hends
  obtain ⟨_, hgrows, ⟨rfl, hwell⟩, hknown⟩ := hends
  exact ⟨hgrows, hwell, hknown⟩

theorem operands_spare (n : Nat) {ks : List Keyword} (hes : ∀ e ∈ es, e.Spares ks name)
    (hheld : ∀ d, m.store.Holds d → d.body.Spares ks name)
    (hargs : Eval.operands (eval n) f es m = .result args m') :
    m.store.Spares ks name m'.store ∧ (∀ d, m'.store.Holds d → d.body.Spares ks name) ∧
      ∀ v ∈ args, ∀ d ∈ v.closures, d.body.Spares ks name := by
  have hends := (sparing.sound ks name).operands_keep n (f := f) trivial hes ⟨rfl, hheld⟩
  rw [hargs] at hends
  obtain ⟨_, hspares, ⟨rfl, hheld'⟩, hvalues⟩ := hends
  exact ⟨hspares, hheld', hvalues⟩

end Calls

/-- The name occurs nowhere in the closure. -/
structure Unmentioned (name : String) (c : Closure) : Prop where
  params : name ∉ c.params
  body : ¬(Expr.symbol name).OccursIn c.body

/-- The name means the closure where the closure was made, and there is no form that would
assign or define it in the operands or in a closure of the store. -/
structure Settled (name : String) (c : Closure) (es : List Expr) (s : Store) : Prop where
  params : name ∉ c.params
  around : s.lookup c.frame name = .ok (.closure c)
  operands : ∀ e ∈ es, e.Spares [.set, .define] name
  held : ∀ d, s.Holds d → d.body.Spares [.set, .define] name

section Opening

variable {m m' : Machine} {f : FrameId} {name : String} {c : Closure} {es : List Expr}
  {args : List Value} {n : Nat} (hm : m.store.WellFormed)
  (hc : m.store.lookup f name = .ok (.closure c))
  (hargs : Eval.operands (eval n) f es m = .result args m')
include hm hc hargs

theorem Unmentioned.opens (h : Unmentioned name c) :
    (HiddenBinding.ofUnmentioned m'.store.frames.size name c).Opens m'.store args := by
  have hheld : m.store.Holds c := holds_of_lookup hc (by simp [Value.closures])
  obtain ⟨hgrows, hwell, hknown⟩ :=
    operands_keep_wellFormed n hm (lt_size_of_lookup_eq_ok hc) hargs
  exact {
    wellFormed := hwell
    frame_eq := rfl
    knows := (hm.knows_held c hheld).mono hgrows
    not_param := h.params
    inside := h.body
    anywhere := trivial
    held := fun _ _ => trivial
    args := fun v hv d hd => ⟨hknown v hv d hd, trivial⟩
    around := False.elim }

theorem Settled.opens (h : Settled name c es m.store) :
    (HiddenBinding.ofSettled m'.store.frames.size name c).Opens m'.store args := by
  have hheld : m.store.Holds c := holds_of_lookup hc (by simp [Value.closures])
  have hknows : m.store.Knows c := hm.knows_held c hheld
  obtain ⟨hgrows, hwell, hknown⟩ :=
    operands_keep_wellFormed n hm (lt_size_of_lookup_eq_ok hc) hargs
  obtain ⟨hspares, hheld', hvalues⟩ := operands_spare n h.operands h.held hargs
  have haround : m'.store.lookup c.frame name = m.store.lookup c.frame name :=
    hspares.lookup_frame_eq hm hknows.1
  exact {
    wellFormed := hwell
    frame_eq := rfl
    knows := hknows.mono hgrows
    not_param := h.params
    inside := trivial
    anywhere := h.held c hheld
    held := hheld'
    args := fun v hv d hd => ⟨hknown v hv d hd, hvalues v hv d hd⟩
    around := fun _ => haround.trans h.around }

end Opening

/-- The name of a call cannot be told from inside of ordinary procedures. Let a name mean a
closure that does not mention it, or that is what the name means in its own frame while no
form in sight assigns or defines it. Then a call by the name and a call of the same closure
without it end alike, in stores that differ only in the name in the frame of the call. The
depth is at least three because `(begin f)` needs it for the name to be looked up at all. -/
theorem self_name_is_hidden (n : Nat) {m : Machine} {f : FrameId} {name : String} {c : Closure}
    {es : List Expr} (hm : m.store.WellFormed) (hname : name ∉ reservedNames)
    (hc : m.store.lookup f name = .ok (.closure c))
    (h : Unmentioned name c ∨ Settled name c es m.store) :
    CallsAlike (n + 2) f name c es m (eval (n + 3) (.list (.symbol name :: es)) f m)
      (eval (n + 3) (.list (.list [.symbol "begin", .symbol name] :: es)) f m) := by
  have helse : name ≠ "else" := by
    rintro rfl
    exact hname (by decide)
  have hnamed : eval (n + 3) (.list (.symbol name :: es)) f =
      Eval.call (eval (n + 2)) f (.symbol name) es := Eval.form_of_not_reserved hname
  have hplain : eval (n + 3) (.list (.list [.symbol "begin", .symbol name] :: es)) f =
      Eval.call (eval (n + 2)) f (.list [.symbol "begin", .symbol name]) es := rfl
  rw [hnamed, hplain]
  apply call_alike (n + 2) (eval_symbol (n + 1) helse hc) (eval_begin_symbol n helse hc) rfl
  intro args m' hargs
  rcases h with hunmentioned | hsettled
  · exact ⟨_, rfl, rfl, rfl, hunmentioned.opens hm hc hargs⟩
  · exact ⟨_, rfl, rfl, rfl, hsettled.opens hm hc hargs⟩

/-- A procedure that calls itself does not notice under which name it was called. -/
theorem self_call_hides_name :
    let body : Expr := .list [.symbol "f", .list [.symbol "car", .symbol "x"]]
    let made := (Session.start (.ofLines [])).store.makeClosure ["x"] body 0
    let m : Machine := ⟨made.2.bind 0 "f" (.closure made.1), .ofLines []⟩
    let operand : Expr := .list [.symbol "list", .integer 1]
    let named := eval 6 (.list [.symbol "f", operand]) 0 m
    named.error? = some (.mismatch .car .list .integer) ∧
      CallsAlike 5 0 "f" made.1 [operand] m named
        (eval 6 (.list [.list [.symbol "begin", .symbol "f"], operand]) 0 m) := by
  intro body made m operand named
  have hmade : made.2.WellFormed := (Session.start_wellFormed _).makeClosure ["x"] body 0
  have hknows : ∀ d ∈ (Value.closure made.1).closures, made.2.Knows d := by
    intro d hd
    obtain rfl : d = made.1 := by simpa [Value.closures] using hd
    exact ⟨by decide, by decide⟩
  have hbody : body.Spares [.set, .define] "f" := by
    simp [body, Expr.Spares, Expr.Targets, Expr.occursIn_list_iff, Keyword.name]
  have hsettled : Settled "f" made.1 [operand] m.store := by
    refine ⟨by decide, rfl, ?_, fun d hd => ?_⟩
    · simp [operand, Expr.Spares, Expr.Targets, Expr.occursIn_list_iff, Keyword.name]
    · rcases holds_of_holds_bind hd with hold | hnew
      · exact absurd hold (Session.not_holds_start (.ofLines []) d)
      · obtain rfl : d = made.1 := by simpa [Value.closures] using hnew
        exact hbody
  refine ⟨by decide +kernel, ?_⟩
  exact self_name_is_hidden 3 (hmade.bind "f" hknows) (by decide) rfl (.inr hsettled)

end LexicalLisp
