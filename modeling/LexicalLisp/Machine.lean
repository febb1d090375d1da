import LexicalLisp.Store
import LexicalLisp.Terminal

/-!
# Machines and runs

A machine is a store and a terminal. A run acts on a machine: it ends with a
result or with an error, and in both cases leaves a machine behind, or it does
not end within the depth of nesting that it was allowed. The last case is kept
apart from every error of the language.
-/

namespace LexicalLisp

structure Machine where
  store : Store
  terminal : Terminal

inductive Outcome (ε α : Type) where
  | result (value : α) (machine : Machine)
  | error (cause : ε) (machine : Machine)
  | outOfFuel

/-- What holds of the machine that a run leaves behind, whether it succeeds or fails. -/
def Outcome.Leaves {ε α : Type} (P : Machine → Prop) : Outcome ε α → Prop
  | result _ m | error _ m => P m
  | outOfFuel => True

theorem Outcome.Leaves.imp {ε α : Type} {P Q : Machine → Prop} {o : Outcome ε α}
    (h : o.Leaves P) (hPQ : ∀ m, P m → Q m) : o.Leaves Q := by
  cases o with
  | result a m => exact hPQ m h
  | error e m => exact hPQ m h
  | outOfFuel => trivial

theorem Outcome.Leaves.and {ε α : Type} {P Q : Machine → Prop} {o : Outcome ε α}
    (hP : o.Leaves P) (hQ : o.Leaves Q) : o.Leaves fun m => P m ∧ Q m := by
  cases o with
  | result a m => exact ⟨hP, hQ⟩
  | error e m => exact ⟨hP, hQ⟩
  | outOfFuel => trivial

def Outcome.error? {ε α : Type} : Outcome ε α → Option ε
  | error e _ => some e
  | _ => none

theorem Outcome.exists_of_error? {ε α : Type} {o : Outcome ε α} {e : ε} (h : o.error? = some e) :
    ∃ m, o = .error e m := by
  cases o with
  | error e' m =>
    cases h
    exact ⟨m, rfl⟩
  | _ => cases h

def Outcome.value? {ε α : Type} : Outcome ε α → Option α
  | result a _ => some a
  | _ => none

theorem Outcome.exists_of_value? {ε α β : Type} {o : Outcome ε α} {p : α → β} {b : β}
    (h : o.value?.map p = some b) : ∃ a m, o = .result a m ∧ p a = b := by
  cases o with
  | result a m => exact ⟨a, m, rfl, Option.some.inj h⟩
  | _ => cases h

def Run (ε α : Type) : Type := Machine → Outcome ε α

namespace Run

variable {ε ε' α β : Type}

@[inline] protected def pure (a : α) : Run ε α := fun m => .result a m

@[inline] protected def bind (x : Run ε α) (k : α → Run ε β) : Run ε β := fun m =>
  match x m with
  | .result a m' => k a m'
  | .error e m' => .error e m'
  | .outOfFuel => .outOfFuel

instance : Monad (Run ε) where
  pure := Run.pure
  bind := Run.bind

def fail (e : ε) : Run ε α := fun m => .error e m

def outOfFuel : Run ε α := fun _ => .outOfFuel

def ofExcept : Except ε α → Run ε α
  | .ok a => pure a
  | .error e => fail e

def mapError (f : ε → ε') (x : Run ε α) : Run ε' α := fun m =>
  match x m with
  | .result a m' => .result a m'
  | .error e m' => .error (f e) m'
  | .outOfFuel => .outOfFuel

@[simp] theorem pure_apply (a : α) (m : Machine) : (pure a : Run ε α) m = .result a m := rfl

theorem bind_apply (x : Run ε α) (k : α → Run ε β) (m : Machine) :
    (x >>= k) m = match x m with
      | .result a m' => k a m'
      | .error e m' => .error e m'
      | .outOfFuel => .outOfFuel := rfl

theorem bind_of_result {x : Run ε α} {k : α → Run ε β} {m m' : Machine} {a : α}
    (h : x m = .result a m') : (x >>= k) m = k a m' := by rw [bind_apply, h]

theorem bind_of_error {x : Run ε α} {k : α → Run ε β} {m m' : Machine} {e : ε}
    (h : x m = .error e m') : (x >>= k) m = .error e m' := by rw [bind_apply, h]

theorem bind_eq_result_iff {x : Run ε α} {k : α → Run ε β} {m m' : Machine} {b : β} :
    (x >>= k) m = .result b m' ↔ ∃ a m₁, x m = .result a m₁ ∧ k a m₁ = .result b m' := by
  rw [bind_apply]
  cases x m <;> simp [and_assoc]

theorem bind_eq_error_iff {x : Run ε α} {k : α → Run ε β} {m m' : Machine} {e : ε} :
    (x >>= k) m = .error e m' ↔
      x m = .error e m' ∨ ∃ a m₁, x m = .result a m₁ ∧ k a m₁ = .error e m' := by
  rw [bind_apply]
  cases x m <;> simp [and_assoc]

@[simp] theorem fail_apply (e : ε) (m : Machine) : (fail e : Run ε α) m = .error e m := rfl

instance : LawfulMonad (Run ε) := LawfulMonad.mk' (Run ε)
  (by intro α x; funext m; simp only [Functor.map, Run.bind]; cases x m <;> rfl)
  (by intros; rfl)
  (by intro α β γ x f g; funext m; simp only [bind, Run.bind]; cases x m <;> rfl)

def lookup (f : FrameId) (name : String) : Run EvalError Value := fun m =>
  match m.store.lookup f name with
  | .ok v => .result v m
  | .error e => .error (.name e) m

/-- Acts on the store; an error is a name error. -/
def onStore (act : Store → Except NameError α × Store) : Run EvalError α :=
  fun ⟨store, terminal⟩ =>
    match act store with
    | (.ok a, store') => .result a ⟨store', terminal⟩
    | (.error e, store') => .error (.name e) ⟨store', terminal⟩

theorem onStore_eq_result_iff {act : Store → Except NameError α × Store} {m m' : Machine} {a : α} :
    onStore act m = .result a m' ↔
      act m.store = (.ok a, m'.store) ∧ m'.terminal = m.terminal := by
  obtain ⟨s, t⟩ := m
  obtain ⟨s', t'⟩ := m'
  rcases h : act s with ⟨_ | _, _⟩ <;> simp [onStore, h, eq_comm, and_assoc]

def define (f : FrameId) (name : String) (v : Value) : Run EvalError Unit :=
  onStore (Store.define f name v)

def assign (f : FrameId) (name : String) (v : Value) : Run EvalError Unit :=
  onStore (Store.assign f name v)

def pushFrame (outer : FrameId) (pairs : List (String × Value)) : Run EvalError FrameId :=
  onStore (Store.pushPairs (some outer) pairs)

/-- Adds the frame of a call of the closure, with the name it is called by, if any. -/
def pushCall (c : Closure) (self? : Option String) (args : List Value) :
    Run EvalError FrameId :=
  onStore (Store.pushCall c self? args)

def makeClosure (params : List String) (body : Expr) (f : FrameId) : Run EvalError Closure :=
  onStore fun s =>
    let (c, s') := s.makeClosure params body f
    (.ok c, s')

def write (text : String) : Run EvalError Unit := fun ⟨store, terminal⟩ =>
  match terminal.write text with
  | (.ok (), terminal') => .result () ⟨store, terminal'⟩
  | (.error r, terminal') => .error (.refused r) ⟨store, terminal'⟩

/-- Reads a line; the end of the input is an error. -/
def readLine : Run EvalError String := fun ⟨store, terminal⟩ =>
  match terminal.readLine with
  | (.ok (some line), terminal') => .result line ⟨store, terminal'⟩
  | (.ok none, terminal') => .error .endOfInput ⟨store, terminal'⟩
  | (.error r, terminal') => .error (.refused r) ⟨store, terminal'⟩

end Run
end LexicalLisp
