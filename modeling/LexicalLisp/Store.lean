import LexicalLisp.EvalError
import LexicalLisp.Text.NameList

/-!
# Frames and the store

A frame binds names to values and links outward to the frame around it. Frames
are shared: every closure and every frame inside a frame sees a definition or an
assignment made in it. They are kept in a store, where a frame links only to one
that is older than itself; so the chain outward from frame `f` has at most
`f + 1` members, and every search along it ends.

Names are looked up along the chain, the nearest frame first. A definition acts
on one frame and never replaces a binding, an assignment acts on the nearest
frame that binds the name and never adds one. An operation that may fail returns
the store in either case, and a failed one returns it unchanged.
-/

namespace LexicalLisp

/-- The bindings of one frame. -/
abbrev Bindings := List (String × Value)

namespace Bindings

def binds (name : String) (b : Bindings) : Bool := (b.lookup name).isSome

/-- Binds a name, in place of an older binding of it if there is one. -/
def put (name : String) (value : Value) : Bindings → Bindings
  | [] => [(name, value)]
  | (other, old) :: rest =>
    if name = other then (name, value) :: rest else (other, old) :: put name value rest

theorem lookup_cons (name other : String) (value : Value) (rest : Bindings) :
    List.lookup other ((name, value) :: rest) =
      if other = name then some value else List.lookup other rest := by
  by_cases h : other = name
  · simp [h]
  · simp [List.lookup_cons, beq_false_of_ne h, h]

theorem lookup_put (name other : String) (value : Value) (b : Bindings) :
    (b.put name value).lookup other = if other = name then some value else b.lookup other := by
  induction b with
  | nil => simp [put, lookup_cons]
  | cons entry rest ih =>
    obtain ⟨key, old⟩ := entry
    by_cases hk : name = key
    · subst hk
      by_cases h : other = name <;> simp [put, lookup_cons, h]
    · by_cases h : other = key
      · simp [put, hk, h, Ne.symm hk]
      · simp [put, hk, lookup_cons, h, ih]

/-- Adds pairs in order; a name that is bound already is refused. -/
def extend (b : Bindings) : List (String × Value) → Except NameError Bindings
  | [] => .ok b
  | (name, value) :: rest =>
    if b.binds name then .error (.alreadyDefined name) else extend (b.put name value) rest

end Bindings

structure Frame where
  outer : Option FrameId
  bindings : Bindings
  deriving Inhabited

structure Store where
  frames : Array Frame
  /-- How many closures have been made, which is also the number of the next one. -/
  closureCount : Nat

namespace Store

def empty : Store := ⟨#[], 0⟩

instance : Inhabited Store := ⟨empty⟩

def outerOf (s : Store) (f : FrameId) : Option FrameId := s.frames[f]?.bind Frame.outer

def bindingsOf (s : Store) (f : FrameId) : Bindings :=
  (s.frames[f]?.map Frame.bindings).getD []

/-- At most `n` frames outward from `f`. -/
def chainFrom (s : Store) : Nat → FrameId → List FrameId
  | 0, _ => []
  | n + 1, f =>
    f :: match s.outerOf f with
      | none => []
      | some g => chainFrom s n g

/-- A frame and the frames around it, from the inside out. -/
def chain (s : Store) (f : FrameId) : List FrameId := s.chainFrom (f + 1) f

/-- The nearest frame outward from `f` that binds a name. -/
def nearest? (s : Store) (f : FrameId) (name : String) : Option FrameId :=
  (s.chain f).find? fun g => (s.bindingsOf g).binds name

def lookup (s : Store) (f : FrameId) (name : String) : Except NameError Value :=
  match (s.chain f).findSome? fun g => (s.bindingsOf g).lookup name with
  | some value => .ok value
  | none => .error (.unbound name)

def visibleNames (s : Store) (f : FrameId) : List String :=
  Text.sortNames ((s.chain f).flatMap fun g => (s.bindingsOf g).map Prod.fst)

def setBindings (s : Store) (f : FrameId) (b : Bindings) : Store :=
  { s with frames := s.frames.modify f fun frame => { frame with bindings := b } }

/-- Binds a name in a frame, in place of an older binding there. -/
def bind (s : Store) (f : FrameId) (name : String) (value : Value) : Store :=
  s.setBindings f ((s.bindingsOf f).put name value)

/-- Binds a name in a frame that does not bind it yet. -/
def define (f : FrameId) (name : String) (value : Value) (s : Store) :
    Except NameError Unit × Store :=
  if (s.bindingsOf f).binds name then (.error (.alreadyDefined name), s)
  else (.ok (), s.bind f name value)

/-- Gives a new value to a name in the nearest frame that binds it. -/
def assign (f : FrameId) (name : String) (value : Value) (s : Store) :
    Except NameError Unit × Store :=
  match s.nearest? f name with
  | some g => (.ok (), s.bind g name value)
  | none => (.error (.unbound name), s)

def push (s : Store) (outer : Option FrameId) (b : Bindings) : FrameId × Store :=
  (s.frames.size, { s with frames := s.frames.push ⟨outer, b⟩ })

/-- Adds a frame that binds each of the pairs; a name may occur once only. -/
def pushPairs (outer : Option FrameId) (pairs : List (String × Value)) (s : Store) :
    Except NameError FrameId × Store :=
  match Bindings.extend [] pairs with
  | .ok b =>
    let (f, s') := s.push outer b
    (.ok f, s')
  | .error e => (.error e, s)

/-- Adds the frame of a call, inside the frame the closure was made in. The name
that the closure is called by is bound to it there, in place of a parameter of
that name. -/
def pushCall (c : Closure) (self? : Option String) (args : List Value) (s : Store) :
    Except NameError FrameId × Store :=
  match pushPairs (some c.frame) (c.params.zip args) s with
  | (.ok f, s') => (.ok f, self?.elim s' fun name => s'.bind f name (.closure c))
  | (.error e, s') => (.error e, s')

/-- Makes a closure with a number of its own. -/
def makeClosure (s : Store) (params : List String) (body : Expr) (frame : FrameId) :
    Closure × Store :=
  (⟨s.closureCount, params, body, frame⟩, { s with closureCount := s.closureCount + 1 })

end Store
end LexicalLisp
