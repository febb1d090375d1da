import LexicalLisp.Machine
import LexicalLisp.Proofs.Store.Frames

/-!
# Other numbers for closures

A closure is recognised by its number, which is the next one when the closure is made. To renumber
a store is to give other numbers to all closures in it, at every depth of lists, and with them to
the closure that would be made next. Names, frames and the links between frames stay the same, so
that every operation does to a renumbered store what it does to the original one.
-/

namespace LexicalLisp

def Closure.renumber (r : ClosureId → ClosureId) (c : Closure) : Closure := { c with id := r c.id }

namespace Value

mutual

/-- The value with other numbers for the closures in it. -/
def renumber (r : ClosureId → ClosureId) : Value → Value
  | .closure c => .closure (c.renumber r)
  | .list items => .list (renumberAll r items)
  | v => v

def renumberAll (r : ClosureId → ClosureId) : List Value → List Value
  | [] => []
  | v :: vs => renumber r v :: renumberAll r vs

end

variable {r : ClosureId → ClosureId}

mutual

theorem related_renumber : ∀ v : Value,
    Related (fun c d => d = c.renumber r) v (v.renumber r)
  | .integer n => .integer n
  | .float x => .float x
  | .boolean b => .boolean b
  | .string s => .string s
  | .list vs => .list (related_renumberAll vs)
  | .closure _ => .closure rfl
  | .void => .void

theorem related_renumberAll : ∀ vs : List Value,
    List.Forall₂ (Related fun c d => d = c.renumber r) vs (renumberAll r vs)
  | [] => .nil
  | v :: vs => .cons (related_renumber v) (related_renumberAll vs)

end

mutual

theorem eq_renumber : ∀ {v w : Value}, Related (fun c d => d = c.renumber r) v w →
    w = v.renumber r
  | _, _, .integer _ | _, _, .float _ | _, _, .boolean _ | _, _, .string _ | _, _, .void => rfl
  | _, _, .list hs => congrArg _ (eq_renumberAll hs)
  | _, _, .closure hc => congrArg _ hc

theorem eq_renumberAll : ∀ {vs ws : List Value},
    List.Forall₂ (Related fun c d => d = c.renumber r) vs ws → ws = renumberAll r vs
  | _, _, .nil => rfl
  | _, _, .cons hv hs => by rw [eq_renumber hv, eq_renumberAll hs, renumberAll]

end

theorem related_renumber_iff {v w : Value} :
    Related (fun c d => d = c.renumber r) v w ↔ w = v.renumber r := by
  constructor
  · exact eq_renumber
  · rintro rfl
    exact related_renumber v

theorem renumber_eq_self {v : Value} (h : ∀ c ∈ v.closures, r c.id = c.id) : v.renumber r = v := by
  have hsame : Related (fun c d => d = c.renumber r) v v := by
    refine .refl v fun c hc => ?_
    rw [Closure.renumber, h c hc]
  exact (eq_renumber hsame).symm

theorem renumberAll_eq_map (vs : List Value) : renumberAll r vs = vs.map (renumber r) := by
  induction vs with
  | nil => rfl
  | cons v vs ih => rw [renumberAll, ih, List.map_cons]

end Value

namespace Bindings

def renumber (r : ClosureId → ClosureId) (b : Bindings) : Bindings :=
  b.map fun entry => (entry.1, entry.2.renumber r)

variable {r : ClosureId → ClosureId} {b : Bindings} {name : String}

theorem lookup_renumber : (b.renumber r).lookup name = (b.lookup name).map (Value.renumber r) := by
  induction b with
  | nil => rfl
  | cons entry rest ih =>
    obtain ⟨key, value⟩ := entry
    rw [renumber, List.map_cons, lookup_cons, lookup_cons, ← renumber, ih]
    split <;> rfl

theorem binds_renumber : (b.renumber r).binds name = b.binds name := by
  rw [binds, lookup_renumber, Option.isSome_map, binds]

theorem put_renumber (v : Value) :
    (b.renumber r).put name (v.renumber r) = (b.put name v).renumber r := by
  induction b with
  | nil => rfl
  | cons entry rest ih =>
    obtain ⟨key, value⟩ := entry
    simp only [renumber, List.map_cons, put] at ih ⊢
    split
    · rfl
    · rw [ih, List.map_cons]

theorem extend_renumber (pairs : List (String × Value)) :
    (b.renumber r).extend (renumber r pairs) = (b.extend pairs).map (renumber r) := by
  induction pairs generalizing b with
  | nil => rfl
  | cons pair rest ih =>
    obtain ⟨name, v⟩ := pair
    simp only [renumber, List.map_cons, extend] at ih ⊢
    rw [← renumber, binds_renumber]
    split
    · rfl
    · rw [put_renumber, renumber, ih]

theorem extend_nil_renumber (pairs : List (String × Value)) :
    extend [] (renumber r pairs) = (extend [] pairs).map (renumber r) :=
  extend_renumber (b := []) pairs

theorem zip_renumber (names : List String) (vs : List Value) :
    names.zip (Value.renumberAll r vs) = renumber r (names.zip vs) := by
  rw [Value.renumberAll_eq_map, List.zip_map_right]
  rfl

end Bindings

namespace Store

def renumber (r : ClosureId → ClosureId) (s : Store) : Store where
  frames := s.frames.map fun frame => { frame with bindings := frame.bindings.renumber r }
  closureCount := r s.closureCount

/-- The numbers of all closures in the store have been given out. -/
def Numbered (s : Store) : Prop :=
  ∀ f, ∀ entry ∈ s.bindingsOf f, ∀ c ∈ entry.2.closures, c.id < s.closureCount

variable {r : ClosureId → ClosureId} {s : Store} {f : FrameId} {name : String}

@[simp] theorem size_renumber : (s.renumber r).frames.size = s.frames.size := Array.size_map

theorem outerOf_renumber : (s.renumber r).outerOf = s.outerOf := by
  funext f
  unfold outerOf renumber
  rw [Array.getElem?_map]
  cases s.frames[f]? <;> rfl

theorem bindingsOf_renumber : (s.renumber r).bindingsOf f = (s.bindingsOf f).renumber r := by
  unfold bindingsOf renumber
  rw [Array.getElem?_map]
  cases s.frames[f]? <;> rfl

theorem chain_renumber : (s.renumber r).chain f = s.chain f := by
  have hfrom : ∀ n f, (s.renumber r).chainFrom n f = s.chainFrom n f := by
    intro n
    induction n with
    | zero => exact fun _ => rfl
    | succ n ih =>
      intro f
      simp only [chainFrom, outerOf_renumber, ih]
  exact hfrom _ f

theorem lookup_renumber :
    (s.renumber r).lookup f name = (s.lookup f name).map (Value.renumber r) := by
  have hfind : ∀ fs : List FrameId,
      (fs.findSome? fun g => ((s.renumber r).bindingsOf g).lookup name) =
        (fs.findSome? fun g => (s.bindingsOf g).lookup name).map (Value.renumber r) := by
    intro fs
    induction fs with
    | nil => rfl
    | cons g fs ih =>
      rw [List.findSome?_cons, List.findSome?_cons, bindingsOf_renumber, Bindings.lookup_renumber,
        ih]
      cases (s.bindingsOf g).lookup name <;> rfl
  unfold lookup
  rw [chain_renumber, hfind]
  cases (s.chain f).findSome? _ <;> rfl

theorem nearest_renumber : (s.renumber r).nearest? f name = s.nearest? f name := by
  unfold nearest?
  simp only [chain_renumber, bindingsOf_renumber, Bindings.binds_renumber]

theorem setBindings_renumber (b : Bindings) :
    (s.renumber r).setBindings f (b.renumber r) = (s.setBindings f b).renumber r := by
  unfold setBindings renumber
  congr 1
  apply Array.ext
  · simp
  · intro i _ _
    simp only [Array.getElem_modify, Array.getElem_map]
    split <;> rfl

theorem bind_renumber (v : Value) :
    (s.renumber r).bind f name (v.renumber r) = (s.bind f name v).renumber r := by
  unfold bind
  rw [bindingsOf_renumber, Bindings.put_renumber, setBindings_renumber]

theorem push_renumber (outer : Option FrameId) (b : Bindings) :
    ((s.renumber r).push outer (b.renumber r)).2 = (s.push outer b).2.renumber r := by
  unfold push renumber
  rw [Array.map_push]

theorem callBindings_renumber (c : Closure) (self? : Option String) (args : List Value) :
    callBindings (c.renumber r) self? (Value.renumberAll r args) =
      (callBindings c self? args).map (Bindings.renumber r) := by
  unfold callBindings
  rw [Closure.renumber, Bindings.zip_renumber, Bindings.extend_nil_renumber]
  cases Bindings.extend [] (c.params.zip args) with
  | error e => rfl
  | ok b =>
    cases self? with
    | none => rfl
    | some name => exact congrArg Except.ok (Bindings.put_renumber (.closure c))

/-- Numbers that have been given out may all be kept. -/
theorem renumber_eq (h : s.Numbered) (hr : ∀ i < s.closureCount, r i = i) :
    s.renumber r = { s with closureCount := r s.closureCount } := by
  have hbindings : ∀ f, (s.bindingsOf f).renumber r = s.bindingsOf f := by
    intro f
    refine (List.map_congr_left fun entry hentry => ?_).trans (List.map_id _)
    rw [Value.renumber_eq_self fun c hc => hr c.id (h f entry hentry c hc)]
    rfl
  unfold renumber
  congr 1
  apply Array.ext
  · simp
  · intro f _ hf
    have hframe := hbindings f
    simp only [bindingsOf, Array.getElem?_eq_getElem hf, Option.map_some, Option.getD_some]
      at hframe
    rw [Array.getElem_map, hframe]

end Store

def Machine.renumber (r : ClosureId → ClosureId) (m : Machine) : Machine :=
  { m with store := m.store.renumber r }

def Outcome.renumber {ε : Type} (r : ClosureId → ClosureId) : Outcome ε Value → Outcome ε Value
  | result v m => result (v.renumber r) (m.renumber r)
  | error e m => error e (m.renumber r)
  | outOfFuel => outOfFuel

end LexicalLisp
