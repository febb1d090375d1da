import Mathlib.Data.List.Find
import LexicalLisp.Store
import LexicalLisp.Proofs.Value.Related

/-!
# What the operations on a store change

A store is seen through three views: the number of frames, the frame around a
frame, and the bindings of a frame. Each operation changes them at one frame
only, and no operation but the addition of a frame changes which frame stands
around which.
-/

namespace LexicalLisp

namespace Bindings

@[simp] theorem binds_nil (name : String) : binds name [] = false := rfl

@[simp] theorem binds_put (name other : String) (value : Value) (b : Bindings) :
    binds other (b.put name value) = (decide (other = name) || binds other b) := by
  unfold binds
  rw [lookup_put]
  by_cases h : other = name <;> simp [h]

theorem binds_of_lookup {name : String} {v : Value} {b : Bindings} (h : b.lookup name = some v) :
    b.binds name = true := by
  simp [binds, h]

abbrev names (b : Bindings) : List String := b.map Prod.fst

theorem binds_iff_mem_names (name : String) (b : Bindings) :
    binds name b = true ↔ name ∈ b.names := by
  induction b with
  | nil => simp
  | cons entry rest ih =>
    obtain ⟨key, value⟩ := entry
    unfold binds at ih ⊢
    rw [lookup_cons]
    by_cases h : name = key <;> simp [h, ih]

theorem mem_of_lookup_extend {ps : List (String × Value)} {b b' : Bindings}
    (h : b.extend ps = .ok b') {name : String} {v : Value} (hv : b'.lookup name = some v) :
    b.lookup name = some v ∨ (name, v) ∈ ps := by
  induction ps generalizing b with
  | nil =>
    cases h
    exact .inl hv
  | cons p ps ih =>
    obtain ⟨key, w⟩ := p
    unfold extend at h
    split at h
    · cases h
    · rcases ih h with hold | hmem
      · rw [lookup_put] at hold
        split at hold
        · rename_i hkey
          cases hold
          exact .inr (by simp [hkey])
        · exact .inl hold
      · exact .inr (List.mem_cons_of_mem _ hmem)

theorem lookup_eq_none_of_extend_zip {params : List String} {args : List Value} {b : Bindings}
    (h : extend [] (params.zip args) = .ok b) {name : String} (hname : name ∉ params) :
    b.lookup name = none := by
  cases hlookup : b.lookup name with
  | none => rfl
  | some v =>
    rcases mem_of_lookup_extend h hlookup with hnil | hmem
    · cases hnil
    · exact absurd (List.of_mem_zip hmem).1 hname

end Bindings

namespace Store

variable (s : Store) (f g : FrameId)

theorem bindingsOf_of_size_le (h : s.frames.size ≤ f) : s.bindingsOf f = [] := by
  simp [bindingsOf, Array.getElem?_eq_none h]

theorem outerOf_of_size_le (h : s.frames.size ≤ f) : s.outerOf f = none := by
  simp [outerOf, Array.getElem?_eq_none h]

theorem frames_of_lt (h : f < s.frames.size) :
    s.frames[f]? = some ⟨s.outerOf f, s.bindingsOf f⟩ := by
  simp [outerOf, bindingsOf, h]

theorem lt_size_of_binds {name : String} (h : (s.bindingsOf f).binds name = true) :
    f < s.frames.size := by
  refine Nat.lt_of_not_le fun hle => ?_
  rw [s.bindingsOf_of_size_le f hle] at h
  exact Bool.false_ne_true h

theorem lt_size_of_lookup {name : String} {v : Value} (h : (s.bindingsOf f).lookup name = some v) :
    f < s.frames.size := s.lt_size_of_binds f (Bindings.binds_of_lookup h)

theorem lt_size_of_outerOf {s : Store} {f g : FrameId} (h : s.outerOf f = some g) :
    f < s.frames.size := by
  refine Nat.lt_of_not_le fun hle => ?_
  rw [s.outerOf_of_size_le f hle] at h
  cases h

section SetBindings

variable (b : Bindings)

@[simp] theorem size_setBindings : (s.setBindings f b).frames.size = s.frames.size := by
  simp [setBindings]

@[simp] theorem closureCount_setBindings : (s.setBindings f b).closureCount = s.closureCount := rfl

@[simp] theorem outerOf_setBindings : (s.setBindings f b).outerOf g = s.outerOf g := by
  unfold outerOf setBindings
  rw [Array.getElem?_modify]
  split
  · cases s.frames[g]? <;> rfl
  · rfl

theorem bindingsOf_setBindings :
    (s.setBindings f b).bindingsOf g =
      if g = f ∧ f < s.frames.size then b else s.bindingsOf g := by
  unfold bindingsOf setBindings
  rw [Array.getElem?_modify]
  by_cases hfg : f = g
  · subst hfg
    by_cases hf : f < s.frames.size
    · simp [hf]
    · simp [hf]
  · simp [hfg, Ne.symm hfg]

theorem frames_setBindings_of_ne (h : g ≠ f) : (s.setBindings f b).frames[g]? = s.frames[g]? := by
  unfold setBindings
  rw [Array.getElem?_modify, if_neg h.symm]

end SetBindings

section Bind

variable (name : String) (value : Value)

@[simp] theorem size_bind : (s.bind f name value).frames.size = s.frames.size :=
  s.size_setBindings f _

@[simp] theorem closureCount_bind : (s.bind f name value).closureCount = s.closureCount := rfl

@[simp] theorem outerOf_bind : (s.bind f name value).outerOf g = s.outerOf g :=
  s.outerOf_setBindings f g _

theorem bindingsOf_bind :
    (s.bind f name value).bindingsOf g =
      if g = f ∧ f < s.frames.size then (s.bindingsOf f).put name value else s.bindingsOf g :=
  s.bindingsOf_setBindings f g _

theorem lookup_bindingsOf_bind_of_ne {other : String} (h : other ≠ name) :
    ((s.bind f name value).bindingsOf g).lookup other = (s.bindingsOf g).lookup other := by
  rw [bindingsOf_bind]
  split
  · rename_i hgf
    rw [Bindings.lookup_put, if_neg h, hgf.1]
  · rfl

end Bind

section Push

variable (outer : Option FrameId) (b : Bindings)

@[simp] theorem size_push : (s.push outer b).2.frames.size = s.frames.size + 1 := by
  simp [push]

@[simp] theorem push_fst : (s.push outer b).1 = s.frames.size := rfl

@[simp] theorem closureCount_push : (s.push outer b).2.closureCount = s.closureCount := rfl

theorem outerOf_push :
    (s.push outer b).2.outerOf g = if g = s.frames.size then outer else s.outerOf g := by
  unfold outerOf push
  rw [Array.getElem?_push]
  split <;> rfl

theorem bindingsOf_push :
    (s.push outer b).2.bindingsOf g = if g = s.frames.size then b else s.bindingsOf g := by
  unfold bindingsOf push
  rw [Array.getElem?_push]
  split <;> rfl

/-- Adds a frame with the given bindings, if there are any. -/
def pushResult (b? : Except NameError Bindings) : Except NameError FrameId × Store :=
  match b? with
  | .ok b => (.ok s.frames.size, (s.push outer b).2)
  | .error e => (.error e, s)

theorem pushPairs_eq (pairs : List (String × Value)) :
    s.pushPairs outer pairs = s.pushResult outer (Bindings.extend [] pairs) := rfl

/-- To bind a name in the frame just added is to add it with that name bound. -/
theorem bind_push (name : String) (value : Value) :
    (s.push outer b).2.bind s.frames.size name value = (s.push outer (b.put name value)).2 := by
  unfold bind
  rw [bindingsOf_push, if_pos rfl]
  simp only [setBindings, push, Store.mk.injEq, and_true]
  apply Array.ext
  · simp
  · intro i h₁ h₂
    have hi : i < s.frames.size + 1 := by simpa using h₂
    simp only [Array.getElem_modify, Array.getElem_push]
    by_cases hlast : i < s.frames.size
    · simp [hlast, Nat.ne_of_gt hlast]
    · simp [show s.frames.size = i by omega]

def callBindings (c : Closure) (self? : Option String) (args : List Value) :
    Except NameError Bindings :=
  (Bindings.extend [] (c.params.zip args)).map fun b =>
    self?.elim b fun name => b.put name (.closure c)

/-- A call adds one frame, with the parameters and the name of the closure bound in it. -/
theorem pushCall_eq (c : Closure) (self? : Option String) (args : List Value) :
    s.pushCall c self? args = s.pushResult (some c.frame) (callBindings c self? args) := by
  unfold pushCall callBindings
  rw [pushPairs_eq]
  unfold pushResult
  cases Bindings.extend [] (c.params.zip args) with
  | error e => rfl
  | ok b =>
    cases self? with
    | none => rfl
    | some name => exact congrArg _ (bind_push s (some c.frame) b name (.closure c))

end Push

section Scopes

/-- The bindings that can be seen from a frame, the nearest first. -/
def scopes : List Bindings := (s.chain f).map s.bindingsOf

theorem scopes_of_outerOf_none (h : s.outerOf f = none) : s.scopes f = [s.bindingsOf f] := by
  simp [scopes, chain, chainFrom, h]

variable {s f} {s' : Store} {g : FrameId}

theorem lookup_congr (h : s'.scopes g = s.scopes f) (name : String) :
    s'.lookup g name = s.lookup f name := by
  have hfind (t : Store) (k : FrameId) :
      ((t.chain k).findSome? fun g => (t.bindingsOf g).lookup name) =
        (t.scopes k).findSome? (List.lookup name) := List.findSome?_map.symm
  unfold lookup
  rw [hfind, hfind, h]

theorem visibleNames_congr (h : s'.scopes g = s.scopes f) :
    s'.visibleNames g = s.visibleNames f := by
  have hnames (t : Store) (k : FrameId) :
      ((t.chain k).flatMap fun g => (t.bindingsOf g).map Prod.fst) =
        (t.scopes k).flatMap Bindings.names := (List.flatMap_map ..).symm
  unfold visibleNames
  rw [hnames, hnames, h]

end Scopes

section Search

variable {s f} {t : Store} {name : String}

theorem exists_of_lookup {v : Value} (h : s.lookup f name = .ok v) :
    ∃ g ∈ s.chain f, (s.bindingsOf g).lookup name = some v := by
  unfold lookup at h
  split at h
  · rename_i w hfind
    cases h
    exact List.exists_of_findSome?_eq_some hfind
  · cases h

theorem findSome_congr {gs : List FrameId}
    (h : ∀ g ∈ gs, (s.bindingsOf g).lookup name = (t.bindingsOf g).lookup name) :
    (gs.findSome? fun g => (s.bindingsOf g).lookup name) =
      gs.findSome? fun g => (t.bindingsOf g).lookup name := by
  induction gs with
  | nil => rfl
  | cons g gs ih =>
    have hrest := ih fun g' hg' => h g' (by simp [hg'])
    rw [List.findSome?_cons, List.findSome?_cons, h g (by simp), hrest]

/-- Two stores in which the same frames are searched, and in each of them the name means the
same, find the same value. -/
theorem lookup_eq_of_chain (hchain : s.chain f = t.chain f)
    (h : ∀ g ∈ s.chain f, (s.bindingsOf g).lookup name = (t.bindingsOf g).lookup name) :
    s.lookup f name = t.lookup f name := by
  unfold lookup
  rw [← hchain, findSome_congr h]

theorem nearest_eq_of_chain (hchain : s.chain f = t.chain f)
    (h : ∀ g ∈ s.chain f, (s.bindingsOf g).lookup name = (t.bindingsOf g).lookup name) :
    s.nearest? f name = t.nearest? f name := by
  unfold nearest?
  rw [← hchain]
  apply List.find?_congr
  intro g hg
  simp only [Bindings.binds, h g hg]

end Search

section Holds

/-- A closure is bound in the store, by itself or inside of lists. -/
def Holds (c : Closure) : Prop :=
  ∃ f name v, (s.bindingsOf f).lookup name = some v ∧ c ∈ v.closures

variable {s f} {c : Closure}

theorem holds_of_lookup {name : String} {v : Value} (h : s.lookup f name = .ok v)
    (hc : c ∈ v.closures) : s.Holds c := by
  obtain ⟨g, -, hg⟩ := exists_of_lookup h
  exact ⟨g, name, v, hg, hc⟩

theorem holds_of_holds_setBindings {b : Bindings} (h : (s.setBindings f b).Holds c) :
    s.Holds c ∨ ∃ name v, b.lookup name = some v ∧ c ∈ v.closures := by
  obtain ⟨g, name, v, hv, hc⟩ := h
  rw [bindingsOf_setBindings] at hv
  split at hv
  · exact .inr ⟨name, v, hv, hc⟩
  · exact .inl ⟨g, name, v, hv, hc⟩

theorem holds_of_holds_bind {name : String} {v : Value} (h : (s.bind f name v).Holds c) :
    s.Holds c ∨ c ∈ v.closures := by
  rcases holds_of_holds_setBindings h with hold | ⟨other, w, hw, hc⟩
  · exact .inl hold
  · rw [Bindings.lookup_put] at hw
    split at hw
    · cases hw
      exact .inr hc
    · exact .inl ⟨f, other, w, hw, hc⟩

theorem holds_of_holds_push {outer : Option FrameId} {b : Bindings}
    (h : (s.push outer b).2.Holds c) :
    s.Holds c ∨ ∃ name v, b.lookup name = some v ∧ c ∈ v.closures := by
  obtain ⟨g, name, v, hv, hc⟩ := h
  rw [bindingsOf_push] at hv
  split at hv
  · exact .inr ⟨name, v, hv, hc⟩
  · exact .inl ⟨g, name, v, hv, hc⟩

theorem mem_of_lookup_callBindings {self? : Option String} {args : List Value} {b : Bindings}
    (h : callBindings c self? args = .ok b) {name : String} {v : Value}
    (hv : b.lookup name = some v) : v = .closure c ∨ v ∈ args := by
  have hextend : ∀ b', Bindings.extend [] (c.params.zip args) = .ok b' →
      ∀ w, b'.lookup name = some w → w ∈ args := by
    intro b' hb' w hw
    rcases Bindings.mem_of_lookup_extend hb' hw with hnil | hmem
    · cases hnil
    · exact (List.of_mem_zip hmem).2
  unfold callBindings at h
  cases hb : Bindings.extend [] (c.params.zip args) with
  | error e => rw [hb] at h; cases h
  | ok b' =>
    rw [hb] at h
    cases h
    cases self? with
    | none => exact .inr (hextend b' hb v hv)
    | some self =>
      simp only [Option.elim] at hv
      rw [Bindings.lookup_put] at hv
      split at hv
      · cases hv
        exact .inl rfl
      · exact .inr (hextend b' hb v hv)

theorem closures_of_extend {P : Closure → Prop} {ps : List (String × Value)}
    (hps : ∀ p ∈ ps, ∀ c ∈ p.2.closures, P c) {b : Bindings} (h : Bindings.extend [] ps = .ok b)
    {name : String} {v : Value} (hv : b.lookup name = some v) : ∀ c ∈ v.closures, P c := by
  rcases Bindings.mem_of_lookup_extend h hv with hnil | hmem
  · cases hnil
  · exact hps _ hmem

theorem closures_of_callBindings {P : Closure → Prop} {self? : Option String} {args : List Value}
    (hc : P c) (hargs : ∀ v ∈ args, ∀ d ∈ v.closures, P d) {b : Bindings}
    (h : callBindings c self? args = .ok b) {name : String} {v : Value}
    (hv : b.lookup name = some v) : ∀ d ∈ v.closures, P d := by
  rcases mem_of_lookup_callBindings h hv with rfl | hmem
  · intro d hd
    obtain rfl : d = c := by simpa [Value.closures] using hd
    exact hc
  · exact hargs v hmem

end Holds

end Store
end LexicalLisp
