import Mathlib.Data.List.Nodup
import LexicalLisp.Proofs.Evaluation.Invariant
import LexicalLisp.Proofs.Store.Frames

/-!
# Frames bind a name at most once

To bind a name takes the place of an older binding of it, and the bindings of a new frame
are made one by one, so that no frame ever comes to have two bindings of a name. What is
listed among the bindings of a frame is therefore what the names mean there.
-/

namespace LexicalLisp

namespace Bindings

variable {b b' : Bindings} {name : String} {v : Value}

theorem names_put (name : String) (v : Value) (b : Bindings) :
    (b.put name v).names = if name ∈ b.names then b.names else b.names ++ [name] := by
  induction b with
  | nil => simp [put]
  | cons entry rest ih =>
    obtain ⟨key, old⟩ := entry
    by_cases hkey : name = key
    · simp [put, hkey]
    · have hcons : names (put name v ((key, old) :: rest)) = key :: (put name v rest).names := by
        simp [put, hkey]
      rw [hcons, ih]
      by_cases hmem : name ∈ names rest
      · simp [hmem]
      · simp [hkey, hmem]

theorem nodup_nil : (names []).Nodup := List.nodup_nil

theorem nodup_put (h : b.names.Nodup) (name : String) (v : Value) : (b.put name v).names.Nodup := by
  rw [names_put]
  split
  · exact h
  · rename_i hname
    rw [← List.concat_eq_append]
    exact h.concat hname

theorem nodup_extend {ps : List (String × Value)} (h : b.names.Nodup) (hb : b.extend ps = .ok b') :
    b'.names.Nodup := by
  induction ps generalizing b with
  | nil =>
    cases hb
    exact h
  | cons p ps ih =>
    obtain ⟨name, v⟩ := p
    unfold extend at hb
    split at hb
    · cases hb
    · exact ih (nodup_put h name v) hb

/-- The name is the first one in the list that stands further in front as well. -/
def FirstRepeated (name : String) (names : List String) : Prop :=
  ∃ before after, names = before ++ name :: after ∧ before.Nodup ∧ name ∈ before

theorem FirstRepeated.not_nodup {names : List String} (h : FirstRepeated name names) :
    ¬names.Nodup := by
  obtain ⟨before, after, rfl, -, hmem⟩ := h
  intro hnodup
  exact (List.nodup_append.mp hnodup).2.2 name hmem name List.mem_cons_self rfl

theorem extend_eq_error_iff {ps : List (String × Value)} :
    b.extend ps = .error (.alreadyDefined name) ↔ ∃ before after,
      names ps = before ++ name :: after ∧ before.Nodup ∧
        (∀ other ∈ before, b.binds other = false) ∧ (b.binds name = true ∨ name ∈ before) := by
  induction ps generalizing b with
  | nil => simp [extend]
  | cons p ps ih =>
    obtain ⟨key, v⟩ := p
    unfold extend
    cases hkey : b.binds key with
    | true =>
      rw [if_pos rfl]
      constructor
      · rintro ⟨⟩
        exact ⟨[], names ps, rfl, List.nodup_nil, nofun, .inl hkey⟩
      · rintro ⟨before, after, hnames, -, hfree, -⟩
        cases before with
        | nil =>
          obtain ⟨rfl, -⟩ := List.cons.inj hnames
          rfl
        | cons other before =>
          obtain ⟨rfl, -⟩ := List.cons.inj hnames
          simp [hkey] at hfree
    | false =>
      rw [if_neg Bool.false_ne_true, ih]
      constructor
      · rintro ⟨before, after, hnames, hnodup, hfree, hname⟩
        refine ⟨key :: before, after, congrArg (key :: ·) hnames, ?_, ?_, ?_⟩
        · exact List.nodup_cons.mpr ⟨fun hmem => by simpa using hfree key hmem, hnodup⟩
        · simp only [binds_put, Bool.or_eq_false_iff] at hfree
          simpa [hkey] using fun other hmem => (hfree other hmem).2
        · simpa [or_assoc, or_left_comm] using hname
      · rintro ⟨before, after, hnames, hnodup, hfree, hname⟩
        cases before with
        | nil =>
          obtain ⟨rfl, -⟩ := List.cons.inj hnames
          simp [hkey] at hname
        | cons other before =>
          obtain ⟨rfl, hrest⟩ := List.cons.inj hnames
          obtain ⟨hother, hnodup⟩ := List.nodup_cons.mp hnodup
          refine ⟨before, after, hrest, hnodup, fun y hy => ?_, ?_⟩
          · have hne : y ≠ key := fun heq => hother (heq ▸ hy)
            simpa [hne] using hfree y (List.mem_cons_of_mem _ hy)
          · simpa [or_assoc, or_left_comm] using hname

theorem extend_nil_eq_error_iff {ps : List (String × Value)} :
    extend [] ps = .error (.alreadyDefined name) ↔ FirstRepeated name (names ps) := by
  simp [extend_eq_error_iff, FirstRepeated]

theorem mem_of_lookup (h : b.lookup name = some v) : (name, v) ∈ b := by
  obtain ⟨l₁, l₂, rfl, -⟩ := List.lookup_eq_some_iff.mp h
  simp

theorem lookup_eq_of_mem (h : b.names.Nodup) (hmem : (name, v) ∈ b) : b.lookup name = some v := by
  induction b with
  | nil => cases hmem
  | cons entry rest ih =>
    obtain ⟨key, w⟩ := entry
    have hcons : key ∉ names rest ∧ (names rest).Nodup := List.nodup_cons.mp h
    rw [lookup_cons]
    rcases List.mem_cons.mp hmem with heq | hrest
    · cases heq
      rw [if_pos rfl]
    · have hname : name ∈ names rest := List.mem_map_of_mem hrest
      have hne : name ≠ key := fun heq => hcons.1 (heq ▸ hname)
      rw [if_neg hne]
      exact ih hcons.2 hrest

end Bindings

namespace Store

def BindsOnce (s : Store) : Prop := ∀ f, (s.bindingsOf f).names.Nodup

namespace BindsOnce

variable {s : Store}

theorem empty : Store.empty.BindsOnce := fun _ => Bindings.nodup_nil

variable (h : s.BindsOnce)
include h

theorem setBindings (f : FrameId) {b : Bindings} (hb : b.names.Nodup) :
    (s.setBindings f b).BindsOnce := by
  intro g
  rw [bindingsOf_setBindings]
  split
  · exact hb
  · exact h g

theorem bind (f : FrameId) (name : String) (v : Value) : (s.bind f name v).BindsOnce :=
  h.setBindings f (Bindings.nodup_put (h f) name v)

theorem define (f : FrameId) (name : String) (v : Value) : (s.define f name v).2.BindsOnce := by
  unfold Store.define
  split
  · exact h
  · exact h.bind f name v

theorem assign (f : FrameId) (name : String) (v : Value) : (s.assign f name v).2.BindsOnce := by
  unfold Store.assign
  split
  · exact h.bind _ name v
  · exact h

theorem pushResult (outer : Option FrameId) {b? : Except NameError Bindings}
    (hb : ∀ b, b? = .ok b → b.names.Nodup) : (s.pushResult outer b?).2.BindsOnce := by
  cases b? with
  | error e => exact h
  | ok b =>
    intro g
    simp only [Store.pushResult]
    rw [bindingsOf_push]
    split
    · exact hb b rfl
    · exact h g

theorem pushPairs (outer : Option FrameId) (pairs : List (String × Value)) :
    (s.pushPairs outer pairs).2.BindsOnce := by
  rw [pushPairs_eq]
  exact h.pushResult outer fun b hb => Bindings.nodup_extend Bindings.nodup_nil hb

theorem pushCall (c : Closure) (self? : Option String) (args : List Value) :
    (s.pushCall c self? args).2.BindsOnce := by
  rw [pushCall_eq]
  refine h.pushResult (some c.frame) fun b hb => ?_
  unfold callBindings at hb
  cases hextend : Bindings.extend [] (c.params.zip args) with
  | error e =>
    rw [hextend] at hb
    cases hb
  | ok b' =>
    have hnodup : b'.names.Nodup := Bindings.nodup_extend Bindings.nodup_nil hextend
    rw [hextend] at hb
    cases hb
    cases self? with
    | none => exact hnodup
    | some name => exact Bindings.nodup_put hnodup name _

end BindsOnce

end Store

/-- Nothing but the store matters. -/
def bindsOnce : Invariant where
  World := Unit
  le _ _ := True
  holds _ := Store.BindsOnce
  closures _ _ := True
  tolerates _ := True
  le_refl _ := trivial
  le_trans _ _ _ _ _ := trivial
  closures_mono _ _ _ := trivial
  tolerates_local _ := trivial

namespace bindsOnce

theorem acts {α : Type} {w : bindsOnce.World} {P : bindsOnce.World → α → Prop}
    {r : Except NameError α × Store} (h : r.2.BindsOnce) (hP : ∀ a, P w a) :
    bindsOnce.Acts w P r := Invariant.acts_of_holds h (fun a _ => hP a) fun _ _ => trivial

theorem sound : bindsOnce.Sound (fun _ _ => True) (fun _ => True) where
  frames_mono _ _ h := h
  parts _ _ _ := trivial
  body _ := trivial
  lookup h _ _ _ := acts h fun _ _ _ => trivial
  define h _ _ _ := acts (h.define _ _ _) fun _ => trivial
  assign h _ _ _ := acts (h.assign _ _ _) fun _ => trivial
  openLet h _ _ := acts (h.pushPairs _ _) fun _ => trivial
  openCall h _ _ _ := acts (h.pushCall _ _ _) fun _ => trivial
  makeClosure h _ _ _ := ⟨(), trivial, h, trivial⟩
  refused _ := trivial
  endOfInput := trivial

end bindsOnce

theorem Session.run_bindsOnce (n : Nat) (program : List Expr) (f : FrameId) {m : Machine}
    (h : m.store.BindsOnce) : (run n program f m).Leaves fun m' => m'.store.BindsOnce := by
  have hends := bindsOnce.sound.run_keeps n (w := ()) (f := f) trivial
    (fun e (_ : e ∈ program) => trivial) h
  exact hends.leaves.imp fun _ hm' => hm'.choose_spec.2

end LexicalLisp
