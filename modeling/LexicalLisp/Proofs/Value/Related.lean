import Mathlib.Data.List.Forall2
import LexicalLisp.Apply

/-!
# Values that differ in their closures only

A relation on closures lifts to values: related values have the same shape and
the same data, and the closures at corresponding places are related. Nothing in
the language takes a closure apart except a call. So operators, output and truth
cannot tell related values from each other, provided that the relation respects
the parameters and does not merge or split the identities of closures.
-/

namespace LexicalLisp

/-- The same shape and the same data, with related closures at the same places. -/
inductive Value.Related (R : Closure → Closure → Prop) : Value → Value → Prop
  | integer (n : Int64) : Related R (.integer n) (.integer n)
  | float (x : Float) : Related R (.float x) (.float x)
  | boolean (b : Bool) : Related R (.boolean b) (.boolean b)
  | string (s : String) : Related R (.string s) (.string s)
  | list {vs ws : List Value} : List.Forall₂ (Related R) vs ws → Related R (.list vs) (.list ws)
  | closure {c d : Closure} : R c d → Related R (.closure c) (.closure d)
  | void : Related R .void .void

/-- Related closures have the same parameters. -/
def Closure.KeepsParams (R : Closure → Closure → Prop) : Prop :=
  ∀ c d, R c d → c.params = d.params

/-- The relation neither merges nor splits the identities of closures. -/
def Closure.KeepsIdentity (R : Closure → Closure → Prop) : Prop :=
  ∀ c d c' d', R c d → R c' d' → (c.id = c'.id ↔ d.id = d'.id)

namespace Value.Related

open Closure (KeepsParams KeepsIdentity)

variable {R S : Closure → Closure → Prop}

mutual

theorem mono (h : ∀ c d, R c d → S c d) : ∀ {v w : Value}, Related R v w → Related S v w
  | _, _, .integer n => .integer n
  | _, _, .float x => .float x
  | _, _, .boolean b => .boolean b
  | _, _, .string s => .string s
  | _, _, .list hs => .list (mono_all h hs)
  | _, _, .closure hc => .closure (h _ _ hc)
  | _, _, .void => .void

theorem mono_all (h : ∀ c d, R c d → S c d) : ∀ {vs ws : List Value},
    List.Forall₂ (Related R) vs ws → List.Forall₂ (Related S) vs ws
  | _, _, .nil => .nil
  | _, _, .cons hv hs => .cons (mono h hv) (mono_all h hs)

end

theorem isTruthy_eq {v w : Value} (h : Related R v w) : v.isTruthy = w.isTruthy := by
  cases h <;> rfl

mutual

/-- Of a closure the text shows no more than the parameters. -/
theorem text_eq (hp : KeepsParams R) : ∀ {v w : Value},
    Related R v w → v.text = w.text
  | _, _, .integer _ | _, _, .float _ | _, _, .boolean _ | _, _, .string _ | _, _, .void => rfl
  | _, _, .list hs => by simp only [text, texts_eq hp hs]
  | _, _, .closure hc => by simp only [text, hp _ _ hc]

theorem texts_eq (hp : KeepsParams R) : ∀ {vs ws : List Value},
    List.Forall₂ (Related R) vs ws → texts vs = texts ws
  | _, _, .nil => rfl
  | _, _, .cons hv hs => by simp only [texts, text_eq hp hv, texts_eq hp hs]

end

mutual

theorem beq_eq (hid : KeepsIdentity R) : ∀ {v w v' w' : Value},
    Related R v w → Related R v' w' → beq v v' = beq w w'
  | _, _, _, _, .list hs, h' => by
    cases h' with
    | list hs' => simpa only [beq] using beqAll_eq hid hs hs'
    | _ => rfl
  | _, _, _, _, .closure hc, h' => by
    cases h' with
    | closure hc' =>
      simpa only [beq, Bool.beq_eq_decide_eq, decide_eq_decide] using hid _ _ _ _ hc hc'
    | _ => rfl
  | _, _, _, _, .integer _, h' | _, _, _, _, .float _, h' | _, _, _, _, .boolean _, h'
  | _, _, _, _, .string _, h' | _, _, _, _, .void, h' => by cases h' <;> rfl

theorem beqAll_eq (hid : KeepsIdentity R) : ∀ {vs ws vs' ws' : List Value},
    List.Forall₂ (Related R) vs ws → List.Forall₂ (Related R) vs' ws' →
    beqAll vs vs' = beqAll ws ws'
  | _, _, _, _, .nil, h' => by cases h' <;> rfl
  | _, _, _, _, .cons hv hs, h' => by
    cases h' with
    | nil => rfl
    | cons hv' hs' => simp only [beqAll, beq_eq hid hv hv', beqAll_eq hid hs hs']

end

mutual

theorem equal_eq (hid : KeepsIdentity R) : ∀ {v w v' w' : Value},
    Related R v w → Related R v' w' → equal v v' = equal w w'
  | _, _, _, _, .list hs, h' => by
    cases h' with
    | list hs' => simpa only [equal] using equalAll_eq hid hs hs'
    | _ => rfl
  | _, _, _, _, .closure hc, h' => by
    cases h' with
    | closure hc' => exact beq_eq hid (.closure hc) (.closure hc')
    | _ => rfl
  | _, _, _, _, .integer _, h' | _, _, _, _, .float _, h' | _, _, _, _, .boolean _, h'
  | _, _, _, _, .string _, h' | _, _, _, _, .void, h' => by cases h' <;> rfl

theorem equalAll_eq (hid : KeepsIdentity R) : ∀ {vs ws vs' ws' : List Value},
    List.Forall₂ (Related R) vs ws → List.Forall₂ (Related R) vs' ws' →
    equalAll vs vs' = equalAll ws ws'
  | _, _, _, _, .nil, h' => by cases h' <;> rfl
  | _, _, _, _, .cons hv hs, h' => by
    cases h' with
    | nil => rfl
    | cons hv' hs' => simp only [equalAll, equal_eq hid hv hv', equalAll_eq hid hs hs']

end

end Value.Related

namespace Value

mutual

def closures : Value → List Closure
  | .closure c => [c]
  | .list items => closuresAll items
  | _ => []

def closuresAll : List Value → List Closure
  | [] => []
  | v :: vs => closures v ++ closuresAll vs

end

variable {R : Closure → Closure → Prop} {P : Closure → Prop}

mutual

theorem Related.refl : ∀ (v : Value), (∀ c ∈ v.closures, R c c) → Related R v v
  | .integer n, _ => .integer n
  | .float x, _ => .float x
  | .boolean b, _ => .boolean b
  | .string s, _ => .string s
  | .list vs, h => .list (Related.refl_all vs h)
  | .closure c, h => .closure (h c (by simp [closures]))
  | .void, _ => .void

theorem Related.refl_all : ∀ (vs : List Value), (∀ c ∈ closuresAll vs, R c c) →
    List.Forall₂ (Related R) vs vs
  | [], _ => .nil
  | v :: vs, h =>
    .cons (Related.refl v fun c hc => h c (by simp [closuresAll, hc]))
      (Related.refl_all vs fun c hc => h c (by simp [closuresAll, hc]))

end

mutual

/-- Values related by a property of single closures are the same, with that property throughout. -/
theorem Related.same : ∀ {v w : Value}, Related (fun c d => c = d ∧ P c) v w →
    v = w ∧ ∀ c ∈ v.closures, P c
  | _, _, .integer _ | _, _, .float _ | _, _, .boolean _ | _, _, .string _ | _, _, .void =>
    ⟨rfl, by simp [closures]⟩
  | _, _, .list hs => by
    obtain ⟨heq, hp⟩ := Related.same_all hs
    exact ⟨congrArg _ heq, hp⟩
  | _, _, .closure ⟨heq, hp⟩ => ⟨congrArg _ heq, by simpa [closures] using hp⟩

theorem Related.same_all : ∀ {vs ws : List Value},
    List.Forall₂ (Related (fun c d => c = d ∧ P c)) vs ws →
    vs = ws ∧ ∀ c ∈ closuresAll vs, P c
  | _, _, .nil => ⟨rfl, by simp [closuresAll]⟩
  | _, _, .cons hv hs => by
    obtain ⟨rfl, hp⟩ := Related.same hv
    obtain ⟨rfl, hps⟩ := Related.same_all hs
    refine ⟨rfl, fun c hc => ?_⟩
    rcases List.mem_append.mp hc with hc | hc
    · exact hp c hc
    · exact hps c hc

end

theorem Related.same_iff {v w : Value} :
    Related (fun c d => c = d ∧ P c) v w ↔ v = w ∧ ∀ c ∈ v.closures, P c := by
  constructor
  · exact Related.same
  · rintro ⟨rfl, hp⟩
    exact .refl v fun c hc => ⟨rfl, hp c hc⟩

theorem Related.same_all_iff {vs ws : List Value} :
    List.Forall₂ (Related (fun c d => c = d ∧ P c)) vs ws ↔
      vs = ws ∧ ∀ v ∈ vs, ∀ c ∈ v.closures, P c := by
  constructor
  · intro h
    induction h with
    | nil => simp
    | cons hvalue _ ih =>
      obtain ⟨rfl, hv⟩ := same_iff.mp hvalue
      obtain ⟨rfl, hvs⟩ := ih
      exact ⟨rfl, List.forall_mem_cons.mpr ⟨hv, hvs⟩⟩
  · rintro ⟨rfl, hp⟩
    exact List.forall₂_same.mpr fun v hv => same_iff.mpr ⟨rfl, hp v hv⟩

theorem Related.same_pairs_iff {ps qs : List (String × Value)} :
    List.Forall₂ (fun p q => p.1 = q.1 ∧ Related (fun c d => c = d ∧ P c) p.2 q.2) ps qs ↔
      ps = qs ∧ ∀ p ∈ ps, ∀ c ∈ p.2.closures, P c := by
  constructor
  · intro h
    induction h with
    | nil => simp
    | @cons p q _ _ hpq _ ih =>
      obtain ⟨hname, hvalue⟩ := hpq
      obtain ⟨hsame, hv⟩ := same_iff.mp hvalue
      obtain ⟨rfl, hps⟩ := ih
      obtain rfl : p = q := Prod.ext hname hsame
      exact ⟨rfl, List.forall_mem_cons.mpr ⟨hv, hps⟩⟩
  · rintro ⟨rfl, hp⟩
    exact List.forall₂_same.mpr fun p hmem => ⟨rfl, same_iff.mpr ⟨rfl, hp p hmem⟩⟩

end Value
end LexicalLisp
