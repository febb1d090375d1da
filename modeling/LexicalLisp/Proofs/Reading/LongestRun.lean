import Mathlib.Data.List.TakeWhile
import LexicalLisp.Proofs.Reading.Placement

/-!
# Longest runs

Characters begin with a blank, with a parenthesis or with a run of atom characters that is followed
by none, and every lexeme is such a parenthesis or run. So a lexeme stands among other characters
with which it does not go on, at either end. Two pieces of a line of which this is true are the same
if they share a character, and each character that is not blank is part of a lexeme.
-/

namespace LexicalLisp

open Text (byteLength isAtomChar isTokenBlank)
open Lexeme (IsRun IsBorder)

section Characters

variable {c : Char} {cs ds : List Char}

theorem Lexeme.IsBorder.eq_nil (h : IsBorder (cs ++ ds)) (hcs : ∀ c ∈ cs, isAtomChar c) :
    cs = [] := by
  cases cs with
  | nil => rfl
  | cons c cs =>
    have hatom := hcs c (by simp)
    rw [h c rfl] at hatom
    cases hatom

theorem Lexeme.IsRun.unique {cs' ds' : List Char} (h : cs ++ ds = cs' ++ ds') (hcs : IsRun cs)
    (hcs' : IsRun cs') (hds : IsBorder ds) (hds' : IsBorder ds') : cs = cs' := by
  rcases List.append_eq_append_iff.mp h with ⟨more, rfl, rfl⟩ | ⟨more, rfl, rfl⟩
  · rw [hds.eq_nil fun c hc => hcs'.atomChars c (by simp [hc]), List.append_nil]
  · rw [hds'.eq_nil fun c hc => hcs.atomChars c (by simp [hc]), List.append_nil]

theorem Text.exists_append_of_byteLength_le {cs' ds' : List Char} (h : cs ++ ds = cs' ++ ds')
    (hle : byteLength cs' ≤ byteLength cs) :
    ∃ between, cs = cs' ++ between ∧ ds' = between ++ ds := by
  rcases List.append_eq_append_iff.mp h with ⟨between, rfl, rfl⟩ | ⟨between, rfl, rfl⟩
  · rw [byteLength_append] at hle
    obtain rfl : between = [] := eq_nil_of_byteLength_eq_zero (by omega)
    exact ⟨[], by simp, by simp⟩
  · exact ⟨between, rfl, rfl⟩

/-- Characters begin with a blank, with a parenthesis or with a longest run of atom characters. -/
@[elab_as_elim]
theorem Text.inductionOnRuns {motive : List Char → Prop} (nil : motive [])
    (blank : ∀ c cs, isTokenBlank c → motive cs → motive (c :: cs))
    (opening : ∀ cs, motive cs → motive ('(' :: cs))
    (closing : ∀ cs, motive cs → motive (')' :: cs))
    (run : ∀ run cs, IsRun run → IsBorder cs → motive cs → motive (run ++ cs)) (cs : List Char) :
    motive cs := by
  induction hlength : cs.length using Nat.strongRecOn generalizing cs with
  | ind n ih =>
    subst hlength
    cases cs with
    | nil => exact nil
    | cons c cs =>
      have hcs : motive cs := ih _ (Nat.lt_succ_self _) cs rfl
      rcases Lexeme.char_cases c with hblank | rfl | rfl | hc
      · exact blank c cs hblank hcs
      · exact opening cs hcs
      · exact closing cs hcs
      · have hrun : IsRun (c :: cs.takeWhile isAtomChar) := by
          refine ⟨List.cons_ne_nil _ _, List.forall_mem_cons.mpr ⟨hc, ?_⟩⟩
          exact fun d hd => List.mem_takeWhile_imp hd
        have hborder : IsBorder (cs.dropWhile isAtomChar) := by
          intro d hd
          have hnot := List.head?_dropWhile_not isAtomChar cs
          rwa [hd] at hnot
        have hlater := ih (cs.dropWhile isAtomChar).length
          (Nat.lt_succ_of_le (List.dropWhile_sublist _).length_le) _ rfl
        have happend := run _ _ hrun hborder hlater
        rwa [List.cons_append, List.takeWhile_append_dropWhile] at happend

end Characters

/-- The kind of the tokens in which a character can stand that is not blank. -/
def TokenKind.ofChar (c : Char) : TokenKind :=
  if c = '(' then opening else if c = ')' then closing else atom

namespace Shape

/-- A token is one parenthesis or a run of atom characters. -/
inductive IsToken : Shape → Prop
  | opening : IsToken (.opening, ['('])
  | closing : IsToken (.closing, [')'])
  | atom {cs : List Char} (h : IsRun cs) : IsToken (.atom, cs)

/-- The characters of a token between others. An atom goes on at neither end. -/
structure FitsBetween (before after : List Char) (shape : Shape) : Prop where
  isToken : shape.IsToken
  border_before : shape.1 = .atom → IsBorder before.reverse
  border_after : shape.1 = .atom → IsBorder after

theorem IsToken.fitsBetween {shape : Shape} (h : shape.IsToken) (hatom : shape.1 ≠ .atom)
    (before after : List Char) : shape.FitsBetween before after :=
  ⟨h, (absurd · hatom), (absurd · hatom)⟩

/-- The characters of a token stand in the line at a byte offset. -/
def StandsAt (line : List Char) (start : Nat) (shape : Shape) : Prop :=
  ∃ before after, line = before ++ (shape.2 ++ after) ∧ start = byteLength before ∧
    shape.FitsBetween before after

section Uniqueness

variable {shape shape' : Shape} {c : Char}

theorem IsToken.ne_nil (h : shape.IsToken) : shape.2 ≠ [] := by
  cases h with
  | opening => exact List.cons_ne_nil _ _
  | closing => exact List.cons_ne_nil _ _
  | atom h => exact h.ne_nil

theorem IsToken.ofChar_eq (h : shape.IsToken) (hc : c ∈ shape.2) :
    TokenKind.ofChar c = shape.1 := by
  cases h with
  | opening => simp [TokenKind.ofChar, List.mem_singleton.mp hc]
  | closing => simp [TokenKind.ofChar, List.mem_singleton.mp hc]
  | atom h =>
    have hatom := h.atomChars c hc
    simp only [isAtomChar, Bool.and_eq_true, bne_iff_ne] at hatom
    simp [TokenKind.ofChar, hatom]

theorem IsToken.not_blank (h : shape.IsToken) (hc : c ∈ shape.2) : isTokenBlank c = false := by
  cases h with
  | opening =>
    rw [List.mem_singleton.mp hc]
    rfl
  | closing =>
    rw [List.mem_singleton.mp hc]
    rfl
  | atom h =>
    have hatom := h.atomChars c hc
    simp only [isAtomChar, Bool.and_eq_true, Bool.not_eq_true'] at hatom
    exact hatom.1.1

theorem IsToken.isRun (h : shape.IsToken) (hatom : shape.1 = .atom) : IsRun shape.2 := by
  cases h with
  | opening => cases hatom
  | closing => cases hatom
  | atom h => exact h

theorem IsToken.eq_of_parenthesis (h : shape.IsToken) (h' : shape'.IsToken)
    (hkind : shape.1 = shape'.1) (hatom : shape.1 ≠ .atom) :
    shape = shape' ∧ ∃ c, shape'.2 = [c] := by
  cases h with
  | opening =>
    cases h' with
    | opening => exact ⟨rfl, _, rfl⟩
    | _ => cases hkind
  | closing =>
    cases h' with
    | closing => exact ⟨rfl, _, rfl⟩
    | _ => cases hkind
  | atom => exact absurd rfl hatom

theorem StandsAt.byteLength_pos {line : List Char} {start : Nat} (h : shape.StandsAt line start) :
    0 < byteLength shape.2 := by
  obtain ⟨_, _, _, _, hfits⟩ := h
  refine Nat.pos_of_ne_zero fun hzero => ?_
  exact hfits.isToken.ne_nil (Text.eq_nil_of_byteLength_eq_zero hzero)

/-- If the one token covers the byte at which the other begins, they are the same. -/
theorem StandsAt.unique {line : List Char} {start start' : Nat} (h : shape.StandsAt line start)
    (h' : shape'.StandsAt line start') (hle : start' ≤ start)
    (hlt : start < start' + byteLength shape'.2) : start = start' ∧ shape = shape' := by
  obtain ⟨before, after, hline, rfl, hfits⟩ := h
  obtain ⟨before', after', hline', rfl, hfits'⟩ := h'
  obtain ⟨skipped, rfl, hrest⟩ := Text.exists_append_of_byteLength_le (hline ▸ hline') hle
  rw [Text.byteLength_append, Nat.add_lt_add_iff_left] at hlt
  obtain ⟨shared, hshape', hshared⟩ := Text.exists_append_of_byteLength_le hrest (Nat.le_of_lt hlt)
  have hne : shared ≠ [] := by
    rintro rfl
    rw [hshape', List.append_nil] at hlt
    exact Nat.lt_irrefl _ hlt
  -- The first character of the one is also in the other, so they are of the same kind.
  obtain ⟨c, cs, hcs⟩ := List.exists_cons_of_ne_nil hfits.isToken.ne_nil
  obtain ⟨d, ds, rfl⟩ := List.exists_cons_of_ne_nil hne
  obtain rfl : c = d := by
    rw [hcs] at hshared
    exact (List.cons.inj hshared).1
  have hc : c ∈ shape.2 := by simp [hcs]
  have hc' : c ∈ shape'.2 := by simp [hshape']
  have hkind : shape.1 = shape'.1 := by
    rw [← hfits.isToken.ofChar_eq hc, ← hfits'.isToken.ofChar_eq hc']
  by_cases hatom : shape.1 = .atom
  · have hatom' : shape'.1 = .atom := hkind ▸ hatom
    have hrun' := hfits'.isToken.isRun hatom'
    obtain rfl : skipped = [] := by
      have hborder := hfits.border_before hatom
      rw [List.reverse_append] at hborder
      rw [← List.reverse_eq_nil_iff]
      exact hborder.eq_nil fun b hb => hrun'.atomChars b (by simp_all)
    have hchars : shape'.2 = shape.2 := hrun'.unique hrest (hfits.isToken.isRun hatom)
      (hfits'.border_after hatom') (hfits.border_after hatom)
    exact ⟨by simp, Prod.ext hkind hchars.symm⟩
  · obtain ⟨rfl, x, hx⟩ := hfits.isToken.eq_of_parenthesis hfits'.isToken hkind hatom
    rw [hx] at hshape'
    obtain rfl : skipped = [] := by
      cases skipped with
      | nil => rfl
      | cons b skipped => simp at hshape'
    exact ⟨by simp, rfl⟩

end Uniqueness

end Shape

namespace Lexeme

section Scan

variable {offset : Nat} {before cs after : List Char} {c : Char}

theorem scan_run_append {run : List Char} (hrun : IsRun run) (hborder : IsBorder cs) :
    scan offset (run ++ cs) = ⟨.atom, offset, run⟩ :: scan (offset + byteLength run) cs := by
  rw [scan_append hborder, Text.scan_run offset hrun.atomChars hrun.ne_nil, List.singleton_append]

theorem isBorder_reverse_concat (hc : isAtomChar c = false) (before : List Char) :
    IsBorder (before ++ [c]).reverse := by
  rw [List.reverse_append]
  intro d hd
  cases hd
  exact hc

theorem standsAt_of_mem_cons {shape : Shape} (hfits : shape.FitsBetween before cs)
    (hnext : ∀ l ∈ scan (byteLength (before ++ shape.2)) cs,
      l.shape.StandsAt (before ++ shape.2 ++ cs) l.start) :
    ∀ l ∈ ⟨shape.1, byteLength before, shape.2⟩ :: scan (byteLength before + byteLength shape.2) cs,
      l.shape.StandsAt (before ++ (shape.2 ++ cs)) l.start := by
  rw [Text.byteLength_append, List.append_assoc] at hnext
  exact List.forall_mem_cons.mpr ⟨⟨before, cs, rfl, rfl, hfits⟩, hnext⟩

/-- If no atom goes on from what is before the characters, the lexemes stand in the whole. -/
theorem standsAt_of_mem_scan (before : List Char) (h : IsBorder before.reverse ∨ IsBorder cs) :
    ∀ l ∈ scan (byteLength before) cs, l.shape.StandsAt (before ++ cs) l.start := by
  induction cs using Text.inductionOnRuns generalizing before with
  | nil => exact nofun
  | blank c cs hblank ih =>
    have hc : isAtomChar c = false := by simp [isAtomChar, hblank]
    have hnext := ih (before ++ [c]) (.inl (isBorder_reverse_concat hc before))
    rw [Text.byteLength_append, ← List.append_cons] at hnext
    rw [scan_blank hblank]
    exact hnext
  | opening cs ih =>
    have hfits := Shape.IsToken.opening.fitsBetween (by decide) before cs
    rw [scan_opening]
    exact standsAt_of_mem_cons hfits (ih _ (.inl (isBorder_reverse_concat rfl before)))
  | closing cs ih =>
    have hfits := Shape.IsToken.closing.fitsBetween (by decide) before cs
    rw [scan_closing]
    exact standsAt_of_mem_cons hfits (ih _ (.inl (isBorder_reverse_concat rfl before)))
  | run run cs hrun hborder ih =>
    have hbefore : IsBorder before.reverse :=
      h.resolve_right fun hrun' => hrun.ne_nil (hrun'.eq_nil hrun.atomChars)
    have hfits : Shape.FitsBetween before cs (.atom, run) :=
      ⟨.atom hrun, fun _ => hbefore, fun _ => hborder⟩
    rw [scan_run_append hrun hborder]
    exact standsAt_of_mem_cons hfits (ih _ (.inr hborder))

theorem standsAt_of_mem_ofLine : ∀ l ∈ scan 0 cs, l.shape.StandsAt cs l.start :=
  standsAt_of_mem_scan [] (.inl nofun)

theorem pairwise_scan : (scan offset cs).Pairwise fun l next => l.stop ≤ next.start := by
  induction cs using Text.inductionOnRuns generalizing offset with
  | nil => exact .nil
  | blank c cs hblank ih =>
    rw [scan_blank hblank]
    exact ih
  | opening cs ih =>
    rw [scan_opening]
    exact List.pairwise_cons.mpr ⟨le_start_of_mem_scan, ih⟩
  | closing cs ih =>
    rw [scan_closing]
    exact List.pairwise_cons.mpr ⟨le_start_of_mem_scan, ih⟩
  | run run cs hrun hborder ih =>
    rw [scan_run_append hrun hborder]
    exact List.pairwise_cons.mpr ⟨le_start_of_mem_scan, ih⟩

theorem shape_toToken (number : Nat) (l : Lexeme) : (l.toToken number).shape = l.shape :=
  Prod.ext rfl String.toList_ofList

def Covers (l : Lexeme) (place : Nat) : Prop := l.start ≤ place ∧ place < l.stop

/-- What stands in the characters of a lexeme and in others after them is covered if what stands
in the others is. -/
theorem exists_covers_cons {l : Lexeme} {ls : List Lexeme}
    (hcs : before ++ c :: after = l.chars ++ cs)
    (hls : ∀ between, between ++ c :: after = cs →
      ∃ next ∈ ls, next.Covers (l.start + byteLength l.chars + byteLength between)) :
    ∃ next ∈ l :: ls, next.Covers (l.start + byteLength before) := by
  by_cases hplace : byteLength before < byteLength l.chars
  · exact ⟨l, List.mem_cons_self, Nat.le_add_right _ _, Nat.add_lt_add_left hplace _⟩
  · obtain ⟨between, rfl, hbetween⟩ :=
      Text.exists_append_of_byteLength_le hcs (Nat.not_lt.mp hplace)
    obtain ⟨next, hnext, hcovers⟩ := hls between hbetween.symm
    rw [Nat.add_assoc, ← Text.byteLength_append] at hcovers
    exact ⟨next, List.mem_cons_of_mem _ hnext, hcovers⟩

theorem exists_covers (hc : isTokenBlank c = false) :
    ∃ l ∈ scan offset (before ++ c :: after), l.Covers (offset + byteLength before) := by
  generalize hcs : before ++ c :: after = cs
  induction cs using Text.inductionOnRuns generalizing offset before with
  | nil => simp at hcs
  | blank d cs hblank ih =>
    rw [scan_blank hblank]
    cases before with
    | nil =>
      rw [(List.cons.inj hcs).1, hblank] at hc
      cases hc
    | cons b before =>
      obtain ⟨rfl, hlater⟩ := List.cons.inj hcs
      rw [Text.byteLength_cons, ← Nat.add_assoc]
      exact ih hlater
  | opening cs ih =>
    rw [scan_opening]
    exact exists_covers_cons hcs fun _ => ih
  | closing cs ih =>
    rw [scan_closing]
    exact exists_covers_cons hcs fun _ => ih
  | run run cs hrun hborder ih =>
    rw [scan_run_append hrun hborder]
    exact exists_covers_cons hcs fun _ => ih

end Scan

end Lexeme

end LexicalLisp
