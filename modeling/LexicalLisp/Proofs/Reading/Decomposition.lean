import Mathlib.Data.List.Chain
import Mathlib.Data.List.Sort
import LexicalLisp.Proofs.Reading.LongestRun
import LexicalLisp.Proofs.Reading.OnDemand
import LexicalLisp.Proofs.Reading.Position
import LexicalLisp.Proofs.Reading.SameShapes

/-!
# What lines fall into

The tokens of lines can be described without a scan. Each of them is a parenthesis or a run of atom
characters with no atom character next to it, its span says where it stands in its line, and the
spans come in order and leave out nothing but blanks. A token of one such list is in every other,
because its first character has to be covered there, so there is only one list. Hence blanks matter
only where they keep two atoms apart: tokens written out with any others are scanned as they were.
-/

namespace LexicalLisp

open Text (byteLength isAtomChar isTokenBlank)
open Lexeme (IsRun IsBorder)

/-- The one span ends before the other begins, in its line or in a later one. -/
def Span.Precedes (s next : Span) : Prop :=
  s.line < next.line ∨ s.line = next.line ∧ s.start < next.start ∧ s.stop ≤ next.start

def Span.Covers (s : Span) (line place : Nat) : Prop :=
  s.line = line ∧ s.start ≤ place ∧ place < s.stop

namespace Token

/-- The tokens are what the lines fall into. Each stands in its line where its span says, they come
in order and do not overlap, and all characters outside of them are blank. -/
structure MakeUp (lines : List String) (tokens : List Token) : Prop where
  stands : ∀ t ∈ tokens, ∃ line ∈ lines[t.span.line]?, t.shape.StandsAt line.toList t.span.start ∧
    t.span.stop = t.span.start + byteLength t.text.toList
  ordered : tokens.Pairwise fun t next => t.span.Precedes next.span
  covered : ∀ number, ∀ line ∈ lines[number]?, ∀ before c after,
    line.toList = before ++ c :: after →
      isTokenBlank c ∨ ∃ t ∈ tokens, t.span.Covers number (byteLength before)

section Uniqueness

variable {lines : List String} {ts us : List Token}

instance : Std.Irrefl fun t next : Token => t.span.Precedes next.span where
  irrefl t h := by
    unfold Span.Precedes at h
    omega

instance : Std.Antisymm fun t next : Token => t.span.Precedes next.span where
  antisymm t next h h' := by
    unfold Span.Precedes at h h'
    omega

/-- Each token is among others of the same lines: it is the one that covers its first character. -/
theorem MakeUp.subset (hts : MakeUp lines ts) (hus : MakeUp lines us) : ts ⊆ us := by
  intro t ht
  obtain ⟨line, hline, hstands, hstop⟩ := hts.stands t ht
  have hcovered : ∃ u ∈ us, u.span.Covers t.span.line t.span.start := by
    obtain ⟨before, after, hsplit, hstart, hfits⟩ := hstands
    obtain ⟨c, cs, hcs⟩ := List.exists_cons_of_ne_nil hfits.isToken.ne_nil
    have hc : isTokenBlank c = false := hfits.isToken.not_blank (by simp [hcs])
    rw [hcs, List.cons_append] at hsplit
    rw [hstart]
    exact (hus.covered _ line hline before c _ hsplit).resolve_left (Bool.eq_false_iff.mp hc)
  obtain ⟨u, hu, hnumber, hle, hlt⟩ := hcovered
  obtain ⟨line', hline', hstands', hstop'⟩ := hus.stands u hu
  rw [hnumber] at hline'
  obtain rfl : line = line' := Option.some.inj (hline.symm.trans hline')
  rw [hstop'] at hlt
  obtain ⟨hstart, hshape⟩ := hstands.unique hstands' hle hlt
  obtain ⟨hkind, hchars⟩ := Prod.mk.inj hshape
  have htext : t.text = u.text := String.toList_inj.mp hchars
  have hstop'' : t.span.stop = u.span.stop := by rw [hstop, hstop', hstart, htext]
  obtain rfl : t = u := by
    obtain ⟨kind, text, line, start, stop⟩ := t
    cases hkind
    cases htext
    cases hnumber
    cases hstart
    cases hstop''
    rfl
  exact hu

theorem MakeUp.unique (hts : MakeUp lines ts) (hus : MakeUp lines us) : ts = us :=
  hts.ordered.eq_of_mem_iff hus.ordered fun _ => ⟨(hts.subset hus ·), (hus.subset hts ·)⟩

end Uniqueness

section Existence

variable {number : Nat} {lines : List String} {t : Token}

theorem mem_ofLines_iff : t ∈ ofLines number lines ↔
    ∃ i, ∃ line ∈ lines[i]?, t ∈ ofLine (number + i) line := by
  constructor
  · intro h
    obtain ⟨earlier, line, later, rfl, ht⟩ := exists_of_mem_ofLines h
    exact ⟨earlier.length, line, by simp, ht⟩
  · rintro ⟨i, line, hline, ht⟩
    induction lines generalizing number i with
    | nil => cases hline
    | cons first lines ih =>
      cases i with
      | zero =>
        cases hline
        exact List.mem_append_left _ ht
      | succ i =>
        rw [Nat.add_left_comm, Nat.add_comm i] at ht
        exact List.mem_append_right _ (ih i hline ht)

theorem pairwise_ofLine (number : Nat) (line : String) :
    (ofLine number line).Pairwise fun t next => t.span.Precedes next.span := by
  refine List.pairwise_map.mpr (Lexeme.pairwise_scan.imp_of_mem fun {l _} hl _ hle => ?_)
  have hlt : l.start < l.stop :=
    Nat.lt_add_of_pos_right (Lexeme.standsAt_of_mem_ofLine l hl).byteLength_pos
  exact .inr ⟨rfl, hlt.trans_le hle, hle⟩

theorem pairwise_ofLines (number : Nat) (lines : List String) :
    (ofLines number lines).Pairwise fun t next => t.span.Precedes next.span := by
  induction lines generalizing number with
  | nil => exact .nil
  | cons line lines ih =>
    refine List.pairwise_append.mpr ⟨pairwise_ofLine number line, ih _, fun t ht next hnext => ?_⟩
    obtain ⟨i, line', -, hnext⟩ := mem_ofLines_iff.mp hnext
    have hline := line_of_mem_ofLine t ht
    have hline' := line_of_mem_ofLine next hnext
    exact .inl (by omega)

theorem makeUp_ofLines (lines : List String) : MakeUp lines (ofLines 0 lines) where
  stands t ht := by
    obtain ⟨i, line, hline, ht⟩ := mem_ofLines_iff.mp ht
    rw [Nat.zero_add] at ht
    obtain ⟨l, hl, rfl⟩ := List.mem_map.mp ht
    refine ⟨line, hline, ?_, ?_⟩
    · rw [Lexeme.shape_toToken]
      exact Lexeme.standsAt_of_mem_ofLine l hl
    · simp [Lexeme.toToken, Lexeme.stop]
  ordered := pairwise_ofLines 0 lines
  covered number line hline before c after hsplit := by
    refine or_iff_not_imp_left.mpr fun hc => ?_
    obtain ⟨l, hl, hcovers⟩ : ∃ l ∈ Lexeme.scan 0 (before ++ c :: after),
        l.Covers (0 + byteLength before) := Lexeme.exists_covers (Bool.eq_false_iff.mpr hc)
    rw [← hsplit] at hl
    rw [Nat.zero_add] at hcovers
    refine ⟨l.toToken number, mem_ofLines_iff.mpr ⟨number, line, hline, ?_⟩, rfl, hcovers⟩
    rw [Nat.zero_add]
    exact List.mem_map_of_mem hl

end Existence

end Token

/-- A way to write tokens: what stands before each of them, and what stands at the end. -/
structure Layout where
  items : List (List Char × Shape)
  trailing : List Char

namespace Layout

def chars (layout : Layout) : List Char :=
  layout.items.flatMap (fun item => item.1 ++ item.2.2) ++ layout.trailing

def text (layout : Layout) : String := String.ofList layout.chars

def shapes (layout : Layout) : List Shape := layout.items.map Prod.snd

/-- Nothing but blanks stands around the tokens, and there are some between two atoms. -/
structure IsSpaced (layout : Layout) : Prop where
  isToken : ∀ item ∈ layout.items, item.2.IsToken
  blank_before : ∀ item ∈ layout.items, ∀ c ∈ item.1, isTokenBlank c
  blank_after : ∀ c ∈ layout.trailing, isTokenBlank c
  apart : layout.items.IsChain fun item next =>
    item.2.1 = .atom → next.2.1 = .atom → next.1 ≠ []

variable {layout : Layout} {items : List (List Char × Shape)} {trailing : List Char}
  {item : List Char × Shape}

/-- Atoms do not go on in what is written of later tokens, if this begins with a blank, with a
parenthesis or not at all. -/
theorem isBorder_chars (h : IsSpaced ⟨items, trailing⟩)
    (hhead : ∀ next ∈ items.head?, next.2.1 = .atom → next.1 ≠ []) :
    IsBorder (chars ⟨items, trailing⟩) := by
  cases items with
  | nil =>
    intro c hc
    simp [isAtomChar, h.blank_after c (List.mem_of_mem_head? hc)]
  | cons next items =>
    obtain ⟨blanks, shape⟩ := next
    have hblank := h.blank_before (blanks, shape) List.mem_cons_self
    unfold chars
    rw [List.flatMap_cons, List.append_assoc, List.append_assoc]
    by_cases hnil : blanks = []
    · subst hnil
      have hshape := h.isToken ([], shape) List.mem_cons_self
      cases hshape with
      | opening =>
        rintro c ⟨⟩
        rfl
      | closing =>
        rintro c ⟨⟩
        rfl
      | atom => exact absurd rfl (hhead _ rfl rfl)
    · exact Lexeme.isBorder_of_blanks hblank hnil _

theorem shapes_chars (h : layout.IsSpaced) : Text.shapes layout.chars = layout.shapes := by
  obtain ⟨items, trailing⟩ := layout
  induction items with
  | nil =>
    have htrailing : Text.shapes ([] ++ trailing) = Text.shapes [] :=
      Text.shapes_append_blanks_nil h.blank_after
    exact htrailing
  | cons item items ih =>
    obtain ⟨hitem, hitems⟩ := List.forall_mem_cons.mp h.isToken
    obtain ⟨hblank, hblanks⟩ := List.forall_mem_cons.mp h.blank_before
    obtain ⟨hapart, hrest⟩ := List.isChain_cons.mp h.apart
    have hlater : IsSpaced ⟨items, trailing⟩ := ⟨hitems, hblanks, h.blank_after, hrest⟩
    have hchars : chars ⟨item :: items, trailing⟩ =
        item.1 ++ (item.2.2 ++ chars ⟨items, trailing⟩) := by simp [chars]
    rw [hchars, Text.shapes_blanks_append hblank]
    obtain ⟨blanks, shape⟩ := item
    cases hitem with
    | opening => exact (Text.shapes_opening _).trans (congrArg _ (ih hlater))
    | closing => exact (Text.shapes_closing _).trans (congrArg _ (ih hlater))
    | @atom cs hrun =>
      have hborder : IsBorder (chars ⟨items, trailing⟩) :=
        isBorder_chars hlater fun next hnext => hapart next hnext rfl
      rw [Text.shapes_append hborder, Text.shapes_run hrun, ih hlater]
      rfl

theorem shapes_ofLines {layouts : List Layout} (h : ∀ layout ∈ layouts, layout.IsSpaced)
    (number : Nat) :
    (Token.ofLines number (layouts.map text)).map Token.shape = layouts.flatMap shapes := by
  induction layouts generalizing number with
  | nil => rfl
  | cons layout layouts ih =>
    obtain ⟨hlayout, hlayouts⟩ := List.forall_mem_cons.mp h
    rw [List.map_cons, Token.ofLines, List.map_append, Token.shapes_ofLine, text,
      String.toList_ofList, shapes_chars hlayout, ih hlayouts, List.flatMap_cons]

end Layout

/-- The tokens of lines are determined by what the lines fall into: parentheses and longest runs
of atom characters, at the spans where they stand, with nothing but blanks outside. A stream gives
these tokens one after the other. So tokens that are written out are found again with their kinds
and texts if there are only blanks around them, and some between two atoms. They may be written in
several lines or in one text, in which case the blanks may be line breaks. -/
theorem tokens_are_longest_runs :
    (∀ lines tokens, Token.MakeUp lines tokens ↔ tokens = Token.ofLines 0 lines) ∧
    (∀ lines, (TokenStream.ofLines lines).drain.1 = Token.ofLines 0 lines) ∧
    (∀ layouts : List Layout, (∀ layout ∈ layouts, layout.IsSpaced) →
      (Token.ofLines 0 (layouts.map Layout.text)).map Token.shape =
        layouts.flatMap Layout.shapes) ∧
    ∀ layout : Layout, layout.IsSpaced →
      (Token.ofLines 0 (Text.lines layout.text)).map Token.shape = layout.shapes := by
  refine ⟨fun lines tokens => ?_, fun lines => ?_, fun _ h => Layout.shapes_ofLines h 0, ?_⟩
  · constructor
    · exact fun h => h.unique (Token.makeUp_ofLines lines)
    · rintro rfl
      exact Token.makeUp_ofLines lines
  · rw [TokenStream.drain, TokenStream.take_eq_pulls]
    exact List.take_of_length_le (Nat.le_succ _)
  · intro layout h
    rw [Token.shapes_ofText, Layout.text, String.toList_ofList, Layout.shapes_chars h]

/-- Parentheses need no blanks around them. A no-break space and a control character are parts of
atoms, a form feed and a line break keep them apart. -/
theorem tokens_between_blanks_are_found :
    let layout : Layout :=
      ⟨[([], .opening, ['(']), ([], .atom, "x\u00a0y".toList), ([], .closing, [')']),
        ([], .atom, "'\x01".toList), ("\x0c\r\n".toList, .atom, "#".toList)], ['\x0b']⟩
    layout.IsSpaced ∧ layout.text = "(x\u00a0y)'\x01\x0c\r\n#\x0b" ∧
      (Token.ofLines 0 (Text.lines layout.text)).map Token.shape = layout.shapes ∧
      Token.MakeUp (Text.lines layout.text)
        [⟨.opening, "(", ⟨0, 0, 1⟩⟩, ⟨.atom, "x\u00a0y", ⟨0, 1, 5⟩⟩, ⟨.closing, ")", ⟨0, 5, 6⟩⟩,
          ⟨.atom, "'\x01", ⟨0, 6, 8⟩⟩, ⟨.atom, "#", ⟨1, 0, 1⟩⟩] := by
  intro layout
  have hname : IsRun "x\u00a0y".toList := ⟨by simp, by simp [isAtomChar, isTokenBlank]⟩
  have hquote : IsRun "'\x01".toList := ⟨by simp, by simp [isAtomChar, isTokenBlank]⟩
  have hsign : IsRun "#".toList := ⟨by simp, by simp [isAtomChar, isTokenBlank]⟩
  have hspaced : layout.IsSpaced := by
    constructor
    · simp only [layout, List.forall_mem_cons]
      exact ⟨.opening, .atom hname, .closing, .atom hquote, .atom hsign, List.forall_mem_nil _⟩
    · simp [layout, isTokenBlank]
    · simp [layout, isTokenBlank]
    · simp [layout]
  refine ⟨hspaced, rfl, tokens_are_longest_runs.2.2.2 layout hspaced, ?_⟩
  rw [tokens_are_longest_runs.1]
  decide +kernel

end LexicalLisp
