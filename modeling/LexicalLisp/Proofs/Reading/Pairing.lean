import Mathlib.Data.List.Induction
import LexicalLisp.Proofs.Reading.Position

/-!
# Partners of parentheses

Which parenthesis of a text belongs to which is a matter of its characters alone. Characters are
paired if every parenthesis among them has its partner among them. An opening parenthesis is
closed by the first closing one that comes after paired characters, and it is open as long as all
characters after it are paired.

The scan for a fault passes over paired characters and so keeps the opening parentheses that are
open. Hence it ends at the first closing parenthesis before which none is open, or else at the
last opening one that is not closed.
-/

namespace LexicalLisp

open Text (byteLength)
open Token (fault?)

namespace Text

/-- Each parenthesis among the characters has its partner among them. -/
inductive Paired : List Char → Prop
  | nil : Paired []
  | other {c : Char} {cs : List Char} (hopen : c ≠ '(') (hclose : c ≠ ')') (hcs : Paired cs) :
      Paired (c :: cs)
  | pair {inside rest : List Char} (hinside : Paired inside) (hrest : Paired rest) :
      Paired ('(' :: (inside ++ ')' :: rest))

def HasOpen (before : List Char) : Prop :=
  ∃ outer inside, before = outer ++ '(' :: inside ∧ Paired inside

/-- The characters close a parenthesis that is open before them. -/
def IsClosed (after : List Char) : Prop :=
  ∃ inside rest, after = inside ++ ')' :: rest ∧ Paired inside

/-- Whenever a parenthesis closes, another one is open. -/
def NoStray (cs : List Char) : Prop :=
  ∀ before after, cs = before ++ ')' :: after → HasOpen before

theorem append_cons_eq_append_cons {c d : Char} {as bs cs ds : List Char}
    (h : as ++ c :: bs = cs ++ d :: ds) :
    (∃ between, as = cs ++ d :: between ∧ ds = between ++ c :: bs) ∨
    (as = cs ∧ c = d ∧ bs = ds) ∨
    ∃ between, cs = as ++ c :: between ∧ bs = between ++ d :: ds := by
  rcases List.append_eq_append_iff.mp h with ⟨middle, hcs, hbs⟩ | ⟨middle, has, hds⟩
  · cases middle with
    | nil => exact .inr (.inl ⟨by simpa using hcs.symm, by simpa using hbs⟩)
    | cons first between =>
      obtain ⟨rfl, hbetween⟩ := List.cons_eq_cons.mp hbs
      exact .inr (.inr ⟨between, hcs, hbetween⟩)
  · cases middle with
    | nil =>
      obtain ⟨hd, hds⟩ := List.cons_eq_cons.mp hds
      exact .inr (.inl ⟨by simpa using has, hd.symm, hds.symm⟩)
    | cons first between =>
      obtain ⟨rfl, hbetween⟩ := List.cons_eq_cons.mp hds
      exact .inl ⟨between, has, hbetween⟩

section Extend

variable {before after : List Char}

theorem HasOpen.append_left (h : HasOpen before) (earlier : List Char) :
    HasOpen (earlier ++ before) := by
  obtain ⟨outer, inside, rfl, hinside⟩ := h
  exact ⟨earlier ++ outer, inside, (List.append_assoc ..).symm, hinside⟩

theorem IsClosed.append_right (h : IsClosed after) (later : List Char) :
    IsClosed (after ++ later) := by
  obtain ⟨inside, rest, rfl, hinside⟩ := h
  exact ⟨inside, rest ++ later, by simp, hinside⟩

end Extend

namespace Paired

variable {cs ds : List Char}

theorem append (hcs : Paired cs) (hds : Paired ds) : Paired (cs ++ ds) := by
  induction hcs with
  | nil => exact hds
  | other hopen hclose _ ih => exact .other hopen hclose ih
  | pair hinside _ _ ih =>
    rw [List.cons_append, List.append_assoc]
    exact .pair hinside ih

theorem isClosed (h : Paired cs) {before after : List Char} (hcs : cs = before ++ '(' :: after) :
    IsClosed after := by
  induction h generalizing before after with
  | nil => simp at hcs
  | other hopen _ _ ih =>
    rcases List.cons_eq_append_iff.mp hcs with ⟨_, heq⟩ | ⟨before, rfl, heq⟩
    · exact absurd (List.cons_eq_cons.mp heq).1.symm hopen
    · exact ih heq
  | pair hinside _ ihinside ihrest =>
    rcases List.cons_eq_append_iff.mp hcs with ⟨_, heq⟩ | ⟨before, rfl, heq⟩
    · obtain ⟨_, rfl⟩ := List.cons_eq_cons.mp heq
      exact ⟨_, _, rfl, hinside⟩
    · rcases append_cons_eq_append_cons heq with ⟨between, hin, rfl⟩ | ⟨_, hne, _⟩ |
        ⟨between, _, hin⟩
      · exact (ihinside hin).append_right _
      · exact absurd hne (by decide)
      · exact ihrest hin

theorem noStray (h : Paired cs) : NoStray cs := by
  intro before after hcs
  induction h generalizing before after with
  | nil => simp at hcs
  | @other c _ _ hclose _ ih =>
    rcases List.cons_eq_append_iff.mp hcs with ⟨_, heq⟩ | ⟨before, rfl, heq⟩
    · exact absurd (List.cons_eq_cons.mp heq).1.symm hclose
    · exact (ih before after heq).append_left [c]
  | @pair inside rest hinside _ ihinside ihrest =>
    rcases List.cons_eq_append_iff.mp hcs with ⟨_, heq⟩ | ⟨before, rfl, heq⟩
    · exact absurd (List.cons_eq_cons.mp heq).1 (by decide)
    · rcases append_cons_eq_append_cons heq with ⟨between, hin, _⟩ | ⟨rfl, _, _⟩ |
        ⟨between, rfl, hin⟩
      · exact (ihinside before between hin).append_left ['(']
      · exact ⟨[], inside, rfl, hinside⟩
      · simpa using (ihrest between after hin).append_left ('(' :: (inside ++ [')']))

theorem of_blanks (h : ∀ c ∈ cs, isBlank c) : Paired cs := by
  induction cs with
  | nil => exact .nil
  | cons c cs ih =>
    obtain ⟨hc, hcs⟩ := List.forall_mem_cons.mp h
    refine .other ?_ ?_ (ih hcs)
    · rintro rfl
      revert hc
      decide
    · rintro rfl
      revert hc
      decide

/-- The scan for a fault passes over paired characters. -/
theorem fault?_append (h : Paired cs) (opened : List Span) (offset : Nat) (ds : List Char) :
    fault? opened ((Lexeme.scan offset (cs ++ ds)).map (Lexeme.toToken 0)) =
      fault? opened ((Lexeme.scan (offset + byteLength cs) ds).map (Lexeme.toToken 0)) := by
  induction h generalizing opened offset ds with
  | nil => rfl
  | other hopen hclose _ ih =>
    rw [List.cons_append, fault?_scan_other hopen hclose, ih, byteLength_cons, Nat.add_assoc]
  | @pair inside rest _ _ ihinside ihrest =>
    have hoffset : offset + byteLength ('(' :: (inside ++ ')' :: rest)) =
        offset + 1 + byteLength inside + 1 + byteLength rest := by
      have hopen : '('.utf8Size = 1 := rfl
      have hclose : ')'.utf8Size = 1 := rfl
      simp only [byteLength_cons, byteLength_append, hopen, hclose]
      omega
    rw [List.cons_append, List.append_assoc, Lexeme.scan_opening, List.map_cons,
      Token.fault?_opening rfl, ihinside, List.cons_append, Lexeme.scan_closing, List.map_cons,
      Token.fault?_closing rfl, ihrest, hoffset]

theorem not_isClosed (h : Paired cs) : ¬IsClosed cs := by
  rintro ⟨inside, rest, rfl, hinside⟩
  have hnone := h.fault?_append [] 0 []
  rw [List.append_nil, hinside.fault?_append, Lexeme.scan_closing, List.map_cons,
    Token.fault?_closing_nil rfl] at hnone
  cases hnone

theorem not_hasOpen (h : Paired cs) : ¬HasOpen cs := by
  rintro ⟨outer, inside, hcs, hinside⟩
  exact hinside.not_isClosed (h.isClosed hcs)

theorem of_append (hcs : Paired cs) (h : Paired (cs ++ ds)) : Paired ds := by
  induction hcs with
  | nil => exact h
  | @other c cs hopen _ _ ih =>
    rw [List.cons_append] at h
    generalize heq : c :: (cs ++ ds) = all at h
    cases h with
    | nil => cases heq
    | other _ _ hrest =>
      obtain ⟨-, rfl⟩ := List.cons_eq_cons.mp heq
      exact ih hrest
    | pair _ _ => exact absurd (List.cons_eq_cons.mp heq).1 hopen
  | @pair inside rest hinside _ _ ih =>
    generalize heq : '(' :: (inside ++ ')' :: rest) ++ ds = all at h
    cases h with
    | nil => cases heq
    | other hopen _ _ => exact absurd (List.cons_eq_cons.mp heq).1.symm hopen
    | @pair inside' rest' hinside' hrest' =>
      have htail : inside ++ ')' :: (rest ++ ds) = inside' ++ ')' :: rest' := by simpa using heq
      rcases append_cons_eq_append_cons htail with ⟨_, hin, _⟩ | ⟨_, _, hrest⟩ | ⟨_, hin, _⟩
      · exact absurd ⟨_, _, hin, hinside'⟩ hinside.not_isClosed
      · exact ih (hrest ▸ hrest')
      · exact absurd ⟨_, _, hin, hinside⟩ hinside'.not_isClosed

end Paired

/-- The span of a parenthesis that stands behind some characters, if all are in one line. -/
def parenBehind (before : List Char) : Span := ⟨0, byteLength before, byteLength before + 1⟩

/-- The opening parentheses that are open at the end of some characters, the innermost first.
Each of them is given by the characters before it. -/
inductive Opens : List (List Char) → List Char → Prop
  | none {cs : List Char} (hcs : Paired cs) : Opens [] cs
  | within {outer inside : List Char} {opened : List (List Char)} (houter : Opens opened outer)
      (hinside : Paired inside) : Opens (outer :: opened) (outer ++ '(' :: inside)

namespace Opens

variable {opened : List (List Char)} {cs ds : List Char}

theorem append_paired (h : Opens opened cs) (hds : Paired ds) : Opens opened (cs ++ ds) := by
  cases h with
  | none hcs => exact .none (hcs.append hds)
  | within houter hinside =>
    rw [List.append_assoc, List.cons_append]
    exact .within houter (hinside.append hds)

theorem fault?_append (h : Opens opened cs) (ds : List Char) :
    fault? [] ((Lexeme.scan 0 (cs ++ ds)).map (Lexeme.toToken 0)) =
      fault? (opened.map parenBehind)
        ((Lexeme.scan (byteLength cs) ds).map (Lexeme.toToken 0)) := by
  induction h generalizing ds with
  | none hcs => rw [hcs.fault?_append, Nat.zero_add, List.map_nil]
  | @within outer inside opened _ hinside ih =>
    have hoffset : byteLength (outer ++ '(' :: inside) =
        byteLength outer + 1 + byteLength inside := by
      have hopen : '('.utf8Size = 1 := rfl
      rw [byteLength_append, byteLength_cons, hopen, Nat.add_assoc]
    rw [List.append_assoc, List.cons_append, ih, Lexeme.scan_opening, List.map_cons,
      Token.fault?_opening rfl, hinside.fault?_append, hoffset]
    rfl

theorem noStray (h : Opens opened cs) : NoStray cs := by
  induction h with
  | none hcs => exact hcs.noStray
  | @within outer inside _ _ hinside ih =>
    intro before after heq
    rcases append_cons_eq_append_cons heq with ⟨between, hin, _⟩ | ⟨_, hne, _⟩ |
      ⟨between, rfl, hin⟩
    · exact ih before between hin
    · exact absurd hne (by decide)
    · simpa using (hinside.noStray between after hin).append_left (outer ++ ['('])

/-- One more character opens a parenthesis, closes the innermost one or has no partner. -/
theorem concat (h : Opens opened cs) (c : Char) :
    (∃ opened', Opens opened' (cs ++ [c])) ∨ c = ')' ∧ Paired cs := by
  by_cases hopen : c = '('
  · subst hopen
    exact .inl ⟨cs :: opened, .within h .nil⟩
  · by_cases hclose : c = ')'
    · subst hclose
      cases h with
      | none hcs => exact .inr ⟨rfl, hcs⟩
      | @within outer inside opened houter hinside =>
        refine .inl ⟨opened, ?_⟩
        rw [List.append_assoc, List.cons_append]
        exact houter.append_paired (.pair hinside .nil)
    · exact .inl ⟨opened, h.append_paired (.other hopen hclose .nil)⟩

end Opens

/-- Either some parentheses are open at the end, or there is a first one that closes nothing. -/
theorem exists_opens_or_stray (cs : List Char) :
    (∃ opened, Opens opened cs) ∨ ∃ before after, cs = before ++ ')' :: after ∧ Paired before := by
  induction cs using List.reverseRecOn with
  | nil => exact .inl ⟨[], .none .nil⟩
  | append_singleton cs c ih =>
    rcases ih with ⟨opened, hopened⟩ | ⟨before, after, rfl, hbefore⟩
    · rcases hopened.concat c with hmore | ⟨rfl, hcs⟩
      · exact .inl hmore
      · exact .inr ⟨cs, [], rfl, hcs⟩
    · exact .inr ⟨before, after ++ [c], by simp, hbefore⟩

theorem exists_opens_of_noStray {cs : List Char} (h : NoStray cs) : ∃ opened, Opens opened cs := by
  rcases exists_opens_or_stray cs with hopened | ⟨before, after, hcs, hbefore⟩
  · exact hopened
  · exact absurd (h before after hcs) hbefore.not_hasOpen

theorem paired_of_noStray {cs : List Char} (h : NoStray cs) (hopen : ¬HasOpen cs) : Paired cs := by
  obtain ⟨_, _ | ⟨_, hinside⟩⟩ := exists_opens_of_noStray h
  · assumption
  · exact absurd ⟨_, _, rfl, hinside⟩ hopen

theorem NoStray.of_append {cs ds : List Char} (h : NoStray (cs ++ ds)) : NoStray cs := by
  intro before after hcs
  exact h before (after ++ ds) (by simp [hcs])

theorem Paired.of_append_right {cs ds : List Char} (hds : Paired ds) (h : Paired (cs ++ ds)) :
    Paired cs := by
  refine paired_of_noStray h.noStray.of_append ?_
  rintro ⟨outer, inside, rfl, hinside⟩
  have hrest : outer ++ '(' :: inside ++ ds = outer ++ '(' :: (inside ++ ds) := by simp
  exact (hinside.append hds).not_isClosed (h.isClosed hrest)

def AllClosed (cs : List Char) : Prop :=
  ∀ before after, cs = before ++ '(' :: after → IsClosed after

/-- Unless one of them closes nothing, parentheses are paired as soon as all are closed. -/
theorem NoStray.paired_iff {cs : List Char} (h : NoStray cs) : Paired cs ↔ AllClosed cs := by
  constructor
  · exact fun hpaired _ _ => hpaired.isClosed
  · intro hclosed
    refine paired_of_noStray h ?_
    rintro ⟨outer, inside, hcs, hinside⟩
    exact hinside.not_isClosed (hclosed outer inside hcs)

end Text

open Text

section Fault

variable {text : String} {before after : List Char}

theorem ofResult?_parse (text : String) :
    ReadError.ofResult? (parse text) =
      (fault? [] ((Lexeme.scan 0 text.toList).map (Lexeme.toToken 0))).map
        (ReadError.relocate (Span.inLines text)) := by
  have hfault : ReadError.ofResult? (parse text) = fault? [] (Token.ofLines 0 (lines text)) :=
    ofResult?_parseFrom [] _
  rw [hfault, Token.ofText_eq]
  exact fault?_relocate [] _

theorem parse_eq_error {err : ReadError}
    (h : ReadError.ofResult? (parse text) = some err) : parse text = .error err := by
  cases hparse : parse text with
  | ok es => simp [hparse, ReadError.ofResult?] at h
  | error err' =>
    rw [hparse] at h
    exact congrArg Except.error (Option.some.inj h)

theorem inLines_parenBehind (h : text.toList = before ++ after) :
    Span.inLines text (parenBehind before) = Span.behind before 1 := Span.inLines_eq h 1

theorem parse_of_stray (h : text.toList = before ++ ')' :: after) (hbefore : Paired before) :
    parse text = .error (.unexpectedClose (Span.behind before 1)) := by
  apply parse_eq_error
  rw [ofResult?_parse, h, hbefore.fault?_append, Nat.zero_add, Lexeme.scan_closing, List.map_cons,
    Token.fault?_closing_nil rfl, ← inLines_parenBehind h]
  rfl

theorem parse_of_open {opened : List (List Char)} (h : text.toList = before ++ '(' :: after)
    (hbefore : Opens opened before) (hafter : Paired after) :
    parse text = .error (.unclosed (Span.behind before 1)) := by
  have hfault := (Opens.within hbefore hafter).fault?_append []
  apply parse_eq_error
  rw [ofResult?_parse, h, ← List.append_nil (before ++ '(' :: after), hfault,
    ← inLines_parenBehind h]
  rfl

theorem exists_parse_eq_ok_of_paired (h : Paired text.toList) : ∃ es, parse text = .ok es := by
  have hfault := h.fault?_append [] 0 []
  rw [List.append_nil] at hfault
  rw [← ReadError.ofResult?_eq_none_iff, ofResult?_parse, hfault]
  rfl

/-- The characters of a text at whose end some opening parentheses may be open are paired, or
they are so behind the innermost of these. -/
theorem paired_or_open {opened : List (List Char)} (h : Opens opened text.toList) :
    Paired text.toList ∨ ∃ before after opened', text.toList = before ++ '(' :: after ∧
      Opens opened' before ∧ Paired after := by
  generalize text.toList = cs at h
  cases h with
  | none hcs => exact .inl hcs
  | within houter hinside => exact .inr ⟨_, _, _, rfl, houter, hinside⟩

theorem paired_of_parse_eq_ok {es : List Expr} (h : parse text = .ok es) : Paired text.toList := by
  rcases exists_opens_or_stray text.toList with ⟨opened, hopened⟩ | ⟨before, after, htext, hbefore⟩
  · rcases paired_or_open hopened with hpaired | ⟨before, after, _, htext, hbefore, hafter⟩
    · exact hpaired
    · simp [parse_of_open htext hbefore hafter] at h
  · simp [parse_of_stray htext hbefore] at h

/-- The first closing parenthesis at which none is open is unexpected. -/
theorem parse_eq_unexpectedClose_iff {paren : Span} :
    parse text = .error (.unexpectedClose paren) ↔ ∃ before after,
      text.toList = before ++ ')' :: after ∧ ¬HasOpen before ∧ NoStray before ∧
        paren = Span.behind before 1 := by
  constructor
  · intro herror
    rcases exists_opens_or_stray text.toList with ⟨opened, hopened⟩ |
      ⟨before, after, htext, hbefore⟩
    · rcases paired_or_open hopened with hpaired | ⟨before, after, _, htext, hbefore, hafter⟩
      · obtain ⟨es, hok⟩ := exists_parse_eq_ok_of_paired hpaired
        simp [hok] at herror
      · simp [parse_of_open htext hbefore hafter] at herror
    · rw [parse_of_stray htext hbefore] at herror
      cases herror
      exact ⟨before, after, htext, hbefore.not_hasOpen, hbefore.noStray, rfl⟩
  · rintro ⟨before, after, htext, hopen, hstray, rfl⟩
    exact parse_of_stray htext (paired_of_noStray hstray hopen)

/-- Where none is unexpected, the last opening parenthesis that is not closed is at fault. -/
theorem parse_eq_unclosed_iff {paren : Span} :
    parse text = .error (.unclosed paren) ↔ NoStray text.toList ∧ ∃ before after,
      text.toList = before ++ '(' :: after ∧ ¬IsClosed after ∧
        (∀ earlier later, after = earlier ++ '(' :: later → IsClosed later) ∧
        paren = Span.behind before 1 := by
  constructor
  · intro herror
    rcases exists_opens_or_stray text.toList with ⟨opened, hopened⟩ |
      ⟨before, after, htext, hbefore⟩
    · refine ⟨hopened.noStray, ?_⟩
      rcases paired_or_open hopened with hpaired | ⟨before, after, _, htext, hbefore, hafter⟩
      · obtain ⟨es, hok⟩ := exists_parse_eq_ok_of_paired hpaired
        simp [hok] at herror
      · rw [parse_of_open htext hbefore hafter] at herror
        cases herror
        exact ⟨before, after, htext, hafter.not_isClosed, fun _ _ => hafter.isClosed, rfl⟩
    · simp [parse_of_stray htext hbefore] at herror
  · rintro ⟨hstray, before, after, htext, hnot, hlater, rfl⟩
    obtain ⟨opened, hopened⟩ := exists_opens_of_noStray hstray
    rcases paired_or_open hopened with hpaired | ⟨outer, inside, _, hinner, houter, hinside⟩
    · exact absurd (hpaired.isClosed htext) hnot
    · rcases append_cons_eq_append_cons (hinner.symm.trans htext) with ⟨between, _, hafter⟩ |
        ⟨rfl, _, rfl⟩ | ⟨between, _, hcs⟩
      · exact absurd (hlater between inside hafter) hinside.not_isClosed
      · exact parse_of_open hinner houter hinside
      · exact absurd (hinside.isClosed hcs) hnot

end Fault

/-- If a text cannot be read, the error names the first closing parenthesis at which none is
open, whatever follows it. Without such a parenthesis it names the innermost one that is open at
the end, which is the last one that is not closed. In either case the range of the error in the
text is just that parenthesis. -/
theorem error_names_parenthesis_at_fault (text : String) (paren : Span) :
    (parse text = .error (.unexpectedClose paren) ↔ ∃ before after,
      text.toList = before ++ ')' :: after ∧ ¬HasOpen before ∧ NoStray before ∧
        paren = Span.behind before 1 ∧
        paren.range text = (byteLength before, byteLength before + 1)) ∧
    (parse text = .error (.unclosed paren) ↔ NoStray text.toList ∧ ∃ before after,
      text.toList = before ++ '(' :: after ∧ ¬IsClosed after ∧
        (∀ earlier later, after = earlier ++ '(' :: later → IsClosed later) ∧
        paren = Span.behind before 1 ∧
        paren.range text = (byteLength before, byteLength before + 1)) := by
  constructor
  · rw [parse_eq_unexpectedClose_iff]
    constructor
    · rintro ⟨before, after, htext, hopen, hstray, rfl⟩
      exact ⟨before, after, htext, hopen, hstray, rfl, Span.range_behind htext 1⟩
    · rintro ⟨before, after, htext, hopen, hstray, hparen, -⟩
      exact ⟨before, after, htext, hopen, hstray, hparen⟩
  · rw [parse_eq_unclosed_iff]
    refine and_congr_right fun _ => ?_
    constructor
    · rintro ⟨before, after, htext, hnot, hlater, rfl⟩
      exact ⟨before, after, htext, hnot, hlater, rfl, Span.range_behind htext 1⟩
    · rintro ⟨before, after, htext, hnot, hlater, hparen, -⟩
      exact ⟨before, after, htext, hnot, hlater, hparen⟩

/-- Of two parentheses that are not closed the inner one is at fault, in its line and in the
text. -/
example : ReadError.ofResult? (parse "(é\r\nλ(a ()") = some (.unclosed ⟨1, 2, 3⟩) ∧
    Span.behind "(é\r\nλ".toList 1 = ⟨1, 2, 3⟩ ∧
    (⟨1, 2, 3⟩ : Span).range "(é\r\nλ(a ()" = (7, 8) := by
  decide +kernel

end LexicalLisp
