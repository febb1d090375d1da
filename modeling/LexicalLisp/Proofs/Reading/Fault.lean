import LexicalLisp.Proofs.Reading.Progress

/-!
# The parenthesis at fault

Whether tokens can be read, and which parenthesis is to blame if not, depends on their
parentheses alone. A scan that keeps no more than the parentheses which are open finds the
same fault as the reader, wherever the tokens stand. There is none exactly if the tokens are
balanced: no beginning of them closes more than it opens, and all of them together close as
much as they open.
-/

namespace LexicalLisp

namespace Token

section Scan

variable {opened : List Span} {token : Token} {tokens : List Token}

/-- The fault of tokens before which the given parentheses are open, the innermost first: the
first parenthesis that closes nothing or, if there is none, the innermost one that is open at
the end. -/
def fault? (opened : List Span) : List Token → Option ReadError
  | [] => opened.head?.map .unclosed
  | token :: tokens =>
    match token.kind, opened with
    | .opening, _ => fault? (token.span :: opened) tokens
    | .closing, [] => some (.unexpectedClose token.span)
    | .closing, _ :: outer => fault? outer tokens
    | .atom, _ => fault? opened tokens

theorem fault?_opening (h : token.kind = .opening) :
    fault? opened (token :: tokens) = fault? (token.span :: opened) tokens := by
  simp [fault?, h]

theorem fault?_closing_nil (h : token.kind = .closing) :
    fault? [] (token :: tokens) = some (.unexpectedClose token.span) := by
  simp [fault?, h]

theorem fault?_closing (h : token.kind = .closing) (paren : Span) :
    fault? (paren :: opened) (token :: tokens) = fault? opened tokens := by
  simp [fault?, h]

theorem fault?_atom (h : token.kind = .atom) :
    fault? opened (token :: tokens) = fault? opened tokens := by
  simp [fault?, h]

end Scan

section Balance

variable {depth : Nat} {token : Token} {tokens : List Token}

def count (kind : TokenKind) (tokens : List Token) : Nat :=
  tokens.countP fun token => token.kind = kind

@[simp] theorem count_nil (kind : TokenKind) : count kind [] = 0 := rfl

@[simp] theorem count_cons (kind : TokenKind) (token : Token) (tokens : List Token) :
    count kind (token :: tokens) = count kind tokens + if token.kind = kind then 1 else 0 := by
  simp [count, List.countP_cons]

/-- The tokens never close more than they have opened, and in the end they have closed it all. -/
structure Balanced (tokens : List Token) : Prop where
  closing_le : ∀ beginning, beginning <+: tokens →
    count .closing beginning ≤ count .opening beginning
  closing_eq : count .closing tokens = count .opening tokens

/-- The same of tokens before which the given number of parentheses are open. -/
structure Closes (depth : Nat) (tokens : List Token) : Prop where
  closing_le : ∀ beginning, beginning <+: tokens →
    count .closing beginning ≤ depth + count .opening beginning
  closing_eq : count .closing tokens = depth + count .opening tokens

theorem balanced_iff_closes : Balanced tokens ↔ Closes 0 tokens := by
  constructor
  · intro h
    exact ⟨by simpa using h.closing_le, by simpa using h.closing_eq⟩
  · intro h
    exact ⟨by simpa using h.closing_le, by simpa using h.closing_eq⟩

theorem closes_nil_iff : Closes depth [] ↔ depth = 0 := by
  constructor
  · intro h
    exact (Nat.add_eq_zero_iff.mp h.closing_eq.symm).1
  · rintro rfl
    exact ⟨by simp, rfl⟩

/-- A token after which as much is open as its kind says leaves as much to be closed. -/
theorem closes_cons_congr {depth' : Nat}
    (hle : ∀ later, count .closing (token :: later) ≤ depth + count .opening (token :: later) ↔
      count .closing later ≤ depth' + count .opening later)
    (heq : count .closing (token :: tokens) = depth + count .opening (token :: tokens) ↔
      count .closing tokens = depth' + count .opening tokens) :
    Closes depth (token :: tokens) ↔ Closes depth' tokens := by
  constructor
  · intro h
    refine ⟨fun beginning hbeginning => ?_, heq.mp h.closing_eq⟩
    exact (hle beginning).mp (h.closing_le _ ((List.prefix_cons_inj token).mpr hbeginning))
  · intro h
    refine ⟨fun beginning hbeginning => ?_, heq.mpr h.closing_eq⟩
    rcases List.prefix_cons_iff.mp hbeginning with rfl | ⟨later, rfl, hlater⟩
    · exact Nat.zero_le _
    · exact (hle later).mpr (h.closing_le later hlater)

theorem closes_opening_iff (h : token.kind = .opening) :
    Closes depth (token :: tokens) ↔ Closes (depth + 1) tokens := by
  apply closes_cons_congr
  · intro later
    simp [h]
    omega
  · simp [h]
    omega

theorem closes_closing_iff (h : token.kind = .closing) :
    Closes (depth + 1) (token :: tokens) ↔ Closes depth tokens := by
  apply closes_cons_congr
  · intro later
    simp [h]
    omega
  · simp [h]
    omega

theorem closes_atom_iff (h : token.kind = .atom) :
    Closes depth (token :: tokens) ↔ Closes depth tokens := by
  apply closes_cons_congr
  · intro later
    simp [h]
  · simp [h]

theorem not_closes_closing (h : token.kind = .closing) : ¬Closes 0 (token :: tokens) := by
  intro hcloses
  have hle := hcloses.closing_le [token] (by simp)
  simp [h] at hle

/-- Tokens have no fault exactly if they close what is open and what they open. -/
theorem fault?_eq_none_iff {opened : List Span} :
    fault? opened tokens = none ↔ Closes opened.length tokens := by
  induction tokens generalizing opened with
  | nil =>
    rw [closes_nil_iff]
    cases opened with
    | nil => simp [fault?]
    | cons paren outer => simp [fault?]
  | cons token tokens ih =>
    cases hkind : token.kind with
    | opening => rw [fault?_opening hkind, ih, closes_opening_iff hkind, List.length_cons]
    | closing =>
      cases opened with
      | nil =>
        rw [fault?_closing_nil hkind]
        simpa using not_closes_closing hkind
      | cons paren outer =>
        rw [fault?_closing hkind, ih, List.length_cons, closes_closing_iff hkind]
    | atom => rw [fault?_atom hkind, ih, closes_atom_iff hkind]

theorem fault?_nil_eq_none_iff : fault? [] tokens = none ↔ Balanced tokens := by
  rw [balanced_iff_closes, fault?_eq_none_iff]
  rfl

end Balance

end Token

open Token

section Reader

variable {nesting : Nesting} {tokens : List Token} {e : Expr} {α β : Type}

/-- The error with which reading ended, if any. -/
def ReadError.ofResult? : Except ReadError α → Option ReadError
  | .ok _ => none
  | .error e => some e

theorem ReadError.ofResult?_map (f : α → β) (r : Except ReadError α) :
    ofResult? (r.map f) = ofResult? r := by
  cases r with
  | error e => rfl
  | ok a => rfl

theorem ReadError.ofResult?_eq_none_iff {r : Except ReadError α} :
    ofResult? r = none ↔ ∃ a, r = .ok a := by
  cases r with
  | error e => simp [ofResult?]
  | ok a => simp [ofResult?]

def Nesting.parens (nesting : Nesting) : List Span := nesting.map OpenForm.paren

theorem ofResult?_resume_place
    (ih : ∀ nesting,
      ReadError.ofResult? (parseFrom nesting tokens) = fault? nesting.parens tokens) :
    ReadError.ofResult? ((nesting.place e).resume tokens) = fault? nesting.parens tokens := by
  cases nesting with
  | nil =>
    rw [Nesting.place_nil, Progress.resume, ReadError.ofResult?_map]
    exact ih []
  | cons form outer =>
    rw [Nesting.place_cons, Progress.resume, ih]
    rfl

/-- Reading ends with the fault that the scan of the parentheses finds. -/
theorem ofResult?_parseFrom (nesting : Nesting) (tokens : List Token) :
    ReadError.ofResult? (parseFrom nesting tokens) = fault? nesting.parens tokens := by
  induction tokens generalizing nesting with
  | nil =>
    cases nesting with
    | nil => rfl
    | cons form outer => rfl
  | cons token tokens ih =>
    rw [parseFrom_cons]
    cases hkind : token.kind with
    | opening =>
      rw [Nesting.advance_opening hkind, Progress.resume, ih, fault?_opening hkind]
      rfl
    | closing =>
      cases nesting with
      | nil =>
        rw [Nesting.advance_closing_nil hkind]
        exact (fault?_closing_nil hkind).symm
      | cons form outer =>
        rw [Nesting.advance_closing hkind, ofResult?_resume_place ih]
        exact (fault?_closing hkind form.paren).symm
    | atom =>
      rw [Nesting.advance_atom hkind, ofResult?_resume_place ih, fault?_atom hkind]

theorem exists_parseTokens_eq_ok_iff :
    (∃ es, parseTokens tokens = .ok es) ↔ fault? [] tokens = none := by
  unfold parseTokens
  rw [← ReadError.ofResult?_eq_none_iff, ofResult?_parseFrom]
  rfl

end Reader

section Relocation

variable {f : Span → Span}

def Token.relocate (f : Span → Span) (token : Token) : Token := { token with span := f token.span }

def ReadError.relocate (f : Span → Span) : ReadError → ReadError
  | unexpectedClose paren => unexpectedClose (f paren)
  | unclosed paren => unclosed (f paren)

theorem fault?_relocate (opened : List Span) (tokens : List Token) :
    fault? (opened.map f) (tokens.map (relocate f)) =
      (fault? opened tokens).map (ReadError.relocate f) := by
  induction tokens generalizing opened with
  | nil => cases opened <;> rfl
  | cons token tokens ih =>
    rw [List.map_cons]
    have hkind' : (token.relocate f).kind = token.kind := rfl
    cases hkind : token.kind with
    | opening =>
      rw [hkind] at hkind'
      rw [fault?_opening hkind, fault?_opening hkind', ← ih]
      rfl
    | closing =>
      rw [hkind] at hkind'
      cases opened with
      | nil =>
        rw [fault?_closing_nil hkind]
        exact fault?_closing_nil hkind'
      | cons paren outer =>
        rw [List.map_cons, fault?_closing hkind, fault?_closing hkind', ih]
    | atom =>
      rw [hkind] at hkind'
      rw [fault?_atom hkind, fault?_atom hkind', ih]

end Relocation

end LexicalLisp
