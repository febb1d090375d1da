import Mathlib.Logic.Function.Iterate
import Mathlib.Data.List.ReduceOption
import LexicalLisp.Proofs.Reading.Tree

/-!
# Lines are taken on demand

A token stream gives the tokens of its lines in order, and it never takes a line before a
token of that line, or the end of the lines, is asked for. The invariant is that all pending
tokens come from the line that was taken last. Reading a form asks for the tokens of the form
and no others, so it stops in the line of the last one.
-/

namespace LexicalLisp

theorem Token.line_of_mem_ofLine {number : Nat} {line : String} :
    ∀ t ∈ ofLine number line, t.span.line = number := by
  intro t ht
  obtain ⟨l, -, rfl⟩ := List.mem_map.mp ht
  rfl

namespace TokenStream

/-- The stream has taken the first `n` of the lines and no others. -/
structure HasTaken (lines : List String) (n : Nat) (s : TokenStream) : Prop where
  le : n ≤ lines.length
  taken_eq : s.taken = n
  unread_eq : s.unread = lines.drop n

/-- The stream draws on the lines: all that is pending comes from the one taken last. -/
structure DrawsOn (lines : List String) (s : TokenStream) : Prop where
  hasTaken : s.HasTaken lines s.taken
  line_pending : ∀ t ∈ s.pending, t.span.line + 1 = s.taken

section Requests

variable {lines : List String} {s s' : TokenStream} {answer : Option Token}

theorem drawsOn_ofLines (lines : List String) : (ofLines lines).DrawsOn lines :=
  ⟨⟨Nat.zero_le _, rfl, rfl⟩, nofun⟩

/-- What holds of a stream after a request for a token: it has gone as far as the line of the
token or, if there is none, to the end. -/
structure Answered (lines : List String) (answer : Option Token) (s : TokenStream) : Prop where
  drawsOn : s.DrawsOn lines
  line_answer : ∀ t ∈ answer, t.span.line + 1 = s.taken
  taken_end : answer = none → s.taken = lines.length

theorem HasTaken.succ {taken : Nat} {line : String} {rest : List String}
    (h : line :: rest = lines.drop taken) :
    taken + 1 ≤ lines.length ∧ rest = lines.drop (taken + 1) := by
  have hlength := congrArg List.length h
  have htail := congrArg List.tail h
  rw [List.length_cons, List.length_drop] at hlength
  rw [List.tail_cons, List.tail_drop] at htail
  exact ⟨by omega, htail⟩

theorem advanceLine_answered {taken : Nat} {unread : List String} (hle : taken ≤ lines.length)
    (hunread : unread = lines.drop taken) (h : advanceLine taken unread = (answer, s)) :
    s.Answered lines answer := by
  fun_induction advanceLine taken unread with
  | case1 taken =>
    cases h
    have hend : lines.length ≤ taken := List.drop_eq_nil_iff.mp hunread.symm
    refine ⟨⟨⟨hle, rfl, hunread⟩, List.forall_mem_nil _⟩, fun t ht => ?_, fun _ => ?_⟩
    · cases ht
    · exact Nat.le_antisymm hle hend
  | case2 taken line rest _ ih =>
    obtain ⟨hle', hrest⟩ := HasTaken.succ hunread
    exact ih hle' hrest h
  | case3 taken line rest token pending htokens =>
    cases h
    obtain ⟨hle', hrest⟩ := HasTaken.succ hunread
    have hline : ∀ t ∈ Token.ofLine taken line, t.span.line = taken := Token.line_of_mem_ofLine
    rw [htokens] at hline
    obtain ⟨htoken, hpending⟩ := List.forall_mem_cons.mp hline
    refine ⟨⟨⟨hle', rfl, hrest⟩, fun t ht => ?_⟩, fun t ht => ?_, fun hnone => ?_⟩
    · rw [hpending t ht]
    · cases ht
      rw [htoken]
    · cases hnone

theorem DrawsOn.answered (hs : s.DrawsOn lines) : s.next.2.Answered lines s.next.1 := by
  unfold TokenStream.next
  split
  · rename_i token pending hpending
    have hline := hs.line_pending
    rw [hpending] at hline
    obtain ⟨htoken, hlater⟩ := List.forall_mem_cons.mp hline
    have htaken : HasTaken lines s.taken { s with pending } :=
      ⟨hs.hasTaken.le, rfl, hs.hasTaken.unread_eq⟩
    refine ⟨⟨htaken, hlater⟩, fun t ht => ?_, nofun⟩
    cases ht
    exact htoken
  · exact advanceLine_answered hs.hasTaken.le hs.hasTaken.unread_eq rfl

theorem DrawsOn.answered_of_eq (hs : s.DrawsOn lines) (h : s.next = (answer, s')) :
    s'.Answered lines answer := by
  have hanswered := hs.answered
  rw [h] at hanswered
  exact hanswered

end Requests

section Pulls

variable {lines : List String} {s s' : TokenStream}

/-- The answers to `k` requests for a token, and the stream after them. -/
def pulls : Nat → TokenStream → List (Option Token) × TokenStream
  | 0, s => ([], s)
  | k + 1, s => (s.next.1 :: (pulls k s.next.2).1, (pulls k s.next.2).2)

/-- The number of lines up to the one of a token; all of them if there is no token. -/
def linesThrough (lines : List String) (token? : Option Token) : Nat :=
  (token?.map fun token => token.span.line + 1).getD lines.length

theorem Answered.taken_eq {answer : Option Token} (h : s.Answered lines answer) :
    s.taken = linesThrough lines answer := by
  cases answer with
  | none => exact h.taken_end rfl
  | some token => exact (h.line_answer token rfl).symm

/-- Requests are answered in order: first the head of what is to come, then the rest. -/
theorem next_eq (s : TokenStream) :
    s.next.1 = s.toList.head? ∧ s.next.2.toList = s.toList.tail := by
  cases h : s.next with
  | mk answer s' =>
    cases answer with
    | none =>
      obtain ⟨hs, hs'⟩ := toList_of_next_none h
      exact ⟨by rw [hs]; rfl, by rw [hs, hs']; rfl⟩
    | some token =>
      rw [toList_of_next_some h]
      exact ⟨rfl, rfl⟩

theorem reduceOption_pulls (k : Nat) (s : TokenStream) :
    (s.pulls k).1.reduceOption = s.toList.take k := by
  induction k generalizing s with
  | zero => rfl
  | succ k ih =>
    obtain ⟨hanswer, hlater⟩ := next_eq s
    rw [pulls, hanswer]
    cases hs : s.toList with
    | nil => simp [List.reduceOption_cons_of_none, ih, hlater, hs]
    | cons token tokens => simp [List.reduceOption_cons_of_some, ih, hlater, hs]

theorem advanceLine_none {taken : Nat} {unread : List String}
    (h : advanceLine taken unread = (none, s)) : s.pending = [] ∧ s.unread = [] := by
  fun_induction advanceLine taken unread with
  | case1 taken =>
    cases h
    exact ⟨rfl, rfl⟩
  | case2 taken line rest _ ih => exact ih h
  | case3 taken line rest token pending _ => cases h

theorem next_of_next_none (h : s.next = (none, s')) : s'.next = (none, s') := by
  unfold TokenStream.next at h
  split at h
  · cases h
  · obtain ⟨hpending, hunread⟩ := advanceLine_none h
    obtain ⟨pending, unread, taken⟩ := s'
    cases hpending
    cases hunread
    rfl

theorem pulls_of_next_none (k : Nat) (h : s.next = (none, s)) : (s.pulls k).2 = s := by
  induction k with
  | zero => rfl
  | succ k ih =>
    rw [pulls, h]
    exact ih

/-- To stop at the end is to go on asking there. -/
theorem take_eq_pulls (k : Nat) (s : TokenStream) :
    s.take k = (s.toList.take k, (s.pulls k).2) := by
  induction k generalizing s with
  | zero => rfl
  | succ k ih =>
    cases hnext : s.next with
    | mk answer s' =>
      rw [take, pulls, hnext]
      cases answer with
      | none =>
        rw [(toList_of_next_none hnext).1, pulls_of_next_none k (next_of_next_none hnext)]
        rfl
      | some token =>
        simp only [ih s']
        rw [toList_of_next_some hnext]
        rfl

theorem DrawsOn.pulls (hs : s.DrawsOn lines) (k : Nat) : (s.pulls k).2.DrawsOn lines := by
  induction k generalizing s with
  | zero => exact hs
  | succ k ih => exact ih hs.answered.drawsOn

/-- After the last of some requests the stream has gone as far as the token that it asked for. -/
theorem taken_pulls (hs : s.DrawsOn lines) (k : Nat) :
    (s.pulls (k + 1)).2.taken = linesThrough lines s.toList[k]? := by
  induction k generalizing s with
  | zero =>
    have htaken := hs.answered.taken_eq
    rw [(next_eq s).1, List.head?_eq_getElem?] at htaken
    exact htaken
  | succ k ih =>
    have hlater := ih hs.answered.drawsOn
    rw [(next_eq s).2, List.getElem?_tail] at hlater
    exact hlater

end Pulls

section Forms

variable {lines : List String} {s s' : TokenStream} {nesting : Nesting}
  {answer : Option (Except ReadError Expr)}

/-- What is known of the place to which a token leads: inside forms one of them is open, and
a stray token is a closing parenthesis outside all forms. -/
def Leads (nesting : Nesting) (token : Token) : Progress → Prop
  | .within nesting' => nesting' ≠ []
  | .complete _ => True
  | .stray paren => nesting = [] ∧ token.kind = .closing ∧ token.span = paren

theorem leads_advance (nesting : Nesting) (token : Token) :
    Leads nesting token (nesting.advance token) := by
  have hplace : ∀ (e : Expr) (outer : Nesting), Leads nesting token (outer.place e) := by
    intro e outer
    cases outer <;> simp [Leads]
  cases hkind : token.kind with
  | opening =>
    rw [Nesting.advance_opening hkind]
    exact List.cons_ne_nil _ _
  | closing =>
    cases nesting with
    | nil =>
      rw [Nesting.advance_closing_nil hkind]
      exact ⟨rfl, hkind, rfl⟩
    | cons form outer =>
      rw [Nesting.advance_closing hkind]
      exact hplace _ outer
  | atom =>
    rw [Nesting.advance_atom hkind]
    exact hplace _ nesting

/-- What was asked for to give an answer inside open forms, and how many lines it took. -/
inductive AccountsFrom (lines : List String) (nesting : Nesting) (s s' : TokenStream) :
    Option (Except ReadError Expr) → Prop
  | form {e : Expr} (tokens : List Token) (last : Token) :
    s.toList = tokens ++ last :: s'.toList → parseFrom nesting (tokens ++ [last]) = .ok [e] →
      s'.taken = last.span.line + 1 → AccountsFrom lines nesting s s' (some (.ok e))
  | stray (closing : Token.Of .closing) : nesting = [] → s.toList = closing.val :: s'.toList →
      s'.taken = closing.val.span.line + 1 →
      AccountsFrom lines nesting s s' (some (.error (.unexpectedClose closing.val.span)))
  | unclosed (paren : Span) : s'.toList = [] → s'.taken = lines.length →
      AccountsFrom lines nesting s s' (some (.error (.unclosed paren)))
  | finished : nesting = [] → s.toList = [] → s'.toList = [] → s'.taken = lines.length →
      AccountsFrom lines nesting s s' none

/-- One more token in front, after which the forms are open that the account begins with. -/
theorem AccountsFrom.cons {token : Token} {nesting' : Nesting} {s₁ : TokenStream}
    (h : AccountsFrom lines nesting' s₁ s' answer) (hs : s.toList = token :: s₁.toList)
    (hwithin : nesting.advance token = .within nesting') :
    AccountsFrom lines nesting s s' answer := by
  have hopen := leads_advance nesting token
  rw [hwithin] at hopen
  cases h with
  | form tokens last htokens hparse htaken =>
    refine .form (token :: tokens) last (by rw [hs, htokens]; rfl) ?_ htaken
    rw [List.cons_append, parseFrom_cons, hwithin]
    exact hparse
  | stray closing hnil => exact absurd hnil hopen
  | unclosed paren hend htaken => exact .unclosed paren hend htaken
  | finished hnil => exact absurd hnil hopen

theorem accountsFrom_readFrom (nesting : Nesting) (hs : s.DrawsOn lines) :
    (s.readFrom nesting).2.DrawsOn lines ∧
      AccountsFrom lines nesting s (s.readFrom nesting).2 (s.readFrom nesting).1 := by
  fun_induction readFrom nesting s with
  | case1 nesting s s' hnext =>
    have hanswered := hs.answered_of_eq hnext
    obtain ⟨hnil, hnil'⟩ := toList_of_next_none hnext
    refine ⟨hanswered.drawsOn, ?_⟩
    cases nesting with
    | nil => exact .finished rfl hnil hnil' (hanswered.taken_end rfl)
    | cons form outer => exact .unclosed form.paren hnil' (hanswered.taken_end rfl)
  | case2 nesting s token s' hnext nesting' hwithin ih =>
    obtain ⟨hdraws, haccounts⟩ := ih (hs.answered_of_eq hnext).drawsOn
    exact ⟨hdraws, haccounts.cons (toList_of_next_some hnext) hwithin⟩
  | case3 nesting s token s' hnext e hcomplete =>
    have hanswered := hs.answered_of_eq hnext
    refine ⟨hanswered.drawsOn, .form [] token (toList_of_next_some hnext) ?_ ?_⟩
    · rw [List.nil_append, parseFrom_cons, hcomplete]
      rfl
    · exact (hanswered.line_answer token rfl).symm
  | case4 nesting s token s' hnext paren hstray =>
    have hanswered := hs.answered_of_eq hnext
    have hleads := leads_advance nesting token
    rw [hstray] at hleads
    obtain ⟨hnil, hclosing, rfl⟩ := hleads
    exact ⟨hanswered.drawsOn, .stray ⟨token, hclosing⟩ hnil (toList_of_next_some hnext)
      (hanswered.line_answer token rfl).symm⟩

/-- The lines that a request for a form has taken from the given ones, by its answer: those up
to the last token of the form, up to the stray parenthesis, or all of them. -/
inductive Accounts (lines : List String) (s s' : TokenStream) :
    Option (Except ReadError Expr) → Prop
  | form (tree : Tree) : s.toList = tree.tokens ++ s'.toList →
      s'.HasTaken lines (tree.last.span.line + 1) → Accounts lines s s' (some (.ok tree.expr))
  | stray (closing : Token.Of .closing) : s.toList = closing.val :: s'.toList →
      s'.HasTaken lines (closing.val.span.line + 1) →
      Accounts lines s s' (some (.error (.unexpectedClose closing.val.span)))
  | unclosed (paren : Span) : s'.toList = [] → s'.HasTaken lines lines.length →
      Accounts lines s s' (some (.error (.unclosed paren)))
  | finished : s.toList = [] → s'.toList = [] → s'.HasTaken lines lines.length →
      Accounts lines s s' none

theorem accounts_readForm (hs : s.DrawsOn lines) : Accounts lines s s.readForm.2 s.readForm.1 := by
  obtain ⟨hdraws, haccounts⟩ := accountsFrom_readFrom [] hs
  unfold readForm
  generalize s.readFrom [] = result at hdraws haccounts ⊢
  obtain ⟨answer, s'⟩ := result
  have htaken := hdraws.hasTaken
  cases haccounts with
  | form tokens last htokens hparse hlines =>
    obtain ⟨tree, htree, rfl, rfl⟩ := Tree.exists_tree_of_parseTokens hparse
    refine .form tree (by rw [htree, htokens]; simp) ?_
    rwa [hlines] at htaken
  | stray closing _ htokens hlines =>
    rw [hlines] at htaken
    exact .stray closing htokens htaken
  | unclosed paren hend hlines =>
    rw [hlines] at htaken
    exact .unclosed paren hend htaken
  | finished _ hnil hend hlines =>
    rw [hlines] at htaken
    exact .finished hnil hend htaken

/-- The stream after `n` requests for a form. -/
def afterForms (n : Nat) (s : TokenStream) : TokenStream := (fun s => s.readForm.2)^[n] s

theorem DrawsOn.afterForms (hs : s.DrawsOn lines) (n : Nat) : (s.afterForms n).DrawsOn lines := by
  unfold TokenStream.afterForms
  induction n with
  | zero => exact hs
  | succ n ih =>
    rw [Function.iterate_succ_apply']
    exact (accountsFrom_readFrom [] ih).1

end Forms

/-- How many lines have to be taken to answer `k` requests for a token. -/
def linesNeeded (lines : List String) : Nat → Nat
  | 0 => 0
  | k + 1 => linesThrough lines (Token.ofLines 0 lines)[k]?

end TokenStream

open TokenStream in
/-- Tokens come in order and no line is taken before it is needed: after `k` requests for a
token the first `k` tokens have been received, or all if there are fewer, and the lines up to
that of the last one have been taken, or all. The same holds of any number of requests for a
form: each takes the tokens of its answer and the lines up to the last one of them, and only
an end inside or outside of a form takes all lines. -/
theorem lines_are_taken_on_demand (lines : List String) :
    (∀ k, ((ofLines lines).pulls k).1.reduceOption = (Token.ofLines 0 lines).take k ∧
      ((ofLines lines).pulls k).2.HasTaken lines (linesNeeded lines k) ∧
      (ofLines lines).take k = ((Token.ofLines 0 lines).take k, ((ofLines lines).pulls k).2)) ∧
    ∀ n, Accounts lines ((ofLines lines).afterForms n) ((ofLines lines).afterForms (n + 1))
      ((ofLines lines).afterForms n).readForm.1 := by
  have hdraws := drawsOn_ofLines lines
  constructor
  · intro k
    refine ⟨reduceOption_pulls k (ofLines lines), ?_, take_eq_pulls k (ofLines lines)⟩
    have htaken := (hdraws.pulls k).hasTaken
    cases k with
    | zero => exact htaken
    | succ k =>
      rw [taken_pulls hdraws] at htaken
      exact htaken
  · intro n
    unfold afterForms
    rw [Function.iterate_succ_apply']
    exact accounts_readForm (hdraws.afterForms n)

end LexicalLisp
