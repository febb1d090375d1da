import LexicalLisp.Proofs.Reading.OnDemand

/-!
# Reading on after errors

Expressions can be asked for after an error as well as before. What comes of that is found by
a scan that keeps no more than a depth. A closing parenthesis at depth zero is stray: it is an
error, and all else is read as if it were not there. An opening parenthesis that is never closed
takes everything after it into its form, so that the last result is an error, in which the last
such parenthesis is blamed, and the results before it come from the tokens before the first.
-/

namespace LexicalLisp

namespace Token

section Scan

variable {depth : Nat} {token : Token} {tokens : List Token} {opened : List Span}

/-- The depth after a token. A closing parenthesis at depth zero leaves it at zero. -/
def step (depth : Nat) (token : Token) : Nat :=
  match token.kind with
  | .opening => depth + 1
  | .closing => depth - 1
  | .atom => depth

def depthAfter (depth : Nat) (tokens : List Token) : Nat := tokens.foldl step depth

abbrev IsStray (depth : Nat) (token : Token) : Prop := token.kind = .closing ∧ depth = 0

/-- The stray closing parentheses, in order. -/
def strays (depth : Nat) : List Token → List Token
  | [] => []
  | token :: tokens =>
    if IsStray depth token then token :: strays (step depth token) tokens
    else strays (step depth token) tokens

def withoutStrays (depth : Nat) : List Token → List Token
  | [] => []
  | token :: tokens =>
    if IsStray depth token then withoutStrays (step depth token) tokens
    else token :: withoutStrays (step depth token) tokens

/-- An opening parenthesis before the given tokens is never closed: none of them is stray when
the scan begins right after it. -/
abbrev IsNeverClosed (token : Token) (later : List Token) : Prop :=
  token.kind = .opening ∧ strays 0 later = []

def neverClosed : List Token → List Token
  | [] => []
  | token :: tokens =>
    if IsNeverClosed token tokens then token :: neverClosed tokens else neverClosed tokens

/-- The tokens before the first opening parenthesis that is never closed; else all of them. -/
def beforeNeverClosed : List Token → List Token
  | [] => []
  | token :: tokens =>
    if IsNeverClosed token tokens then [] else token :: beforeNeverClosed tokens

theorem strays_of_isStray (h : IsStray depth token) :
    strays depth (token :: tokens) = token :: strays (step depth token) tokens := if_pos h

theorem strays_of_not_isStray (h : ¬IsStray depth token) :
    strays depth (token :: tokens) = strays (step depth token) tokens := if_neg h

theorem step_of_isStray (h : IsStray depth token) : step depth token = 0 := by
  simp [step, h.1, h.2]

/-- A token that is not stray leads one level further in from one level further in. -/
theorem step_succ (h : ¬IsStray depth token) : step (depth + 1) token = step depth token + 1 := by
  unfold step
  cases hkind : token.kind with
  | opening => rfl
  | atom => rfl
  | closing =>
    have hdepth : depth ≠ 0 := fun hzero => h ⟨hkind, hzero⟩
    simp only
    omega

/-- One level further in, the first of the stray parentheses closes that level. -/
theorem strays_succ (depth : Nat) (tokens : List Token) :
    strays (depth + 1) tokens = (strays depth tokens).tail := by
  induction tokens generalizing depth with
  | nil => rfl
  | cons token tokens ih =>
    have hinner : ¬IsStray (depth + 1) token := fun h => Nat.succ_ne_zero depth h.2
    rw [strays_of_not_isStray hinner]
    by_cases h : IsStray depth token
    · rw [strays_of_isStray h, List.tail_cons, h.2]
      simp [step, h.1]
    · rw [strays_of_not_isStray h, step_succ h, ih]

theorem strays_eq_drop (depth : Nat) (tokens : List Token) :
    strays depth tokens = (strays 0 tokens).drop depth := by
  induction depth with
  | zero => rfl
  | succ depth ih => rw [strays_succ, ih, List.tail_drop]

theorem strays_eq_nil (h : strays 0 tokens = []) (depth : Nat) : strays depth tokens = [] := by
  rw [strays_eq_drop, h, List.drop_nil]

theorem strays_opening (h : token.kind = .opening) :
    strays 0 (token :: tokens) = (strays 0 tokens).tail := by
  have hinner : ¬IsStray 0 token := by simp [h]
  have hstep : step 0 token = 1 := by simp [step, h]
  rw [strays_of_not_isStray hinner, hstep, strays_succ]

theorem strays_closing (h : token.kind = .closing) :
    strays 0 (token :: tokens) = token :: strays 0 tokens := by
  rw [strays_of_isStray ⟨h, rfl⟩, step_of_isStray ⟨h, rfl⟩]

theorem strays_atom (h : token.kind = .atom) :
    strays 0 (token :: tokens) = strays 0 tokens := by
  have hinner : ¬IsStray 0 token := by simp [h]
  have hstep : step 0 token = 0 := by simp [step, h]
  rw [strays_of_not_isStray hinner, hstep]

theorem neverClosed_of_isNeverClosed (h : IsNeverClosed token tokens) :
    neverClosed (token :: tokens) = token :: neverClosed tokens := if_pos h

theorem neverClosed_of_not_isNeverClosed (h : ¬IsNeverClosed token tokens) :
    neverClosed (token :: tokens) = neverClosed tokens := if_neg h

theorem neverClosed_of_ne_opening (h : token.kind ≠ .opening) :
    neverClosed (token :: tokens) = neverClosed tokens :=
  neverClosed_of_not_isNeverClosed fun hopen => h hopen.1

/-- The tokens close as many levels as there are around them. -/
def CloseAll : Nat → List Token → Prop
  | 0, _ => True
  | depth + 1, tokens => strays depth tokens ≠ []

theorem closeAll_step (hclosed : ¬IsNeverClosed token tokens)
    (h : CloseAll depth (token :: tokens)) : CloseAll (step depth token) tokens := by
  cases depth with
  | zero =>
    cases hkind : token.kind with
    | opening =>
      have hstep : step 0 token = 1 := by simp [step, hkind]
      rw [hstep]
      exact fun hnil => hclosed ⟨hkind, hnil⟩
    | closing =>
      rw [step_of_isStray ⟨hkind, rfl⟩]
      trivial
    | atom =>
      have hstep : step 0 token = 0 := by simp [step, hkind]
      rw [hstep]
      trivial
  | succ depth =>
    by_cases hstray : IsStray depth token
    · have hstep : step (depth + 1) token = 0 := by simp [step, hstray.1, hstray.2]
      rw [hstep]
      trivial
    · have hlater : strays depth (token :: tokens) ≠ [] := h
      rw [strays_of_not_isStray hstray] at hlater
      rw [step_succ hstray]
      exact hlater

theorem beforeNeverClosed_of_isNeverClosed (h : IsNeverClosed token tokens) :
    beforeNeverClosed (token :: tokens) = [] := if_pos h

theorem beforeNeverClosed_of_not_isNeverClosed (h : ¬IsNeverClosed token tokens) :
    beforeNeverClosed (token :: tokens) = token :: beforeNeverClosed tokens := if_neg h

theorem beforeNeverClosed_eq_self (h : neverClosed tokens = []) :
    beforeNeverClosed tokens = tokens := by
  induction tokens with
  | nil => rfl
  | cons token tokens ih =>
    by_cases hopen : IsNeverClosed token tokens
    · rw [neverClosed_of_isNeverClosed hopen] at h
      cases h
    · rw [neverClosed_of_not_isNeverClosed hopen] at h
      rw [beforeNeverClosed_of_not_isNeverClosed hopen, ih h]

/-- The parentheses that are open after a token, the innermost first. -/
def openAfter (opened : List Span) (token : Token) : List Span :=
  match token.kind with
  | .opening => token.span :: opened
  | .closing => opened.tail
  | .atom => opened

theorem length_openAfter : (openAfter opened token).length = step opened.length token := by
  unfold openAfter step
  cases token.kind with
  | opening => rfl
  | closing => exact List.length_tail
  | atom => rfl

/-- The innermost parenthesis that is open at the end. It is the last of those that are never
closed or, if there is none, the innermost of those that were open before and still are. -/
def blamed? (opened : List Span) (tokens : List Token) : Option Span :=
  ((neverClosed tokens).getLast?.map span).or (opened.drop (strays 0 tokens).length).head?

theorem blamed?_cons :
    blamed? opened (token :: tokens) = blamed? (openAfter opened token) tokens := by
  unfold blamed?
  cases hkind : token.kind with
  | opening =>
    have hopen : openAfter opened token = token.span :: opened := by simp [openAfter, hkind]
    rw [hopen, strays_opening hkind]
    cases hlater : strays 0 tokens with
    | nil =>
      rw [neverClosed_of_isNeverClosed ⟨hkind, hlater⟩, List.getLast?_cons]
      cases (neverClosed tokens).getLast? <;> rfl
    | cons closing rest =>
      have hclosed : ¬IsNeverClosed token tokens := by simp [hlater]
      rw [neverClosed_of_not_isNeverClosed hclosed]
      rfl
  | closing =>
    have hopen : openAfter opened token = opened.tail := by simp [openAfter, hkind]
    rw [hopen, strays_closing hkind, neverClosed_of_ne_opening (by simp [hkind]),
      List.length_cons, List.drop_tail]
  | atom =>
    have hopen : openAfter opened token = opened := by simp [openAfter, hkind]
    rw [hopen, strays_atom hkind, neverClosed_of_ne_opening (by simp [hkind])]

/-- Of the parentheses that are open at the end, those that were open before have been left
open by the stray ones, and the others are never closed. -/
theorem depthAfter_eq (depth : Nat) (tokens : List Token) : depthAfter depth tokens =
    (depth - (strays 0 tokens).length) + (neverClosed tokens).length := by
  induction tokens generalizing depth with
  | nil => rfl
  | cons token tokens ih =>
    have hlater : depthAfter depth (token :: tokens) = depthAfter (step depth token) tokens := rfl
    rw [hlater, ih]
    cases hkind : token.kind with
    | opening =>
      have hstep : step depth token = depth + 1 := by simp [step, hkind]
      rw [hstep, strays_opening hkind]
      cases hstrays : strays 0 tokens with
      | nil =>
        rw [neverClosed_of_isNeverClosed ⟨hkind, hstrays⟩]
        exact Nat.succ_add_eq_add_succ depth _
      | cons closing rest =>
        have hclosed : ¬IsNeverClosed token tokens := by simp [hstrays]
        rw [neverClosed_of_not_isNeverClosed hclosed, List.length_cons, List.tail_cons,
          Nat.add_sub_add_right]
    | closing =>
      have hstep : step depth token = depth - 1 := by simp [step, hkind]
      rw [hstep, strays_closing hkind, neverClosed_of_ne_opening (by simp [hkind]),
        List.length_cons, Nat.sub_sub, Nat.add_comm 1]
    | atom =>
      have hstep : step depth token = depth := by simp [step, hkind]
      rw [hstep, strays_atom hkind, neverClosed_of_ne_opening (by simp [hkind])]

theorem depthAfter_zero (tokens : List Token) :
    depthAfter 0 tokens = (neverClosed tokens).length := by
  rw [depthAfter_eq, Nat.zero_sub, Nat.zero_add]

end Scan

end Token

open Token

section Results

variable {nesting : Nesting} {token : Token} {tokens : List Token} {depth : Nat}
  {progress : Progress}

/-- The forms that are open after the token that led here. -/
def Progress.unfinished : Progress → Nesting
  | within nesting => nesting
  | complete _ | stray _ => []

/-- What the token that led here has completed, or the error that it is. -/
def Progress.result? : Progress → Option (Except ReadError Expr)
  | within _ => none
  | complete e => some (.ok e)
  | stray paren => some (.error (.unexpectedClose paren))

/-- The results of reading the tokens, going on after errors, beginning inside the given open
forms. -/
def resultsFrom (nesting : Nesting) : List Token → List (Except ReadError Expr)
  | [] => (nesting.head?.map fun form => .error (.unclosed form.paren)).toList
  | token :: tokens =>
    (nesting.advance token).result?.toList ++
      resultsFrom (nesting.advance token).unfinished tokens

def strayOf? : Except ReadError Expr → Option Span
  | .error (.unexpectedClose paren) => some paren
  | _ => none

def readExprs (results : List (Except ReadError Expr)) : List Expr :=
  results.filterMap Except.toOption

def firstError? (results : List (Except ReadError Expr)) : Option ReadError :=
  results.findSome? ReadError.ofResult?

theorem firstError?_eq_none_iff {results : List (Except ReadError Expr)} :
    firstError? results = none ↔ ∀ r ∈ results, ∃ e, r = .ok e := by
  unfold firstError?
  simp only [List.findSome?_eq_none_iff, ReadError.ofResult?_eq_none_iff]

/-- What one more token does: it opens and closes as the scan says, a stray token and no other
is an error, and there is an expression when no form is left open. -/
inductive Advances (nesting : Nesting) (token : Token) : Progress → Prop
  | within {nesting' : Nesting} : ¬IsStray nesting.length token → nesting' ≠ [] →
    nesting'.parens = openAfter nesting.parens token → Advances nesting token (.within nesting')
  | complete (e : Expr) : ¬IsStray nesting.length token → openAfter nesting.parens token = [] →
    Advances nesting token (.complete e)
  | stray : IsStray nesting.length token → openAfter nesting.parens token = [] →
    Advances nesting token (.stray token.span)

theorem advances_place {outer : Nesting} (e : Expr) (hstray : ¬IsStray nesting.length token)
    (houter : outer.parens = openAfter nesting.parens token) :
    Advances nesting token (outer.place e) := by
  cases outer with
  | nil => exact .complete e hstray houter.symm
  | cons form outer => exact .within hstray (List.cons_ne_nil _ _) houter

theorem advances (nesting : Nesting) (token : Token) :
    Advances nesting token (nesting.advance token) := by
  cases hkind : token.kind with
  | opening =>
    rw [Nesting.advance_opening hkind]
    refine .within (by simp [hkind]) (List.cons_ne_nil _ _) ?_
    simp [openAfter, hkind, Nesting.parens]
  | closing =>
    cases nesting with
    | nil =>
      rw [Nesting.advance_closing_nil hkind]
      exact .stray ⟨hkind, rfl⟩ (by simp [openAfter, hkind, Nesting.parens])
    | cons form outer =>
      rw [Nesting.advance_closing hkind]
      exact advances_place _ (by simp) (by simp [openAfter, hkind, Nesting.parens])
  | atom =>
    rw [Nesting.advance_atom hkind]
    exact advances_place _ (by simp [hkind]) (by simp [openAfter, hkind])

theorem Advances.parens_eq (h : Advances nesting token progress) :
    progress.unfinished.parens = openAfter nesting.parens token := by
  cases h with
  | within _ _ hparens => exact hparens
  | complete _ _ hparens => exact hparens.symm
  | stray _ hparens => exact hparens.symm

theorem Advances.length_eq (h : Advances nesting token progress) :
    progress.unfinished.length = step nesting.length token := by
  have hlength := congrArg List.length h.parens_eq
  rw [length_openAfter] at hlength
  simpa [Nesting.parens] using hlength

theorem Advances.result?_eq_none (h : Advances nesting token progress)
    (hopen : step nesting.length token ≠ 0) : progress.result? = none := by
  have hlength := h.length_eq
  cases h with
  | within _ _ _ => rfl
  | complete _ _ _ => exact absurd hlength.symm hopen
  | stray _ _ => exact absurd hlength.symm hopen

/-- The errors about stray parentheses are about those that the scan finds. -/
theorem strays_resultsFrom (nesting : Nesting) (tokens : List Token) :
    (resultsFrom nesting tokens).filterMap strayOf? =
      (strays nesting.length tokens).map Token.span := by
  induction tokens generalizing nesting with
  | nil => cases nesting <;> rfl
  | cons token tokens ih =>
    have hadvances := advances nesting token
    rw [resultsFrom, List.filterMap_append, ih, hadvances.length_eq]
    generalize nesting.advance token = progress at hadvances
    cases hadvances with
    | within hstray _ _ =>
      rw [strays_of_not_isStray hstray]
      rfl
    | complete e hstray _ =>
      rw [strays_of_not_isStray hstray]
      rfl
    | stray hstray _ =>
      rw [strays_of_isStray hstray]
      rfl

/-- Only the last result is about a parenthesis that is not closed, namely the innermost one
that is open at the end, if there is one. -/
theorem exists_resultsFrom_eq (nesting : Nesting) (tokens : List Token) :
    ∃ settled, (∀ paren, .error (.unclosed paren) ∉ settled) ∧ resultsFrom nesting tokens =
      settled ++ ((blamed? nesting.parens tokens).map fun p => .error (.unclosed p)).toList := by
  induction tokens generalizing nesting with
  | nil =>
    refine ⟨[], nofun, ?_⟩
    cases nesting <;> rfl
  | cons token tokens ih =>
    have hadvances := advances nesting token
    obtain ⟨settled, hsettled, hresults⟩ := ih (nesting.advance token).unfinished
    rw [hadvances.parens_eq, ← blamed?_cons] at hresults
    refine ⟨(nesting.advance token).result?.toList ++ settled, fun paren hmem => ?_, ?_⟩
    · rcases List.mem_append.mp hmem with hnow | hlater
      · generalize nesting.advance token = progress at hnow
        cases progress <;> simp [Progress.result?] at hnow
      · exact hsettled paren hlater
    · rw [resultsFrom, hresults, List.append_assoc]

theorem readExprs_eq_nil (hlength : nesting.length = depth + 1) (h : strays depth tokens = []) :
    readExprs (resultsFrom nesting tokens) = [] := by
  induction tokens generalizing nesting depth with
  | nil => cases nesting <;> rfl
  | cons token tokens ih =>
    have hadvances := advances nesting token
    have hstray : ¬IsStray depth token := by
      intro hstray
      rw [strays_of_isStray hstray] at h
      cases h
    rw [strays_of_not_isStray hstray] at h
    have hstep : step nesting.length token = step depth token + 1 := by
      rw [hlength, step_succ hstray]
    have hresult := hadvances.result?_eq_none (by omega)
    rw [resultsFrom, hresult]
    exact ih (hadvances.length_eq.trans hstep) h

/-- What is read of tokens that close all forms around them is what is read when the tokens
from the first parenthesis that is never closed on and the stray ones are left out. -/
theorem parseFrom_eq_readExprs (h : CloseAll nesting.length tokens) :
    parseFrom nesting (withoutStrays nesting.length (beforeNeverClosed tokens)) =
      .ok (readExprs (resultsFrom nesting tokens)) := by
  induction tokens generalizing nesting with
  | nil =>
    cases nesting with
    | nil => rfl
    | cons form outer => exact absurd rfl h
  | cons token tokens ih =>
    by_cases hclosed : IsNeverClosed token tokens
    · -- Forms around the parenthesis would have to be closed after it.
      have hnesting : nesting = [] := by
        cases nesting with
        | nil => rfl
        | cons form outer =>
          have hinner : ¬IsStray outer.length token := by simp [hclosed.1]
          refine absurd ?_ h
          rw [strays_of_not_isStray hinner, strays_eq_nil hclosed.2]
      subst hnesting
      rw [beforeNeverClosed_of_isNeverClosed hclosed, resultsFrom,
        Nesting.advance_opening hclosed.1]
      exact congrArg Except.ok (readExprs_eq_nil rfl hclosed.2).symm
    · have hadvances := advances nesting token
      have hread : parseFrom (nesting.advance token).unfinished
          (withoutStrays (step nesting.length token) (beforeNeverClosed tokens)) =
            .ok (readExprs (resultsFrom (nesting.advance token).unfinished tokens)) := by
        rw [← hadvances.length_eq]
        apply ih
        rw [hadvances.length_eq]
        exact closeAll_step hclosed h
      rw [beforeNeverClosed_of_not_isNeverClosed hclosed, withoutStrays, resultsFrom]
      generalize hprogress : nesting.advance token = progress at hadvances hread
      have hlength := hadvances.length_eq
      cases hadvances with
      | within hstray _ _ =>
        rw [if_neg hstray, parseFrom_cons, hprogress]
        exact hread
      | complete e hstray _ =>
        rw [if_neg hstray, parseFrom_cons, hprogress]
        exact congrArg (Except.map (e :: ·)) hread
      | stray hstray _ =>
        have hnesting : nesting = [] := List.length_eq_zero_iff.mp hstray.2
        rw [if_pos hstray, hnesting]
        rw [hnesting] at hread
        exact hread

theorem parseFrom_eq (nesting : Nesting) (tokens : List Token) :
    parseFrom nesting tokens = match firstError? (resultsFrom nesting tokens) with
      | some err => .error err
      | none => .ok (readExprs (resultsFrom nesting tokens)) := by
  induction tokens generalizing nesting with
  | nil => cases nesting <;> rfl
  | cons token tokens ih =>
    rw [parseFrom_cons, resultsFrom]
    cases nesting.advance token with
    | within nesting' => exact ih nesting'
    | complete e =>
      rw [Progress.resume, ih]
      have hfirst : firstError? (.ok e :: resultsFrom [] tokens) =
        firstError? (resultsFrom [] tokens) := rfl
      simp only [Progress.result?, Progress.unfinished, Option.toList_some, List.singleton_append,
        hfirst]
      cases firstError? (resultsFrom [] tokens) <;> rfl
    | stray paren => rfl

end Results

namespace TokenStream

/-- The results of asking for expressions until there is none left, going on after errors. -/
def results (s : TokenStream) : List (Except ReadError Expr) := s.readSteps.1.map Prod.fst

theorem readFrom_eq (nesting : Nesting) (s : TokenStream) :
    (s.readFrom nesting).1 = (resultsFrom nesting s.toList).head? ∧
      resultsFrom [] (s.readFrom nesting).2.toList = (resultsFrom nesting s.toList).tail := by
  fun_induction readFrom nesting s with
  | case1 nesting s s' hnext =>
    obtain ⟨hnil, hnil'⟩ := toList_of_next_none hnext
    rw [hnil, hnil']
    cases nesting with
    | nil => exact ⟨rfl, rfl⟩
    | cons form outer => exact ⟨rfl, rfl⟩
  | case2 nesting s token s' hnext nesting' hwithin ih =>
    rw [toList_of_next_some hnext, resultsFrom, hwithin]
    exact ih
  | case3 nesting s token s' hnext e hcomplete =>
    rw [toList_of_next_some hnext, resultsFrom, hcomplete]
    exact ⟨rfl, rfl⟩
  | case4 nesting s token s' hnext paren hstray =>
    rw [toList_of_next_some hnext, resultsFrom, hstray]
    exact ⟨rfl, rfl⟩

theorem readForm_eq (s : TokenStream) : s.readForm.1 = (resultsFrom [] s.toList).head? ∧
    resultsFrom [] s.readForm.2.toList = (resultsFrom [] s.toList).tail :=
  readFrom_eq [] s

theorem results_eq (s : TokenStream) : s.results = resultsFrom [] s.toList := by
  unfold results
  fun_induction readSteps s with
  | case1 s s' hform =>
    have hhead := (readForm_eq s).1
    rw [hform] at hhead
    exact (List.head?_eq_none_iff.mp hhead.symm).symm
  | case2 s r s' hform steps s'' hsteps ih =>
    obtain ⟨hhead, htail⟩ := readForm_eq s
    rw [hform] at hhead htail
    rw [hsteps, htail] at ih
    rw [List.map_cons, ih]
    exact List.cons_head?_tail hhead.symm

theorem readForm_afterForms (k : Nat) (s : TokenStream) :
    (s.afterForms k).readForm.1 = s.results[k]? := by
  rw [results_eq]
  induction k generalizing s with
  | zero =>
    rw [← List.head?_eq_getElem?]
    exact (readForm_eq s).1
  | succ k ih =>
    have hlater := ih s.readForm.2
    rw [(readForm_eq s).2, List.getElem?_tail] at hlater
    exact hlater

end TokenStream

/-- Reading recovers from errors. Requests for expressions that go on after errors come to an
end. Errors about a closing parenthesis are about the stray ones, in order. If no parenthesis
is open in the end there is no other error, and what is read is what the tokens without the
stray ones are read as. Else the last result and no other is an error about a parenthesis that
is not closed: it is about the last that is never closed, and what is read comes from the tokens
before the first of these. Reading everything at once gives the expressions if there is no
error among the results, and the first error otherwise. -/
theorem reading_recovers_after_errors (s : TokenStream) :
    (∀ k, (s.afterForms k).readForm.1 = s.results[k]?) ∧
    s.results.filterMap strayOf? = (strays 0 s.toList).map Token.span ∧
    (depthAfter 0 s.toList = 0 → (∀ paren, .error (.unclosed paren) ∉ s.results) ∧
      parseTokens (withoutStrays 0 s.toList) = .ok (readExprs s.results)) ∧
    (0 < depthAfter 0 s.toList → ∃ settled paren,
      s.results = settled ++ [.error (.unclosed paren.span)] ∧
      (∀ paren', .error (.unclosed paren') ∉ settled) ∧
      (neverClosed s.toList).getLast? = some paren ∧
      parseTokens (withoutStrays 0 (beforeNeverClosed s.toList)) = .ok (readExprs s.results)) ∧
    (parseTokens s.toList = .ok (readExprs s.results) ↔ ∀ r ∈ s.results, ∃ e, r = .ok e) ∧
    ∀ err, parseTokens s.toList = .error err ↔ firstError? s.results = some err := by
  have hread : parseTokens (withoutStrays 0 (beforeNeverClosed s.toList)) =
      .ok (readExprs s.results) := by
    rw [TokenStream.results_eq]
    exact parseFrom_eq_readExprs trivial
  have hparse : parseTokens s.toList = match firstError? s.results with
      | some err => .error err
      | none => .ok (readExprs s.results) := by
    rw [TokenStream.results_eq]
    exact parseFrom_eq [] s.toList
  obtain ⟨settled, hsettled, hresults⟩ := exists_resultsFrom_eq [] s.toList
  have hblamed : blamed? [] s.toList = (neverClosed s.toList).getLast?.map Token.span := by
    simp [blamed?]
  rw [← TokenStream.results_eq, Nesting.parens, List.map_nil, hblamed] at hresults
  refine ⟨fun k => s.readForm_afterForms k, ?_, fun hdepth => ?_, fun hdepth => ?_, ?_, ?_⟩
  · rw [TokenStream.results_eq]
    exact strays_resultsFrom [] s.toList
  · have hnil : neverClosed s.toList = [] := by
      rw [depthAfter_zero] at hdepth
      exact List.length_eq_zero_iff.mp hdepth
    rw [beforeNeverClosed_eq_self hnil] at hread
    rw [hnil] at hresults
    refine ⟨fun paren hmem => ?_, hread⟩
    rw [hresults] at hmem
    exact hsettled paren (by simpa using hmem)
  · rw [depthAfter_zero] at hdepth
    cases hlast : (neverClosed s.toList).getLast? with
    | none =>
      rw [List.getLast?_eq_none_iff.mp hlast] at hdepth
      exact absurd hdepth (Nat.lt_irrefl 0)
    | some paren =>
      rw [hlast] at hresults
      exact ⟨settled, paren, hresults, hsettled, rfl, hread⟩
  · rw [hparse, ← firstError?_eq_none_iff]
    cases firstError? s.results <;> simp
  · intro err
    rw [hparse]
    cases firstError? s.results <;> simp

end LexicalLisp
