import LexicalLisp.Proofs.Prompt.Gathering
import LexicalLisp.Proofs.Reading.RoundTrip
import LexicalLisp.Proofs.Reading.SameShapes

/-!
# A program as the input of a dialogue

If nobody answers and no program reads a line, a dialogue takes its whole stream for texts to
submit. A stream that can be read as one program is cut into submissions that are programs
themselves, at every end of a line at which all parentheses are closed. Their expressions are in
order those of the whole, each of them once. What comes of a submission, an error for instance,
has no influence on the later ones.
-/

namespace LexicalLisp

open Text

namespace Dialogue

def opening (text : String) : Dialogue :=
  (⟨Session.start (.ofStream (.ofText text)), [], [], ""⟩ : Dialogue).say greeting

theorem run?_eq (depth : Nat) (text : String) :
    run? depth text = continue? depth (text.length + 1) (opening text) := rfl

/-- However the next submission ends, it has taken no line from the stream. -/
def ReadsNothing (depth : Nat) (d : Dialogue) : Prop :=
  ∀ complaints line rest m, Entry.gather [] d.unread = ⟨complaints, some line, rest⟩ →
    (∃ v, Session.submit depth (trim line) 0 (d.leave rest).machine = .result v m) ∨
      (∃ e, Session.submit depth (trim line) 0 (d.leave rest).machine = .error e m) →
    m.terminal.input = .stream ⟨rest, false⟩

section Tests

/-- Tests whether a submission leaves just the given characters in the stream. -/
def leavesStream (rest : List Char) : Outcome RunError Value → Bool
  | .result _ m | .error _ m => m.terminal.input = .stream ⟨rest, false⟩
  | .outOfFuel => true

def readsNothing (depth : Nat) (d : Dialogue) : Bool :=
  match Entry.gather [] d.unread with
  | ⟨_, none, _⟩ => true
  | ⟨_, some line, rest⟩ =>
    leavesStream rest (Session.submit depth (trim line) 0 (d.leave rest).machine)

theorem readsNothing_of_test {depth : Nat} {d : Dialogue} (h : d.readsNothing depth) :
    d.ReadsNothing depth := by
  intro complaints line rest m hentry hends
  simp only [readsNothing, hentry] at h
  generalize trim line = input at h hends
  rcases hends with ⟨v, hv⟩ | ⟨e, he⟩
  · simpa [hv, leavesStream] using h
  · simpa [he, leavesStream] using h

theorem readsNothing_of_tests {depth bound : Nat} {d : Dialogue}
    (h : (List.range (bound + 1)).all fun turns =>
      (continue? depth turns d).all (·.readsNothing depth)) :
    ∀ turns ≤ bound, ∀ d', continue? depth turns d = some d' → d'.ReadsNothing depth := by
  intro turns hturns d' hd'
  have htest := List.all_eq_true.mp h turns (List.mem_range.mpr (Nat.lt_succ_of_le hturns))
  rw [hd', Option.all_some] at htest
  exact readsNothing_of_test htest

end Tests

theorem input_say (d : Dialogue) (text : String) :
    (d.say text).machine.terminal.input = d.machine.terminal.input := by
  unfold say Terminal.write
  cases d.machine.terminal.room with
  | none => rfl
  | some n => cases n <;> rfl

theorem submitted_answer (d : Dialogue) (v : Value) : (d.answer v).submitted = d.submitted := by
  cases v <;> rfl

theorem input_answer (d : Dialogue) (v : Value) :
    (d.answer v).machine.terminal.input = d.machine.terminal.input := by
  cases v with
  | void => rfl
  | _ => exact input_say d _

theorem unread_of_input {d : Dialogue} {rest : List Char}
    (h : d.machine.terminal.input = .stream ⟨rest, false⟩) : d.unread = rest := by
  rw [unread, h]

/-- Runs a text as the next input, where the given characters are left to be read. The dialogue
goes on after a failure as after a success. -/
def enter (depth : Nat) (line : String) (rest : List Char) (d : Dialogue) : Option Dialogue :=
  let d := { d.leave rest with submitted := d.submitted ++ [line] }
  let input := trim line
  if input = "" then some d
  else
    match Session.submit depth input 0 d.machine with
    | .result v m => some ({ d with machine := m }.answer v)
    | .error e m =>
      some { d with machine := m, diagnoses := d.diagnoses ++ [e.diagnose "REPL" input] }
    | .outOfFuel => none

/-- Runs each of the texts once, in order, while the later ones are left to be read. -/
def enterAll (depth : Nat) : List Submission → Dialogue → Option Dialogue
  | [], d => some d
  | part :: parts, d =>
    (d.enter depth part.line (parts.flatMap Submission.chars)).bind (enterAll depth parts)

section Turn

variable {depth : Nat} {d : Dialogue} {line : String} {rest : List Char}

theorem enter_leaves {d' : Dialogue} (h : d.enter depth line rest = some d')
    (hreads : ∀ m,
      (∃ v, Session.submit depth (trim line) 0 (d.leave rest).machine = .result v m) ∨
        (∃ e, Session.submit depth (trim line) 0 (d.leave rest).machine = .error e m) →
      m.terminal.input = .stream ⟨rest, false⟩) :
    d'.submitted = d.submitted ++ [line] ∧ d'.machine.terminal.input = .stream ⟨rest, false⟩ := by
  unfold enter at h
  generalize trim line = input at h hreads
  dsimp only at h
  split at h
  · cases h
    exact ⟨rfl, rfl⟩
  · split at h
    · rename_i v m hsubmit
      cases h
      exact ⟨submitted_answer _ v, (input_answer _ v).trans (hreads m (.inl ⟨v, hsubmit⟩))⟩
    · rename_i e m hsubmit
      cases h
      exact ⟨rfl, hreads m (.inr ⟨e, hsubmit⟩)⟩
    · cases h

theorem continue?_entry (hentry : Entry.gather [] d.unread = ⟨"", some line, rest⟩)
    (hexit : (trim line).toLower ≠ "exit") (turns : Nat) :
    continue? depth (turns + 1) d = (d.enter depth line rest).bind (continue? depth turns) := by
  simp only [continue?, hentry, if_neg hexit, enter, String.append_empty]
  generalize trim line = input
  by_cases hempty : input = ""
  · simp only [if_pos hempty]
    rfl
  · simp only [if_neg hempty]
    cases hsubmit : Session.submit depth input 0 (d.leave rest).machine <;> rfl

theorem continue?_exit (hentry : Entry.gather [] d.unread = ⟨"", some line, rest⟩)
    (hexit : (trim line).toLower = "exit") (turns : Nat) :
    ∃ d', continue? depth (turns + 1) d = some d' ∧ d'.submitted = d.submitted ++ [line] := by
  have hne : trim line ≠ "" := by
    intro hempty
    rw [hempty] at hexit
    exact absurd hexit (by decide +kernel)
  simp only [continue?, hentry, if_neg hne, if_pos hexit]
  exact ⟨_, rfl, rfl⟩

theorem continue?_end (h : d.machine.terminal.input = .stream ⟨[], false⟩) (turns : Nat) :
    continue? depth (turns + 1) d = some (d.say farewell) := by
  have hend : Entry.gather [] d.unread = ⟨"", none, []⟩ := by
    rw [unread_of_input h, Entry.gather]
  simp only [continue?, hend, String.append_empty]
  rw [leave, ← h]

end Turn

/-- Turn by turn a dialogue runs what its stream falls into. -/
theorem enterAll_of_gathers {depth turns : Nat} {text : List Char} {parts : List Submission}
    (h : Gathers text parts) (hturns : text.length < turns) {d d' : Dialogue}
    (hd : d.machine.terminal.input = .stream ⟨text, false⟩)
    (hrun : continue? depth turns d = some d')
    (hexit : ∀ line ∈ d'.submitted, (trim line).toLower ≠ "exit")
    (hreads : ∀ k ≤ text.length, ∀ d₁, continue? depth k d = some d₁ → d₁.ReadsNothing depth) :
    (d.enterAll depth parts).map (·.say farewell) = some d' ∧
      d'.submitted = d.submitted ++ parts.map Submission.line := by
  induction h generalizing turns d with
  | nil =>
    obtain ⟨turns, rfl⟩ : ∃ n, turns = n + 1 := Nat.exists_eq_succ_of_ne_zero (by omega)
    rw [continue?_end hd] at hrun
    refine ⟨hrun, ?_⟩
    cases hrun
    exact (List.append_nil _).symm
  | @cons part rest parts hgather hentry _ _ hrest ih =>
    obtain ⟨turns, rfl⟩ : ∃ n, turns = n + 1 := Nat.exists_eq_succ_of_ne_zero (by omega)
    have hlength := List.length_pos_iff.mpr hentry.ne_nil
    rw [List.length_append] at hturns hreads
    rw [← unread_of_input hd] at hgather
    by_cases hword : (trim part.line).toLower = "exit"
    · obtain ⟨d₁, hd₁, hsubmitted⟩ := continue?_exit hgather hword turns
      rw [hd₁] at hrun
      cases hrun
      exact absurd hword (hexit part.line (by simp [hsubmitted]))
    · rw [continue?_entry hgather hword] at hrun
      obtain ⟨d₁, henter, hgo⟩ := Option.bind_eq_some_iff.mp hrun
      obtain ⟨hsubmitted, hinput⟩ := enter_leaves henter fun m =>
        hreads 0 (Nat.zero_le _) d rfl "" part.line rest m hgather
      have hreads' : ∀ k ≤ rest.length, ∀ d₂, continue? depth k d₁ = some d₂ →
          d₂.ReadsNothing depth := by
        intro k hk d₂ hd₂
        refine hreads (k + 1) (by omega) d₂ ?_
        rw [continue?_entry hgather hword, henter, Option.bind_some, hd₂]
      obtain ⟨hall, hlines⟩ := ih (by omega) hinput hgo hreads'
      constructor
      · rw [enterAll, ← hrest.eq_flatMap, henter]
        exact hall
      · rw [hlines, hsubmitted, List.map_cons, List.append_assoc]
        rfl

end Dialogue

namespace Gathers

theorem exists_programs {text : List Char} {parts : List Submission} (h : Gathers text parts)
    (hblank : ∀ c ∈ text, isBlank c → isTokenBlank c) {es : List Expr}
    (hes : parse (String.ofList text) = .ok es) : ∃ programs : List (List Expr),
      (parts.map Submission.line).map (fun line => parse (trim line)) = programs.map .ok ∧
        es = programs.flatten := by
  induction h generalizing es with
  | nil =>
    refine ⟨[], rfl, ?_⟩
    cases hes
    rfl
  | @cons part rest parts hgather hentry hdrop hbreak hrest ih =>
    have hpaired : Paired part.line.toList :=
      (Gathers.cons hgather hentry hdrop hbreak hrest).line_paired part List.mem_cons_self
    have hline : ∀ c ∈ part.line.toList, isBlank c → isTokenBlank c :=
      fun c hc => hblank c (by simp [Submission.chars, hc])
    have hshapes : shapes (String.ofList (part.chars ++ rest)).toList =
        shapes part.line.toList ++ shapes (String.ofList rest).toList := by
      rw [String.toList_ofList, String.toList_ofList, Submission.chars, List.append_assoc]
      rcases hbreak with hbreak | hbreak | ⟨hbreak, hnil⟩
      · exact shapes_append_blanks (by simp [hbreak, isTokenBlank]) (by simp [hbreak]) _ _
      · exact shapes_append_blanks (by simp [hbreak, isTokenBlank]) (by simp [hbreak]) _ _
      · simp [hbreak, hnil]
    obtain ⟨first, hfirst⟩ := exists_parse_eq_ok_of_paired hpaired
    have htrim : parse (trim part.line) = .ok first :=
      parse_of_shapes (shapes_trim hline).symm hfirst
    obtain ⟨later, hlater, rfl⟩ := parse_append_of_shapes hshapes hes hfirst
    obtain ⟨programs, hprograms, rfl⟩ := ih (fun c hc => hblank c (by simp [hc])) hlater
    refine ⟨first :: programs, ?_, rfl⟩
    rw [List.map_cons, List.map_cons, htrim, hprograms, List.map_cons]

end Gathers

/-- The text is cut into the submissions and their line breaks: at the ends of lines, of all lines
at whose end every parenthesis so far is closed. -/
structure CutInto (text : String) (parts : List Submission) : Prop where
  whole : text.toList = parts.flatMap Submission.chars
  chars_ne_nil : ∀ part ∈ parts, part.chars ≠ []
  valid : ∀ part ∈ parts, Verdict.of part.line = .valid
  line_eq : ∀ part ∈ parts, part.line = String.ofList (dropLineBreak part.chars)
  lineBreaks : ∀ part ∈ parts,
    part.lineBreak = "\n" ∨ part.lineBreak = "\r\n" ∨ part.lineBreak = ""
  /-- Only the last submission may lack a line break. -/
  lineBreak_ne : ∀ part ∈ parts.dropLast, part.lineBreak ≠ ""
  boundaries : ∀ upper lower, text.toList = upper ++ lower → upper ≠ [] →
    ((∃ n, upper = (parts.take n).flatMap Submission.chars) ↔
      (EndsLine upper ∨ lower = []) ∧ AllClosed upper)

theorem Gathers.cutInto {text : String} {parts : List Submission}
    (h : Gathers text.toList parts) (hpaired : Paired text.toList) : CutInto text parts where
  whole := h.eq_flatMap
  chars_ne_nil := h.chars_ne_nil
  line_eq := h.line_eq
  valid part hpart := (h.line_paired part hpart).verdict
  lineBreaks := h.lineBreak_cases
  lineBreak_ne := h.lineBreak_ne
  boundaries upper lower htext hne := by
    rw [htext] at hpaired
    rw [h.boundary_iff htext hne, hpaired.noStray.of_append.paired_iff]

/-- A program that is piped into a dialogue is run form by form. Of the program it is assumed that
it can be read and has no blanks but those that separate tokens; of the dialogue, that it ends,
that none of the texts is the word `exit`, and that no submission takes a line from the stream.
Then it runs the submissions once each, in order, and ends with its farewell. They make up the
program, each of them is valid, the cuts are at just those ends of lines at which all parentheses
are closed, and the expressions of the texts are in order those of the program. The cuts depend on
the program alone, so that a submission that fails changes nothing for the later ones. -/
theorem program_is_submitted_form_by_form {depth : Nat} {text : String} {es : List Expr}
    {d : Dialogue} (hblank : ∀ c ∈ text.toList, isBlank c → isTokenBlank c)
    (hparse : parse text = .ok es) (hrun : Dialogue.run? depth text = some d)
    (hexit : ∀ line ∈ d.submitted, (trim line).toLower ≠ "exit")
    (hreads : ∀ turns ≤ text.length, ∀ d',
      Dialogue.continue? depth turns (Dialogue.opening text) = some d' → d'.ReadsNothing depth) :
    ∃ (parts : List Submission) (programs : List (List Expr)),
      ((Dialogue.opening text).enterAll depth parts).map (·.say Dialogue.farewell) = some d ∧
        d.submitted = parts.map Submission.line ∧ CutInto text parts ∧
        d.submitted.map (fun line => parse (trim line)) = programs.map .ok ∧
        es = programs.flatten := by
  have hpaired := paired_of_parse_eq_ok hparse
  obtain ⟨parts, hparts⟩ := Gathers.exists_of_paired text.toList hpaired
  rw [← String.ofList_toList (s := text)] at hparse
  obtain ⟨programs, hprograms, hes⟩ := hparts.exists_programs hblank hparse
  have hlength : text.toList.length = text.length := String.length_toList
  rw [Dialogue.run?_eq] at hrun
  obtain ⟨hall, hsubmitted⟩ : _ ∧ d.submitted = parts.map Submission.line :=
    Dialogue.enterAll_of_gathers hparts (by omega) rfl hrun hexit (by rwa [hlength])
  rw [← hsubmitted] at hprograms
  exact ⟨parts, programs, hall, hsubmitted, hparts.cutInto hpaired, hprograms, hes⟩

/-- The form over two lines is submitted as one text, the empty line as another. The form after
them fails, and still the last one is submitted. -/
theorem forms_are_submitted_around_failure :
    ∃ (d : Dialogue) (parts : List Submission) (programs : List (List Expr)),
      Dialogue.run? 9 "(define x\r\n1)\n\n(car x)\nx" = some d ∧
        d.submitted = ["(define x\r\n1)", "", "(car x)", "x"] ∧ d.diagnoses.length = 1 ∧
        ((Dialogue.opening "(define x\r\n1)\n\n(car x)\nx").enterAll 9 parts).map
          (·.say Dialogue.farewell) = some d ∧
        d.submitted = parts.map Submission.line ∧
        CutInto "(define x\r\n1)\n\n(car x)\nx" parts ∧
        d.submitted.map (fun line => parse (trim line)) = programs.map .ok ∧
        [.list [.symbol "define", .symbol "x", .integer 1], .list [.symbol "car", .symbol "x"],
          .symbol "x"] = programs.flatten := by
  have hblank : "(define x\r\n1)\n\n(car x)\nx".toList.all
      fun c => !isBlank c || isTokenBlank c := by decide +kernel
  have hparse : parse "(define x\r\n1)\n\n(car x)\nx" =
      .ok [.list [.symbol "define", .symbol "x", .integer 1],
        .list [.symbol "car", .symbol "x"], .symbol "x"] := by decide +kernel
  have hrun : (Dialogue.run? 9 "(define x\r\n1)\n\n(car x)\nx").map
      (fun d => (d.submitted, d.diagnoses.length)) =
        some (["(define x\r\n1)", "", "(car x)", "x"], 1) := by decide +kernel
  obtain ⟨d, hd, hends⟩ := Option.map_eq_some_iff.mp hrun
  obtain ⟨hsubmitted, hdiagnoses⟩ := Prod.mk.inj hends
  obtain ⟨parts, programs, h⟩ := program_is_submitted_form_by_form
    (fun c hc hc' => by simpa [hc'] using List.all_eq_true.mp hblank c hc) hparse hd
    (by rw [hsubmitted]; decide +kernel) (Dialogue.readsNothing_of_tests (by decide +kernel))
  exact ⟨d, parts, programs, hd, hsubmitted, hdiagnoses, h⟩

end LexicalLisp
