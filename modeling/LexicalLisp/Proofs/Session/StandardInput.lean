import LexicalLisp.Command
import LexicalLisp.Proofs.Evaluation.Interaction
import LexicalLisp.Proofs.Text.Piece

/-!
# Standard input, line by line

A terminal whose input is a stream takes a line from it when one is asked for. It gives the same
lines as a terminal that has the lines of the whole text from the beginning, whatever the line
breaks are. Nothing else is ever asked of an input, so a run on the one ends as it does on the
other, and so does the command that runs the program in a file.
-/

namespace LexicalLisp

open Text (splitPiece dropLineBreak)

namespace Stream

theorem decodeFrom_append (before : ByteArray) (cs : List Char) :
    decodeFrom (before ++ cs.utf8Encode) before.size = ⟨cs, false⟩ := by
  induction cs generalizing before with
  | nil =>
    unfold decodeFrom
    rw [dif_neg (by simp)]
  | cons c cs ih =>
    have hsize : [c].utf8Encode.size = c.utf8Size := by simp [List.utf8Encode_singleton]
    have hlt : before.size < (before ++ (c :: cs).utf8Encode).size := by
      have hpos := c.utf8Size_pos
      rw [List.utf8Encode_cons, ByteArray.size_append, ByteArray.size_append]
      omega
    have hchar : (before ++ (c :: cs).utf8Encode).utf8DecodeChar? before.size = some c := by
      rw [ByteArray.utf8DecodeChar?_eq_utf8DecodeChar?_extract,
        ByteArray.extract_append_eq_right rfl ByteArray.size_append]
      exact List.utf8DecodeChar?_utf8Encode_cons
    have hrest := ih (before ++ [c].utf8Encode)
    rw [ByteArray.append_assoc, ← List.utf8Encode_cons, ByteArray.size_append, hsize] at hrest
    unfold decodeFrom
    rw [dif_pos hlt]
    simp only [hchar, hrest]

theorem ofBytes_toUTF8 (text : String) : ofBytes text.toUTF8 = ofText text := by
  have hdecode := decodeFrom_append .empty text.toList
  rw [ByteArray.empty_append, String.utf8Encode_toList, ← String.toUTF8_eq_toByteArray] at hdecode
  exact hdecode

theorem text?_ofText (text : String) : (ofText text).text? = some text :=
  congrArg some (String.ofList_toList)

/-- A stream of text gives the line of its first piece, and keeps the rest of the text. -/
theorem readLine_cons (c : Char) (cs : List Char) :
    readLine ⟨c :: cs, false⟩ =
      (.ok (some (String.ofList (dropLineBreak (splitPiece (c :: cs)).1))),
        ⟨(splitPiece (c :: cs)).2, false⟩) := by
  unfold readLine
  simp [Text.splitPiece_ne_nil]

end Stream

namespace Input

def itemized : Input → Input
  | lines pending => lines pending
  | stream s => lines (Text.lines (String.ofList s.text))

def IsText (input : Input) : Prop := ∀ s, input = stream s → s.garbled = false

theorem IsText.of_suffix {a b : Input} (hb : b.IsText) (h : a.IsSuffix b) : a.IsText := by
  rintro s rfl
  cases b with
  | lines pending => cases h
  | stream s' =>
    rw [h.2]
    exact hb s' rfl

end Input

namespace Terminal

def itemized (t : Terminal) : Terminal := { t with input := t.input.itemized }

theorem itemized_ofText (text : String) :
    (ofStream (.ofText text)).itemized = ofLines (Text.lines text) := by
  simp [itemized, Input.itemized, ofStream, ofLines, Stream.ofText]

theorem isText_ofText (text : String) : (ofStream (.ofText text)).input.IsText := by
  rintro _ ⟨⟩
  rfl

theorem write_itemized (text : String) (t : Terminal) :
    t.itemized.write text = ((t.write text).1, (t.write text).2.itemized) := by
  unfold write itemized
  cases t.room with
  | none => rfl
  | some n => cases n <;> rfl

theorem isText_write {t : Terminal} (text : String) (h : t.input.IsText) :
    (t.write text).2.input.IsText := by
  unfold write
  split <;> exact h

theorem isText_readLine {t : Terminal} (h : t.input.IsText) : t.readLine.2.input.IsText := by
  obtain ⟨input, hsuffix, heq⟩ := t.exists_readLine_eq
  rw [heq]
  exact h.of_suffix hsuffix

theorem readLine_itemized {t : Terminal} (h : t.input.IsText) :
    t.itemized.readLine = (t.readLine.1, t.readLine.2.itemized) := by
  obtain ⟨input, readable, room, writes, refused⟩ := t
  cases readable with
  | false => rfl
  | true =>
    cases input with
    | lines pending => cases pending <;> rfl
    | stream s =>
      obtain ⟨text, garbled⟩ := s
      obtain rfl : garbled = false := h _ rfl
      cases text with
      | nil => rfl
      | cons c cs =>
        simp only [readLine, itemized, Input.itemized, Text.lines_ofList_cons,
          Stream.readLine_cons, if_true]

end Terminal

open Terminal

theorem Interaction.on_itemized {α : Type} (i : Interaction α) {t : Terminal}
    (h : t.input.IsText) : i.on t.itemized = (i.on t).mapTerminal itemized := by
  induction i generalizing t with
  | result a s => rfl
  | error e own s => rfl
  | outOfFuel => rfl
  | write text s next ih =>
    have hnext := isText_write text h
    simp only [on, write_itemized]
    rcases hwrite : t.write text with ⟨_ | _, t'⟩
    · rfl
    · rw [hwrite] at hnext
      exact ih hnext
  | readLine s next ih =>
    have hnext := isText_readLine h
    simp only [on, readLine_itemized h]
    rcases hread : t.readLine with ⟨_ | _ | line, t'⟩
    · rfl
    · rfl
    · rw [hread] at hnext
      exact ih line hnext

theorem Run.Interacts.on_itemized {α : Type} {x : Run EvalError α} (hx : x.Interacts) (s : Store)
    {t : Terminal} (h : t.input.IsText) :
    x ⟨s, t.itemized⟩ = (x ⟨s, t⟩).mapTerminal itemized := by
  obtain ⟨i, hi⟩ := hx s
  rw [hi, hi, i.on_itemized h]

theorem Session.runText_itemized (depth : Nat) (text : String) (f : FrameId) (s : Store)
    {t : Terminal} (h : t.input.IsText) :
    runText depth text f ⟨s, t.itemized⟩ = (runText depth text f ⟨s, t⟩).mapTerminal itemized := by
  unfold runText runLines
  cases parseLines (Text.lines text) with
  | error e => rfl
  | ok program =>
    simp only [Run.mapError, (run_interacts depth program f).on_itemized s h]
    cases run depth program f ⟨s, t⟩ <;> rfl

/-- A text on standard input is read as its lines are, if these are the input from the beginning.
An evaluation ends with the same value or error, with the same store and the same output, and what
it leaves of the input are the same lines. The command `lis`, given a file, puts out what the
program in it writes with the lines as its input; its exit code is zero if the program succeeds,
and one, with a single diagnosis, if the program fails. -/
theorem standard_input_is_read_by_lines (text : String) :
    (∀ depth e f s, eval depth e f ⟨s, .ofLines (Text.lines text)⟩ =
      (eval depth e f ⟨s, .ofStream (.ofBytes text.toUTF8)⟩).mapTerminal itemized) ∧
    ∀ depth path file report,
      Command.lis? depth (.file path) (.ok (.ofBytes file.toUTF8)) (.ofBytes text.toUTF8) =
          some report ↔
        (∃ v m, Session.runText depth file 0 (Session.start (.ofLines (Text.lines text))) =
            .result v m ∧ report = ⟨0, m.terminal.output, [], ""⟩) ∨
        ∃ err m, Session.runText depth file 0 (Session.start (.ofLines (Text.lines text))) =
            .error err m ∧ report = ⟨1, m.terminal.output, [err.diagnose path file], ""⟩ := by
  have htext := isText_ofText text
  simp only [Stream.ofBytes_toUTF8, ← itemized_ofText]
  refine ⟨fun depth e f s => (eval_interacts depth e f).on_itemized s htext,
    fun depth path file report => ?_⟩
  have hrun := Session.runText_itemized depth file 0 (Store.empty.push none []).2 htext
  simp only [Command.lis?, Stream.text?_ofText, Command.runProgram?, Session.start, hrun]
  cases Session.runText depth file 0 ⟨_, .ofStream (.ofText text)⟩ with
  | result v m => simp [Outcome.mapTerminal, eq_comm, itemized, output]
  | error err m => simp [Outcome.mapTerminal, eq_comm, itemized, output]
  | outOfFuel => simp [Outcome.mapTerminal]

/-- A carriage return belongs to its line unless a line feed follows, and the last line needs no
line break. -/
example : (ofStream (.ofText "a\r\n\r\nb\rc\r")).itemized = ofLines ["a", "", "b\rc\r"] := by
  decide +kernel

end LexicalLisp
