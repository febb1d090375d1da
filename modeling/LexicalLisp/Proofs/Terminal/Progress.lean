import Mathlib.Logic.Relation
import LexicalLisp.Terminal

/-!
# The progress of a terminal

However often a terminal is written to and read from, it keeps what was written, adding to its
end, and loses input from the front only. How much room it has for texts matters to writing alone,
and what its input is to reading alone.
-/

namespace LexicalLisp

/-- The first input is what is left of the second. -/
def Input.IsSuffix : Input → Input → Prop
  | .lines rest, .lines pending => rest <:+ pending
  | .stream rest, .stream s => rest.text <:+ s.text ∧ rest.garbled = s.garbled
  | _, _ => False

namespace Input.IsSuffix

variable {a b c : Input}

theorem refl (a : Input) : a.IsSuffix a := by
  cases a with
  | lines pending => exact List.suffix_refl pending
  | stream s => exact ⟨List.suffix_refl s.text, rfl⟩

theorem trans (h : a.IsSuffix b) (h' : b.IsSuffix c) : a.IsSuffix c := by
  cases b with
  | lines _ =>
    cases a with
    | stream _ => cases h
    | lines _ =>
      cases c with
      | stream _ => cases h'
      | lines _ => exact List.IsSuffix.trans h h'
  | stream _ =>
    cases a with
    | lines _ => cases h
    | stream _ =>
      cases c with
      | lines _ => cases h'
      | stream _ => exact ⟨h.1.trans h'.1, h.2.trans h'.2⟩

end Input.IsSuffix

theorem Stream.readLine_suffix (s : Stream) :
    (Input.stream s.readLine.2).IsSuffix (.stream s) := by
  have hsplit := Text.splitPiece_append s.text
  simp only [readLine]
  split
  · exact .refl _
  · split
    · exact .refl _
    · exact ⟨⟨_, hsplit⟩, rfl⟩

theorem Stream.readLine_ne_error {s : Stream} (h : s.garbled = false) (r : Refusal) :
    s.readLine.1 ≠ .error r := by
  unfold readLine
  rw [h]
  simp only [Bool.false_and, Bool.false_eq_true, if_false]
  split <;> exact nofun

namespace Terminal

/-- What becomes of a terminal that is asked for something. -/
inductive Step (t : Terminal) : Terminal → Prop
  | write (text : String) : Step t (t.write text).2
  | readLine : Step t t.readLine.2

/-- What becomes of a terminal in the course of time. -/
abbrev Leads : Terminal → Terminal → Prop := Relation.ReflTransGen Step

variable {t t' t'' : Terminal}

theorem Leads.write {text : String} {r : Except Refusal Unit} (h : t.write text = (r, t'))
    (h' : t'.Leads t'') : t.Leads t'' := by
  have hstep : t.Step (t.write text).2 := .write text
  rw [h] at hstep
  exact .head hstep h'

theorem Leads.readLine {r : Except Refusal (Option String)} (h : t.readLine = (r, t'))
    (h' : t'.Leads t'') : t.Leads t'' := by
  have hstep : t.Step t.readLine.2 := .readLine
  rw [h] at hstep
  exact .head hstep h'

theorem exists_readLine_eq (t : Terminal) :
    ∃ input : Input, input.IsSuffix t.input ∧ t.readLine.2 = { t with input := input } := by
  unfold readLine
  split
  · split
    · exact ⟨t.input, .refl _, rfl⟩
    · rename_i line rest hinput
      refine ⟨.lines rest, ?_, rfl⟩
      rw [hinput]
      exact List.suffix_cons line rest
    · rename_i s hinput
      refine ⟨.stream s.readLine.2, ?_, rfl⟩
      rw [hinput]
      exact s.readLine_suffix
  · exact ⟨t.input, .refl _, rfl⟩

theorem writes_readLine (t : Terminal) : t.readLine.2.writes = t.writes := by
  obtain ⟨input, -, heq⟩ := t.exists_readLine_eq
  rw [heq]

theorem writes_write (text : String) (t : Terminal) :
    (t.write text).2.writes.toList = match (t.write text).1 with
      | .ok () => t.writes.toList ++ [text]
      | .error _ => t.writes.toList := by
  unfold write
  split
  · exact Array.toList_push
  · exact Array.toList_push
  · rfl

/-- Output has only been added, and input has only been taken. -/
structure Continues (t t' : Terminal) : Prop where
  input : t'.input.IsSuffix t.input
  writes : t.writes.toList <+: t'.writes.toList

theorem Step.continues (h : t.Step t') : t.Continues t' := by
  cases h with
  | write text =>
    unfold Terminal.write
    split
    · exact ⟨.refl _, by simp⟩
    · exact ⟨.refl _, by simp⟩
    · exact ⟨.refl _, List.prefix_refl _⟩
  | readLine =>
    obtain ⟨input, hinput, heq⟩ := t.exists_readLine_eq
    rw [heq]
    exact ⟨hinput, List.prefix_refl _⟩

theorem Leads.continues (h : t.Leads t') : t.Continues t' := by
  induction h with
  | refl => exact ⟨.refl _, List.prefix_refl _⟩
  | tail _ hstep ih =>
    have hlast := hstep.continues
    exact ⟨hlast.input.trans ih.input, ih.writes.trans hlast.writes⟩

theorem output_of_writes {texts : List String}
    (h : t'.writes.toList = t.writes.toList ++ texts) :
    t'.output = t.output ++ String.join texts := by
  unfold output
  rw [h, String.join_append]

/-- Whatever has happened, neither writing nor reading is refused. -/
def NeverRefuses (t : Terminal) : Prop :=
  ∀ t', t.Leads t' → (∀ text r, (t'.write text).1 ≠ .error r) ∧ ∀ r, t'.readLine.1 ≠ .error r

/-- There is room for any number of texts, lines may be read, and all of the input is text. -/
structure Willing (t : Terminal) : Prop where
  room : t.room = none
  readable : t.readable = true
  input : ∀ s, t.input = .stream s → s.garbled = false

theorem Willing.step (ht : t.Willing) (h : t.Step t') : t'.Willing := by
  have hreadable := ht.readable
  cases h with
  | write text =>
    have hwrite : (t.write text).2 = { t with writes := t.writes.push text } := by
      unfold Terminal.write
      rw [ht.room]
    rw [hwrite]
    exact ⟨ht.room, hreadable, ht.input⟩
  | readLine =>
    unfold Terminal.readLine
    rw [if_pos hreadable]
    split
    · exact ht
    · exact ⟨ht.room, hreadable, nofun⟩
    · rename_i s hstream
      refine ⟨ht.room, hreadable, ?_⟩
      rintro _ ⟨⟩
      rw [s.readLine_suffix.2]
      exact ht.input s hstream

theorem Willing.neverRefuses (ht : t.Willing) : t.NeverRefuses := by
  intro t' hleads
  have ht' : t'.Willing := by
    induction hleads with
    | refl => exact ht
    | tail _ hstep ih => exact ih.step hstep
  refine ⟨fun text r => ?_, fun r => ?_⟩
  · unfold Terminal.write
    rw [ht'.room]
    exact nofun
  · unfold Terminal.readLine
    rw [if_pos ht'.readable]
    split
    · exact nofun
    · exact nofun
    · rename_i s hstream
      exact s.readLine_ne_error (ht'.input s hstream) r

def withRoom (room : Option Nat) (t : Terminal) : Terminal := { t with room := room }

def withLines (lines : List String) (t : Terminal) : Terminal := { t with input := .lines lines }

/-- The terminal after the text was written, if its room is not counted. -/
def record (text : String) (t : Terminal) : Terminal := { t with writes := t.writes.push text }

theorem toList_writes_record (text : String) (t : Terminal) :
    (t.record text).writes.toList = t.writes.toList ++ [text] :=
  Array.toList_push

theorem write_withRoom_none (text : String) (t : Terminal) :
    (t.withRoom none).write text = (.ok (), (t.record text).withRoom none) := rfl

theorem write_withRoom_succ (text : String) (n : Nat) (t : Terminal) :
    (t.withRoom (some (n + 1))).write text = (.ok (), (t.record text).withRoom (some n)) := rfl

theorem write_withRoom_zero (text : String) (t : Terminal) :
    (t.withRoom (some 0)).write text =
      (.error .write, { t.withRoom (some 0) with refusedWrites := t.refusedWrites + 1 }) := rfl

theorem readLine_withRoom (room : Option Nat) (t : Terminal) :
    (t.withRoom room).readLine = (t.readLine.1, t.readLine.2.withRoom room) := by
  rcases t with ⟨(_ | ⟨line, rest⟩) | s, _ | _, _, writes, refusedWrites⟩ <;> rfl

theorem write_withLines (text : String) (lines : List String) (t : Terminal) :
    (t.withLines lines).write text = ((t.write text).1, (t.write text).2.withLines lines) := by
  unfold write withLines
  cases t.room with
  | none => rfl
  | some n => cases n <;> rfl

theorem readLine_withLines_nil (h : t.readable = true) :
    (t.withLines []).readLine = (.ok none, t.withLines []) :=
  if_pos h

theorem readLine_withLines_cons (line : String) (lines : List String) (h : t.readable = true) :
    (t.withLines (line :: lines)).readLine = (.ok (some line), t.withLines lines) :=
  if_pos h

theorem readLine_withLines_refused (lines : List String) (h : t.readable = false) :
    (t.withLines lines).readLine = (.error .read, t.withLines lines) :=
  if_neg (by simp [withLines, h])

end Terminal
end LexicalLisp
