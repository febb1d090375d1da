import Mathlib.Data.List.DropRight
import LexicalLisp.Prompt.Completion
import LexicalLisp.Proofs.Prompt.Verdict
import LexicalLisp.Proofs.Scoping.Visibility
import LexicalLisp.Proofs.Text.NameOrder

/-!
# Names that can be completed

The last lexeme before the cursor is an atom that the characters end with exactly if the last of
these characters can stand in an atom, and then it is the longest run of such characters there.
The candidates are what is missing of the names that begin with it, be they visible or reserved,
and there is one for every such name but the atom itself.
-/

namespace LexicalLisp

open Text (isAtomChar isTokenBlank byteLength takeBytes utf8Bytes)
open Lexeme (IsRun IsBorder)

namespace Lexeme

variable {offset : Nat} {b : Char}

/-- No lexeme goes on across a character that cannot stand in an atom. -/
theorem scan_append_of_border (hb : isAtomChar b = false) (cs ds : List Char) :
    scan offset (cs ++ [b] ++ ds) =
      scan offset (cs ++ [b]) ++ scan (offset + byteLength (cs ++ [b])) ds := by
  have hborder : ∀ es, IsBorder (b :: es) := by
    intro es c hc
    cases hc
    exact hb
  have hsplit : scan (offset + byteLength cs) (b :: ds) =
      scan (offset + byteLength cs) [b] ++ scan (offset + byteLength cs + b.utf8Size) ds := by
    rcases char_cases b with hblank | rfl | rfl | hatom
    · rw [scan_blank hblank, scan_blank hblank]
      rfl
    · rfl
    · rfl
    · rw [hb] at hatom
      cases hatom
  rw [List.append_assoc, List.singleton_append, scan_append (hborder ds), scan_append (hborder []),
    hsplit, List.append_assoc, Text.byteLength_append, ← Nat.add_assoc]
  rfl

theorem IsRun.not_suffix {run cs : List Char} (h : IsRun run) (hb : isAtomChar b = false) :
    ¬run <:+ cs ++ [b] := by
  intro hsuffix
  rcases List.suffix_concat_iff.mp hsuffix with rfl | ⟨run', rfl, -⟩
  · exact h.ne_nil rfl
  · have hatom := h.atomChars b (by simp)
    rw [hb] at hatom
    cases hatom

end Lexeme

namespace Completion

section Atom

variable {cs : List Char}

theorem rdropWhile_cases (cs : List Char) : cs.rdropWhile isAtomChar = [] ∨
    ∃ earlier b, cs.rdropWhile isAtomChar = earlier ++ [b] ∧ isAtomChar b = false := by
  by_cases h : cs.rdropWhile isAtomChar = []
  · exact .inl h
  · refine .inr ⟨_, _, (List.dropLast_concat_getLast h).symm, ?_⟩
    simpa using List.rdropWhile_last_not isAtomChar cs h

theorem atomBefore?_eq (cs : List Char) : atomBefore? cs =
    if cs.rtakeWhile isAtomChar = [] then none else some (cs.rtakeWhile isAtomChar) := by
  have hcs : cs.rdropWhile isAtomChar ++ cs.rtakeWhile isAtomChar = cs :=
    List.rdropWhile_append_rtakeWhile
  have hatoms : ∀ c ∈ cs.rtakeWhile isAtomChar, isAtomChar c := fun c => List.mem_rtakeWhile_imp
  have houtside := rdropWhile_cases cs
  generalize cs.rtakeWhile isAtomChar = run, cs.rdropWhile isAtomChar = outside at *
  subst hcs
  unfold atomBefore?
  by_cases hrun : run = []
  · subst hrun
    rw [if_pos rfl, List.append_nil]
    rcases houtside with rfl | ⟨earlier, b, rfl, hb⟩
    · rfl
    · cases hlast : (Lexeme.scan 0 (earlier ++ [b])).getLast? with
      | none => rfl
      | some l =>
        refine if_neg ?_
        rintro ⟨hkind, hsuffix⟩
        have hl := Lexeme.isRun_of_mem_scan l (List.mem_of_getLast? hlast) hkind
        exact hl.not_suffix hb hsuffix
  · have hscan : Lexeme.scan 0 (outside ++ run) =
        Lexeme.scan 0 outside ++ [⟨.atom, byteLength outside, run⟩] := by
      rcases houtside with rfl | ⟨earlier, b, rfl, hb⟩
      · exact Text.scan_run 0 hatoms hrun
      · rw [Lexeme.scan_append_of_border hb, Text.scan_run _ hatoms hrun, Nat.zero_add]
    rw [if_neg hrun, hscan, List.getLast?_concat]
    exact if_pos ⟨rfl, List.suffix_append outside run⟩

end Atom

section Names

variable {atom cs rest : List Char} {name missing : String}

theorem remainder?_eq_some_iff : remainder? atom cs = some rest ↔ cs = atom ++ rest := by
  induction atom generalizing cs with
  | nil => simp [remainder?]
  | cons a atom ih =>
    cases cs with
    | nil => simp [remainder?]
    | cons c cs =>
      unfold remainder?
      split
      · rename_i h
        simp [ih, h]
      · rename_i h
        simp [Ne.symm h]

theorem suffix?_eq_some_iff :
    suffix? atom name = some missing ↔ missing ≠ "" ∧ String.ofList atom ++ missing = name := by
  have hname : String.ofList atom ++ missing = name ↔ name.toList = atom ++ missing.toList := by
    rw [← String.toList_inj, String.toList_append, String.toList_ofList, eq_comm]
  have hmissing : missing ≠ "" ↔ missing.toList ≠ [] := by simp
  rw [hname, hmissing, ← remainder?_eq_some_iff]
  unfold suffix?
  cases hrest : remainder? atom name.toList with
  | none => simp
  | some rest =>
    cases rest with
    | nil => simp
    | cons c cs =>
      rw [Option.some.injEq, Option.some.injEq, ← String.toList_inj, String.toList_ofList]
      constructor
      · intro h
        exact ⟨by rw [← h]; exact List.cons_ne_nil c cs, h⟩
      · exact And.right

theorem mem_candidates_iff {names : List String} :
    missing ∈ Text.sortNames (names.filterMap (suffix? atom)) ↔
      missing ≠ "" ∧ String.ofList atom ++ missing ∈ names := by
  simp only [Text.mem_sortNames, List.mem_filterMap, suffix?_eq_some_iff]
  constructor
  · rintro ⟨name, hname, hne, rfl⟩
    exact ⟨hne, hname⟩
  · rintro ⟨hne, hname⟩
    exact ⟨_, hname, hne, rfl⟩

end Names

end Completion

/-- Completion goes in at the cursor. If the longest run of characters before it that are neither
blank nor parentheses is empty, there are no candidates. Else they are just those texts, other than
the empty one, that make a name of this run: one that some frame outward from the given one binds,
or a reserved name. Each candidate is less than those after it, byte by byte. -/
theorem completion_is_sound_and_complete (s : Store) (f : FrameId) (before after : String) :
    let atom := String.ofList (before.toList.rtakeWhile isAtomChar)
    ∃ candidates,
      Completion.complete s f (before ++ after) before.utf8ByteSize =
        (before.utf8ByteSize, candidates) ∧
      (atom = "" → candidates = []) ∧
      (atom ≠ "" → ∀ missing, missing ∈ candidates ↔ missing ≠ "" ∧
        ((∃ g ∈ s.chain f, (s.bindingsOf g).binds (atom ++ missing) = true) ∨
          atom ++ missing ∈ reservedNames)) ∧
      candidates.Pairwise fun a b => utf8Bytes a < utf8Bytes b := by
  intro atom
  have htake : takeBytes before.utf8ByteSize (before ++ after).toList = before.toList := by
    rw [String.toList_append, Text.utf8ByteSize_eq, Text.takeBytes_append]
  have hatom : atom = "" ↔ before.toList.rtakeWhile isAtomChar = [] := by
    rw [← String.toList_inj, String.toList_ofList]
    rfl
  have hcandidates : Completion.candidates s f (before ++ after) before.utf8ByteSize =
      if atom = "" then []
      else Text.sortNames ((s.visibleNames f ++ reservedNames).filterMap
        (Completion.suffix? (before.toList.rtakeWhile isAtomChar))) := by
    unfold Completion.candidates
    rw [htake, Completion.atomBefore?_eq]
    by_cases hempty : before.toList.rtakeWhile isAtomChar = []
    · rw [if_pos hempty, if_pos (hatom.mpr hempty)]
    · rw [if_neg hempty, if_neg (hatom.not.mpr hempty)]
  refine ⟨_, congrArg (Prod.mk _) hcandidates, ?_, ?_, ?_⟩
  · exact fun hempty => if_pos hempty
  · intro hne missing
    rw [if_neg hne, Completion.mem_candidates_iff, List.mem_append, Store.mem_visibleNames]
  · split
    · exact .nil
    · exact (Text.pairwise_sortNames _).imp Text.utf8Bytes_lt

end LexicalLisp
