import LexicalLisp.Prompt.Dialogue
import LexicalLisp.Proofs.Reading.Pairing
import LexicalLisp.Proofs.Text.Piece

/-!
# Gathering lines

A text whose parentheses are all paired is gathered part by part. Each part goes on to the first
end of a line at which every parenthesis is closed, so the parts together make up the text, and
the parts end at all such ends of lines and nowhere else.
-/

namespace LexicalLisp

namespace Verdict

variable {depth position : Nat} {c : Char} {cs : List Char}

theorem scan_opening : scan depth position ('(' :: cs) = scan (depth + 1) (position + 1) cs := by
  simp [scan]

theorem scan_closing : scan (depth + 1) position (')' :: cs) = scan depth (position + 1) cs := by
  simp [scan]

theorem scan_other (hopen : c ≠ '(') (hclose : c ≠ ')') :
    scan depth position (c :: cs) = scan depth (position + 1) cs := by
  simp [scan, hopen, hclose]

end Verdict

namespace Text

section Lines

variable {cs ds : List Char}

theorem not_endsLine_nil : ¬EndsLine [] := by
  rintro ⟨ds, hds⟩
  simp at hds

theorem EndsLine.append (h : EndsLine ds) (cs : List Char) : EndsLine (cs ++ ds) := by
  obtain ⟨es, rfl⟩ := h
  exact ⟨cs ++ es, (List.append_assoc ..).symm⟩

theorem endsLine_append_iff (hne : ds ≠ []) : EndsLine (cs ++ ds) ↔ EndsLine ds := by
  constructor
  · rintro ⟨es, hes⟩
    obtain ⟨last, c, rfl⟩ : ∃ last c, ds = last ++ [c] :=
      ⟨_, _, (List.dropLast_concat_getLast hne).symm⟩
    rw [← List.append_assoc] at hes
    obtain ⟨-, hc⟩ := List.append_inj' hes rfl
    exact ⟨last, by rw [hc]⟩
  · exact fun h => h.append cs

theorem endsLine_splitPiece (cs : List Char) :
    EndsLine (splitPiece cs).1 ∨ (splitPiece cs).2 = [] := by
  induction cs with
  | nil => exact .inr rfl
  | cons c cs ih =>
    by_cases hc : c = '\n'
    · subst hc
      exact .inl ⟨[], rfl⟩
    · rw [splitPiece_of_ne hc]
      exact ih.imp_left fun h => h.append [c]

theorem not_endsLine_of_splitPiece {upper lower : List Char} (hne : lower ≠ [])
    (h : (splitPiece cs).1 = upper ++ lower) : ¬EndsLine upper := by
  rintro ⟨ds, rfl⟩
  cases cs with
  | nil => simp [splitPiece] at h
  | cons c cs =>
    have hpiece : (splitPiece (c :: cs)).1 ∈ pieces (c :: cs) := by simp [pieces_cons]
    apply lineFeed_not_mem_dropLast (c :: cs) _ hpiece
    rw [h, List.dropLast_append_of_ne_nil hne]
    simp

theorem dropLineBreak_cases (cs : List Char) :
    dropLineBreak cs = cs ∧ ¬EndsLine cs ∨ cs = dropLineBreak cs ++ ['\n'] ∨
      cs = dropLineBreak cs ++ ['\r', '\n'] := by
  fun_induction dropLineBreak cs with
  | case1 => exact .inl ⟨rfl, not_endsLine_nil⟩
  | case2 => exact .inr (.inl rfl)
  | case3 => exact .inr (.inr rfl)
  | case4 c cs hfeed _ ih =>
    rcases ih with ⟨hsame, hends⟩ | hcs | hcs
    · refine .inl ⟨by rw [hsame], fun hline => ?_⟩
      by_cases hnil : cs = []
      · obtain ⟨ds, hds⟩ := hline
        have hc : some c = some '\n' := by simpa [hnil] using congrArg List.getLast? hds
        exact hfeed (Option.some.inj hc) hnil
      · have hcons : EndsLine ([c] ++ cs) := hline
        exact hends ((endsLine_append_iff hnil).mp hcons)
    · exact .inr (.inl (congrArg (c :: ·) hcs))
    · exact .inr (.inr (congrArg (c :: ·) hcs))

end Lines

section Pairs

variable {cs ds : List Char}

theorem paired_dropLineBreak (h : Paired cs) : Paired (dropLineBreak cs) := by
  obtain ⟨bs, hcs, hblank⟩ := exists_dropLineBreak cs
  rw [hcs] at h
  exact (Paired.of_blanks fun c hc => isBlank_of_isTokenBlank (hblank c hc)).of_append_right h

theorem Paired.of_dropLineBreak (h : Paired (dropLineBreak cs)) : Paired cs := by
  obtain ⟨bs, hcs, hblank⟩ := exists_dropLineBreak cs
  rw [hcs]
  exact h.append (Paired.of_blanks fun c hc => isBlank_of_isTokenBlank (hblank c hc))

/-- The verdict passes over paired characters. -/
theorem Paired.scan_append (h : Paired cs) (depth position : Nat) (ds : List Char) :
    Verdict.scan depth position (cs ++ ds) = Verdict.scan depth (position + cs.length) ds := by
  induction h generalizing depth position ds with
  | nil => rfl
  | other hopen hclose _ ih =>
    rw [List.cons_append, Verdict.scan_other hopen hclose, ih, List.length_cons]
    congr 1
    omega
  | @pair inside rest _ _ ihinside ihrest =>
    have hlength : position + ('(' :: (inside ++ ')' :: rest)).length =
        position + 1 + inside.length + 1 + rest.length := by
      simp only [List.length_cons, List.length_append]
      omega
    rw [List.cons_append, List.append_assoc, Verdict.scan_opening, ihinside, List.cons_append,
      Verdict.scan_closing, ihrest, hlength]

theorem Opens.scan_append {opened : List (List Char)} (h : Opens opened cs) (ds : List Char) :
    Verdict.scan 0 0 (cs ++ ds) = Verdict.scan opened.length cs.length ds := by
  induction h generalizing ds with
  | none hcs => rw [hcs.scan_append, Nat.zero_add, List.length_nil]
  | @within outer inside opened _ hinside ih =>
    have hlength : (outer ++ '(' :: inside).length = outer.length + 1 + inside.length := by
      simp only [List.length_cons, List.length_append]
      omega
    rw [List.append_assoc, List.cons_append, ih, Verdict.scan_opening, hinside.scan_append,
      hlength, List.length_cons]

theorem Paired.verdict (h : Paired cs) : Verdict.scan 0 0 cs = .valid := by
  have hscan := h.scan_append 0 0 []
  rwa [List.append_nil] at hscan

theorem NoStray.verdict (h : NoStray cs) (hpaired : ¬Paired cs) :
    Verdict.scan 0 0 cs = .incomplete := by
  obtain ⟨opened, hopened⟩ := exists_opens_of_noStray h
  have hscan := hopened.scan_append []
  rw [List.append_nil] at hscan
  rw [hscan]
  cases hopened with
  | none hcs => exact absurd hcs hpaired
  | within _ _ => rfl

theorem Paired.verdict_dropLineBreak (h : Paired cs) :
    Verdict.scan 0 0 (dropLineBreak cs) = .valid := (paired_dropLineBreak h).verdict

theorem NoStray.verdict_dropLineBreak (h : NoStray cs) (hpaired : ¬Paired cs) :
    Verdict.scan 0 0 (dropLineBreak cs) = .incomplete := by
  obtain ⟨bs, hcs, -⟩ := exists_dropLineBreak cs
  have hstray : NoStray (dropLineBreak cs ++ bs) := hcs ▸ h
  exact hstray.of_append.verdict fun hdrop => hpaired hdrop.of_dropLineBreak

end Pairs

end Text

open Text

/-- What is gathered before some rest: the shortest beginning of a text that ends a line, or the
whole text, with all parentheses paired. -/
structure IsEntry (chunk rest : List Char) : Prop where
  ne_nil : chunk ≠ []
  paired : Paired chunk
  ends : EndsLine chunk ∨ rest = []
  first : ∀ upper lower, chunk = upper ++ lower → lower ≠ [] → EndsLine upper → ¬Paired upper

namespace Entry

theorem not_paired_before {pending cs upper lower : List Char}
    (hopen : ∀ upper lower, pending = upper ++ lower → EndsLine upper → ¬Paired upper)
    (h : pending ++ (splitPiece cs).1 = upper ++ lower) (hne : lower ≠ [])
    (hends : EndsLine upper) : ¬Paired upper := by
  rcases List.append_eq_append_iff.mp h with ⟨within, rfl, hpiece⟩ | ⟨later, hpending, _⟩
  · by_cases hnil : within = []
    · exact hopen _ [] (by simp [hnil]) hends
    · exact absurd ((endsLine_append_iff hnil).mp hends) (not_endsLine_of_splitPiece hne hpiece)
  · exact hopen upper later hpending hends

/-- After lines at whose ends some parenthesis was open, one gathers up to the first end of a line
at which none is. -/
theorem gather_eq {pending text : List Char} (htext : text ≠ [])
    (hpaired : Paired (pending ++ text))
    (hopen : ∀ upper lower, pending = upper ++ lower → EndsLine upper → ¬Paired upper) :
    ∃ taken rest, text = taken ++ rest ∧ IsEntry (pending ++ taken) rest ∧
      gather pending text =
        ⟨"", some (String.ofList (dropLineBreak (pending ++ taken))), rest⟩ := by
  fun_induction gather pending text with
  | case1 pending => exact absurd rfl htext
  | case2 pending c cs piece rest body hvalid =>
    have hsplit : piece ++ rest = c :: cs := splitPiece_append (c :: cs)
    have hstray : NoStray (pending ++ piece) := by
      rw [← hsplit, ← List.append_assoc] at hpaired
      exact hpaired.noStray.of_append
    refine ⟨piece, rest, hsplit.symm, ⟨?_, ?_, ?_, ?_⟩, rfl⟩
    · exact List.append_ne_nil_of_right_ne_nil pending (splitPiece_ne_nil c cs)
    · refine Classical.byContradiction fun hnot => ?_
      rw [hstray.verdict_dropLineBreak hnot] at hvalid
      cases hvalid
    · exact (endsLine_splitPiece (c :: cs)).imp_left fun h => h.append pending
    · exact fun upper lower => not_paired_before hopen
  | case3 pending c cs piece rest body hincomplete ih =>
    have hsplit : piece ++ rest = c :: cs := splitPiece_append (c :: cs)
    rw [← hsplit, ← List.append_assoc] at hpaired
    have hnot : ¬Paired (pending ++ piece) := by
      intro h
      rw [h.verdict_dropLineBreak] at hincomplete
      cases hincomplete
    have hrest : rest ≠ [] := by
      intro hnil
      rw [hnil, List.append_nil] at hpaired
      exact hnot hpaired
    have hopen' : ∀ upper lower, pending ++ piece = upper ++ lower → EndsLine upper →
        ¬Paired upper := by
      intro upper lower hupper hends
      by_cases hnil : lower = []
      · rw [hnil, List.append_nil] at hupper
        exact hupper ▸ hnot
      · exact not_paired_before hopen hupper hnil hends
    obtain ⟨taken, rest', hrest', hentry, heq⟩ := ih hrest hpaired hopen'
    rw [List.append_assoc] at hentry heq
    exact ⟨piece ++ taken, rest', by rw [← hsplit, hrest', List.append_assoc], hentry, heq⟩
  | case4 pending c cs piece rest body position hinvalid entry ih =>
    have hsplit : piece ++ rest = c :: cs := splitPiece_append (c :: cs)
    rw [← hsplit, ← List.append_assoc] at hpaired
    have hvalid_or : Verdict.scan 0 0 body = .valid ∨ Verdict.scan 0 0 body = .incomplete := by
      by_cases h : Paired (pending ++ piece)
      · exact .inl h.verdict_dropLineBreak
      · exact .inr (hpaired.noStray.of_append.verdict_dropLineBreak h)
    simp [hinvalid] at hvalid_or

end Entry

/-- A text that is submitted, and the line break after it. -/
structure Submission where
  line : String
  lineBreak : String

def Submission.chars (s : Submission) : List Char := s.line.toList ++ s.lineBreak.toList

/-- A stream falls into the given submissions: each is what is gathered from the rest of it. -/
inductive Gathers : List Char → List Submission → Prop
  | nil : Gathers [] []
  | cons {part : Submission} {rest : List Char} {parts : List Submission}
      (hgather : Entry.gather [] (part.chars ++ rest) = ⟨"", some part.line, rest⟩)
      (hentry : IsEntry part.chars rest)
      (hline : part.line = String.ofList (dropLineBreak part.chars))
      (hbreak : part.lineBreak = "\n" ∨ part.lineBreak = "\r\n" ∨ part.lineBreak = "" ∧ rest = [])
      (hrest : Gathers rest parts) : Gathers (part.chars ++ rest) (part :: parts)

namespace Gathers

variable {text : List Char} {parts : List Submission}

theorem exists_submission (chunk : List Char) : ∃ part : Submission,
    part.chars = chunk ∧ part.line = String.ofList (dropLineBreak chunk) ∧
      (part.lineBreak = "\n" ∨ part.lineBreak = "\r\n" ∨
        part.lineBreak = "" ∧ ¬EndsLine chunk) := by
  rcases dropLineBreak_cases chunk with ⟨hsame, hends⟩ | hchunk | hchunk
  · refine ⟨⟨String.ofList (dropLineBreak chunk), ""⟩, ?_, rfl, .inr (.inr ⟨rfl, hends⟩)⟩
    rw [Submission.chars, String.toList_ofList, hsame]
    exact List.append_nil chunk
  · refine ⟨⟨String.ofList (dropLineBreak chunk), "\n"⟩, ?_, rfl, .inl rfl⟩
    rw [Submission.chars, String.toList_ofList]
    simpa using hchunk.symm
  · refine ⟨⟨String.ofList (dropLineBreak chunk), "\r\n"⟩, ?_, rfl, .inr (.inl rfl)⟩
    rw [Submission.chars, String.toList_ofList]
    simpa using hchunk.symm

/-- A text with paired parentheses falls into submissions to its end. -/
theorem exists_of_paired (text : List Char) (h : Paired text) : ∃ parts, Gathers text parts := by
  by_cases htext : text = []
  · exact ⟨[], htext ▸ .nil⟩
  · have hopen : ∀ upper lower : List Char,
        [] = upper ++ lower → EndsLine upper → ¬Paired upper := by
      intro upper lower hnil hends
      rw [(List.append_eq_nil_iff.mp hnil.symm).1] at hends
      exact absurd hends not_endsLine_nil
    obtain ⟨chunk, rest, rfl, hentry, hgather⟩ :=
      Entry.gather_eq htext (show Paired ([] ++ text) from h) hopen
    have hshorter : rest.length < (chunk ++ rest).length := by
      have hlength := List.length_pos_iff.mpr hentry.ne_nil
      simp only [List.nil_append, List.length_append] at hlength ⊢
      omega
    obtain ⟨parts, hparts⟩ := exists_of_paired rest (hentry.paired.of_append h)
    obtain ⟨part, rfl, hline, hbreak⟩ := exists_submission chunk
    rw [List.nil_append, ← hline] at hgather
    refine ⟨part :: parts, .cons hgather hentry hline ?_ hparts⟩
    exact hbreak.imp_right (Or.imp_right fun hlast => ⟨hlast.1, hentry.ends.resolve_left hlast.2⟩)
termination_by text.length

theorem eq_flatMap (h : Gathers text parts) : text = parts.flatMap Submission.chars := by
  induction h with
  | nil => rfl
  | cons _ _ _ _ _ ih => rw [List.flatMap_cons, ← ih]

theorem exists_rest (h : Gathers text parts) {part : Submission} (hpart : part ∈ parts) :
    ∃ rest, IsEntry part.chars rest ∧ part.line = String.ofList (dropLineBreak part.chars) ∧
      (part.lineBreak = "\n" ∨ part.lineBreak = "\r\n" ∨ part.lineBreak = "" ∧ rest = []) := by
  induction h with
  | nil => exact absurd hpart List.not_mem_nil
  | cons _ hentry hline hbreak _ ih =>
    rcases List.mem_cons.mp hpart with rfl | hlater
    · exact ⟨_, hentry, hline, hbreak⟩
    · exact ih hlater

theorem chars_ne_nil (h : Gathers text parts) : ∀ part ∈ parts, part.chars ≠ [] := by
  intro part hpart
  obtain ⟨rest, hentry, -, -⟩ := h.exists_rest hpart
  exact hentry.ne_nil

theorem line_eq (h : Gathers text parts) :
    ∀ part ∈ parts, part.line = String.ofList (dropLineBreak part.chars) := by
  intro part hpart
  obtain ⟨rest, -, hline, -⟩ := h.exists_rest hpart
  exact hline

theorem lineBreak_cases (h : Gathers text parts) : ∀ part ∈ parts,
    part.lineBreak = "\n" ∨ part.lineBreak = "\r\n" ∨ part.lineBreak = "" := by
  intro part hpart
  obtain ⟨rest, -, -, hbreak⟩ := h.exists_rest hpart
  exact hbreak.imp_right (Or.imp_right And.left)

theorem line_paired (h : Gathers text parts) : ∀ part ∈ parts, Paired part.line.toList := by
  intro part hpart
  obtain ⟨rest, hentry, hline, -⟩ := h.exists_rest hpart
  rw [hline, String.toList_ofList]
  exact paired_dropLineBreak hentry.paired

theorem lineBreak_ne (h : Gathers text parts) : ∀ part ∈ parts.dropLast, part.lineBreak ≠ "" := by
  induction h with
  | nil => exact nofun
  | @cons part rest parts _ _ _ hbreak hrest ih =>
    cases parts with
    | nil => exact nofun
    | cons next later =>
      rw [List.dropLast_cons_cons]
      refine List.forall_mem_cons.mpr ⟨fun hempty => ?_, ih⟩
      rcases hbreak with hbreak | hbreak | ⟨-, hnil⟩
      · simp [hbreak] at hempty
      · simp [hbreak] at hempty
      · cases hrest with
        | cons _ hentry _ _ _ => exact hentry.ne_nil (List.append_eq_nil_iff.mp hnil).1

/-- The stream is cut at the ends of lines at which all parentheses are closed. -/
theorem boundary_iff (h : Gathers text parts) {upper lower : List Char}
    (htext : text = upper ++ lower) (hne : upper ≠ []) :
    (∃ n, upper = (parts.take n).flatMap Submission.chars) ↔
      (EndsLine upper ∨ lower = []) ∧ Paired upper := by
  induction h generalizing upper lower with
  | nil => exact absurd (List.append_eq_nil_iff.mp htext.symm).1 hne
  | @cons part rest parts _ hentry _ _ _ ih =>
    have hwhole : upper = part.chars → rest = lower →
        ((∃ n, upper = ((part :: parts).take n).flatMap Submission.chars) ↔
          (EndsLine upper ∨ lower = []) ∧ Paired upper) := by
      rintro rfl rfl
      exact iff_of_true ⟨1, by simp⟩ ⟨hentry.ends, hentry.paired⟩
    rcases List.append_eq_append_iff.mp htext with ⟨later, rfl, hrest⟩ | ⟨left, hpart, hlower⟩
    · by_cases hnil : later = []
      · exact hwhole (by simp [hnil]) (by simpa [hnil] using hrest)
      · have hpaired : Paired (part.chars ++ later) ↔ Paired later :=
          ⟨hentry.paired.of_append, hentry.paired.append⟩
        rw [endsLine_append_iff hnil, hpaired, ← ih hrest hnil]
        constructor
        · rintro ⟨n, hn⟩
          cases n with
          | zero => exact absurd (List.append_eq_nil_iff.mp hn).2 hnil
          | succ n => exact ⟨n, List.append_cancel_left hn⟩
        · rintro ⟨n, rfl⟩
          exact ⟨n + 1, rfl⟩
    · by_cases hnil : left = []
      · exact hwhole (by simpa [hnil] using hpart.symm) (by simpa [hnil] using hlower.symm)
      · refine iff_of_false ?_ ?_
        · rintro ⟨n, hn⟩
          cases n with
          | zero => exact hne hn
          | succ n =>
            have hlength := congrArg List.length hn
            have hleft := List.length_pos_iff.mpr hnil
            simp only [List.take_succ_cons, List.flatMap_cons, hpart, List.length_append] at hlength
            omega
        · rintro ⟨hends | hlast, hpaired⟩
          · exact hentry.first upper left hpart hnil hends hpaired
          · rw [hlower] at hlast
            exact hnil (List.append_eq_nil_iff.mp hlast).1

end Gathers

end LexicalLisp
