import LexicalLisp.Proofs.Evaluation.Interaction

/-!
# A refused write ends the run

A terminal that has room for so many texts, and refuses to write any more, is compared with one
that has room for all. If a run writes no more than there is room for, it does the same on both,
and leaves as much less room as it has written. Otherwise it ends with the refusal: the texts
before are written, and after it nothing is written or read.
-/

namespace LexicalLisp

namespace Terminal

/-- A run that began with the terminal `t` has written these texts and was then refused once.
Without the refusal it would have left the terminal `final`. -/
structure CutOff (t : Terminal) (texts : List String) (final cut : Terminal) : Prop where
  writes_eq : cut.writes.toList = t.writes.toList ++ texts
  refusedWrites_eq : cut.refusedWrites = t.refusedWrites + 1
  input_suffix : final.input.IsSuffix cut.input

namespace CutOff

variable {t final cut : Terminal} {texts : List String}

theorem of_record {text : String} (h : (t.record text).CutOff texts final cut) :
    t.CutOff (text :: texts) final cut where
  writes_eq := by
    rw [h.writes_eq, toList_writes_record, List.append_assoc]
    rfl
  refusedWrites_eq := h.refusedWrites_eq
  input_suffix := h.input_suffix

theorem of_readLine (h : t.readLine.2.CutOff texts final cut) : t.CutOff texts final cut := by
  obtain ⟨input, -, heq⟩ := t.exists_readLine_eq
  rw [heq] at h
  exact ⟨h.writes_eq, h.refusedWrites_eq, h.input_suffix⟩

end CutOff

end Terminal

open Terminal

namespace Interaction

variable {α : Type}

/-- With room enough for all texts, the interaction goes as it does with unlimited room. -/
theorem on_of_room (i : Interaction α) (t : Terminal) {n : Nat}
    (h : (Exchange.texts (i.transcript (t.withRoom none))).length ≤ n) :
    i.on (t.withRoom (some n)) = (i.on (t.withRoom none)).mapTerminal
      (withRoom (some (n - (Exchange.texts (i.transcript (t.withRoom none))).length))) := by
  induction i generalizing t n with
  | result a s => rfl
  | error e own s => rfl
  | outOfFuel => rfl
  | write text s next ih =>
    simp only [transcript, write_withRoom_none, Exchange.texts_wrote, List.length_cons] at h ⊢
    obtain ⟨n, rfl⟩ : ∃ k, n = k + 1 := ⟨n - 1, by omega⟩
    simp only [on, write_withRoom_none, write_withRoom_succ, Nat.add_sub_add_right]
    exact ih (t.record text) (by omega)
  | readLine s next ih =>
    simp only [on, transcript, readLine_withRoom] at h ⊢
    rcases hread : t.readLine with ⟨r | _ | line, t'⟩
    · rfl
    · rfl
    · rw [hread] at h
      exact ih line t' h

/-- With room for fewer texts, the interaction ends with the first that there is no room for. -/
theorem on_of_no_room (i : Interaction α) (t : Terminal) {n : Nat}
    (h : n < (Exchange.texts (i.transcript (t.withRoom none))).length) :
    ∃ m, i.on (t.withRoom (some n)) = .error (.refused .write) m ∧
      (i.on (t.withRoom none)).Leaves fun m' =>
        t.CutOff ((Exchange.texts (i.transcript (t.withRoom none))).take n) m'.terminal
          m.terminal := by
  induction i generalizing t n with
  | result a s => cases h
  | error e own s => cases h
  | outOfFuel => cases h
  | write text s next ih =>
    cases n with
    | zero =>
      have hleads := (write text s next).on_leads (t.withRoom none)
      simp only [on, write_withRoom_zero]
      refine ⟨_, rfl, hleads.imp fun m' hm' => ⟨?_, rfl, hm'.continues.input⟩⟩
      simp [withRoom]
    | succ n =>
      simp only [transcript, write_withRoom_none, Exchange.texts_wrote, List.length_cons] at h ⊢
      obtain ⟨m, hm, hcut⟩ := ih (t.record text) (Nat.lt_of_succ_lt_succ h)
      simp only [on, write_withRoom_none, write_withRoom_succ, List.take_succ_cons]
      exact ⟨m, hm, hcut.imp fun m' => CutOff.of_record⟩
  | readLine s next ih =>
    simp only [on, transcript, readLine_withRoom] at h ⊢
    rcases hread : t.readLine with ⟨r | _ | line, t'⟩
    · rw [hread] at h
      cases h
    · rw [hread] at h
      cases h
    · rw [hread] at h
      obtain ⟨m, hm, hcut⟩ := ih line t' h
      refine ⟨m, hm, hcut.imp fun m' hm' => CutOff.of_readLine ?_⟩
      rwa [hread]

theorem not_refused (i : Interaction α) {t : Terminal} (ht : t.NeverRefuses) (r : Refusal) :
    (i.on t).error? ≠ some (.refused r) := by
  induction i generalizing t with
  | result a s => rintro ⟨⟩
  | error e own s =>
    rintro ⟨⟩
    exact own trivial
  | outOfFuel => rintro ⟨⟩
  | write text s next ih =>
    obtain ⟨hwrite, -⟩ := ht t .refl
    simp only [on]
    rcases h : t.write text with ⟨r' | _, t'⟩
    · exact absurd (congrArg Prod.fst h) (hwrite text r')
    · exact ih fun t'' ht'' => ht t'' (Leads.write h ht'')
  | readLine s next ih =>
    obtain ⟨-, hread⟩ := ht t .refl
    simp only [on]
    rcases h : t.readLine with ⟨r' | _ | line, t'⟩
    · exact absurd (congrArg Prod.fst h) (hread r')
    · rintro ⟨⟩
    · exact ih line fun t'' ht'' => ht t'' (Leads.readLine h ht'')

end Interaction

namespace Session

/-- A program that ends on a terminal with unlimited room, having written some texts, is run on
the same terminal with room for `n` texts. If that is enough, it ends with the same outcome, the
same store and the same terminal, up to the room that is left. If not, it ends with the refusal
of the text for which there was no room: what was written before it is all that is written, no
other write is refused, and no more of the input is taken than with unlimited room. On a terminal
that never refuses anything no program ends with a refusal. -/
theorem refused_write_ends_run (depth : Nat) (program : List Expr) (f : FrameId) (s : Store)
    (t : Terminal) :
    ((run depth program f ⟨s, t.withRoom none⟩).Leaves fun m => ∃ texts,
      m.terminal.writes.toList = t.writes.toList ++ texts ∧
      ∀ n,
        (texts.length ≤ n → run depth program f ⟨s, t.withRoom (some n)⟩ =
          (run depth program f ⟨s, t.withRoom none⟩).mapTerminal
            (withRoom (some (n - texts.length)))) ∧
        (n < texts.length → ∃ m',
          run depth program f ⟨s, t.withRoom (some n)⟩ = .error (.refused .write) m' ∧
          m'.terminal.output = t.output ++ String.join (texts.take n) ∧
          t.CutOff (texts.take n) m.terminal m'.terminal)) ∧
    (t.NeverRefuses → ∀ r, (run depth program f ⟨s, t⟩).error? ≠ some (.refused r)) := by
  obtain ⟨i, hi⟩ := run_interacts depth program f s
  simp only [hi _]
  refine ⟨?_, fun ht r => i.not_refused ht r⟩
  let texts := Exchange.texts (i.transcript (t.withRoom none))
  have hcut : ∀ n, (i.on (t.withRoom none)).Leaves fun m => n < texts.length → ∃ m',
      i.on (t.withRoom (some n)) = .error (.refused .write) m' ∧
      m'.terminal.output = t.output ++ String.join (texts.take n) ∧
      t.CutOff (texts.take n) m.terminal m'.terminal := by
    intro n
    by_cases hn : n < texts.length
    · obtain ⟨m', hm', hcut⟩ := i.on_of_no_room t hn
      exact hcut.imp fun m hm _ => ⟨m', hm', output_of_writes hm.writes_eq, hm⟩
    · exact (i.on_leads _).imp fun m _ h => absurd h hn
  refine ((i.on_writes (t.withRoom none)).and (.all hcut)).imp fun m hm => ?_
  exact ⟨texts, hm.1, fun n => ⟨i.on_of_room t, hm.2 n⟩⟩

/-- Both operands of the sum write, but there is room for the first text only. -/
theorem second_display_is_refused :
    let program : List Expr := [.list [.symbol "+",
      .list [.symbol "begin", .list [.symbol "display", .integer 1], .integer 2],
      .list [.symbol "begin", .list [.symbol "display", .integer 3], .integer 4]]]
    let t := Terminal.ofLines []
    (∃ m, run 4 program 0 ⟨(start t).store, t.withRoom (some 1)⟩ = .error (.refused .write) m ∧
      m.terminal.output = "1" ∧ m.terminal.refusedWrites = 1) ∧
    ∀ r, (run 4 program 0 ⟨(start t).store, t⟩).error? ≠ some (.refused r) := by
  intro program t
  obtain ⟨v, m, hrun, -⟩ := Outcome.exists_of_value?
    (show (run 4 program 0 ⟨(start t).store, t.withRoom none⟩).value?.map Value.text = some "6" by
      decide +kernel)
  have hwrites : (run 4 program 0 ⟨(start t).store, t.withRoom none⟩).Leaves
      fun m => m.terminal.writes.toList = ["1", "3"] := by decide +kernel
  obtain ⟨hends, hnever⟩ := refused_write_ends_run 4 program 0 (start t).store t
  rw [hrun] at hwrites hends
  obtain ⟨texts, htexts, hroom⟩ := hends
  obtain rfl : texts = ["1", "3"] := htexts.symm.trans hwrites
  obtain ⟨m', hm', houtput, hcut⟩ := (hroom 1).2 (by decide)
  have hwilling : t.Willing := ⟨rfl, rfl, nofun⟩
  exact ⟨⟨m', hm', houtput, hcut.refusedWrites_eq⟩, hnever hwilling.neverRefuses⟩

end Session
end LexicalLisp
