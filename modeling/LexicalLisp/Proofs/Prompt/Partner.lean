import LexicalLisp.Proofs.Reading.Pairing

/-!
# Partners found with a stack

Going through characters from the left one keeps the parentheses that are open, the innermost on
top. A closing parenthesis is the partner of the one on top, which is then taken off; if none is
open it is stray, and one goes on as if it were not there. The partners that are found in this way
are those between which every parenthesis has its partner, and the stray ones are those at which
none is open.
-/

namespace LexicalLisp.Text

section Open

variable {cs ds : List Char}

theorem HasOpen.of_append (h : HasOpen (cs ++ ds)) (hds : Paired ds) : HasOpen cs := by
  obtain ⟨outer, inside, heq, hinside⟩ := h
  rcases List.append_eq_append_iff.mp heq with ⟨between, _, hds'⟩ | ⟨between, rfl, hparen⟩
  · exact absurd (hds.isClosed hds') hinside.not_isClosed
  · cases between with
    | nil =>
      have hds' : ds = [] ++ '(' :: inside := hparen.symm
      exact absurd (hds.isClosed hds') hinside.not_isClosed
    | cons c between =>
      obtain ⟨rfl, rfl⟩ := List.cons_eq_cons.mp hparen
      exact ⟨outer, between, rfl, hds.of_append_right hinside⟩

/-- The innermost parenthesis that is open is the only one with paired characters after it. -/
theorem opening_unique {outer inside outer' inside' : List Char}
    (h : outer ++ '(' :: inside = outer' ++ '(' :: inside') (hinside : Paired inside)
    (hinside' : Paired inside') : outer = outer' := by
  rcases append_cons_eq_append_cons h with ⟨between, _, hin⟩ | ⟨heq, _, _⟩ | ⟨between, _, hin⟩
  · exact absurd (hinside'.isClosed hin) hinside.not_isClosed
  · exact heq
  · exact absurd (hinside.isClosed hin) hinside'.not_isClosed

theorem closing_unique {inside after inside' after' : List Char}
    (h : inside ++ ')' :: after = inside' ++ ')' :: after') (hinside : Paired inside)
    (hinside' : Paired inside') : inside = inside' := by
  rcases append_cons_eq_append_cons h with ⟨between, hin, _⟩ | ⟨heq, _, _⟩ | ⟨between, hin, _⟩
  · exact absurd ⟨_, _, hin, hinside'⟩ hinside.not_isClosed
  · exact heq
  · exact absurd ⟨_, _, hin, hinside⟩ hinside'.not_isClosed

end Open

theorem paren_cases (c : Char) : c = '(' ∨ c = ')' ∨ c ≠ '(' ∧ c ≠ ')' := by
  by_cases hopen : c = '('
  · exact .inl hopen
  · by_cases hclose : c = ')'
    · exact .inr (.inl hclose)
    · exact .inr (.inr ⟨hopen, hclose⟩)

/-- What a stack finds out about the parentheses among some characters. Each of them is given by
the characters before it. -/
structure Matching where
  /-- The stack: the opening parentheses that are open at the end, the innermost first. -/
  opened : List (List Char)
  /-- The opening and the closing parenthesis of every pair. -/
  pairs : List (List Char × List Char)
  /-- The closing parentheses at which the stack was empty. -/
  stray : List (List Char)

namespace Matching

def empty : Matching := ⟨[], [], []⟩

/-- One more character, behind those that have been gone through. -/
def step (m : Matching) (before : List Char) (c : Char) : Matching :=
  if c = '(' then { m with opened := before :: m.opened }
  else if c = ')' then
    match m.opened with
    | [] => { m with stray := before :: m.stray }
    | opening :: outer => { m with opened := outer, pairs := (opening, before) :: m.pairs }
  else m

def scan (m : Matching) (before : List Char) : List Char → Matching
  | [] => m
  | c :: cs => (m.step before c).scan (before ++ [c]) cs

def of (cs : List Char) : Matching := empty.scan [] cs

section Step

variable {m : Matching} {before cs : List Char} {c : Char}

theorem step_opening : m.step before '(' = { m with opened := before :: m.opened } := rfl

theorem step_stray (h : m.opened = []) :
    m.step before ')' = { m with stray := before :: m.stray } := by
  simp [step, h]

theorem step_closing {opening : List Char} {outer : List (List Char)}
    (h : m.opened = opening :: outer) :
    m.step before ')' = { m with opened := outer, pairs := (opening, before) :: m.pairs } := by
  simp [step, h]

theorem step_other (hopen : c ≠ '(') (hclose : c ≠ ')') : m.step before c = m := by
  simp [step, hopen, hclose]

theorem scan_append (m : Matching) (before cs ds : List Char) :
    m.scan before (cs ++ ds) = (m.scan before cs).scan (before ++ cs) ds := by
  induction cs generalizing m before with
  | nil => simp [scan]
  | cons c cs ih => simp [scan, ih]

theorem of_concat (cs : List Char) (c : Char) : of (cs ++ [c]) = (of cs).step cs c := by
  unfold of
  rw [scan_append]
  rfl

end Step

/-- The stack holds the parentheses that are open, the innermost first, and below the lowest of
them none is open. -/
inductive Nested : List (List Char) → List Char → Prop
  | none {cs : List Char} (hcs : ¬HasOpen cs) : Nested [] cs
  | within {outer inside : List Char} {opened : List (List Char)} (houter : Nested opened outer)
      (hinside : Paired inside) : Nested (outer :: opened) (outer ++ '(' :: inside)

namespace Nested

variable {opened : List (List Char)} {cs ds : List Char}

theorem append_paired (h : Nested opened cs) (hds : Paired ds) : Nested opened (cs ++ ds) := by
  cases h with
  | none hcs => exact .none fun hopen => hcs (hopen.of_append hds)
  | within houter hinside =>
    rw [List.append_assoc, List.cons_append]
    exact .within houter (hinside.append hds)

theorem append_stray (h : Nested [] cs) : Nested [] (cs ++ [')']) := by
  cases h with
  | none hcs =>
    refine .none ?_
    rintro ⟨outer, inside, heq, hinside⟩
    rcases append_cons_eq_append_cons heq with ⟨between, rfl, hin⟩ | ⟨_, hne, _⟩ | ⟨_, _, hin⟩
    · apply hcs
      simpa using (hinside.noStray between [] hin).append_left (outer ++ ['('])
    · exact absurd hne (by decide)
    · simp at hin

theorem length_lt (h : Nested opened cs) : ∀ before ∈ opened, before.length < cs.length := by
  induction h with
  | none _ => exact nofun
  | within _ _ ih =>
    refine List.forall_mem_cons.mpr ⟨by simp, fun before hbefore => ?_⟩
    have hlt := ih before hbefore
    simp only [List.length_append, List.length_cons]
    omega

theorem not_hasOpen (h : Nested [] cs) : ¬HasOpen cs := by
  cases h with
  | none hcs => exact hcs

end Nested

variable {cs : List Char}

theorem nested (cs : List Char) : Nested (of cs).opened cs := by
  induction cs using List.reverseRecOn with
  | nil => exact .none Paired.nil.not_hasOpen
  | append_singleton cs c ih =>
    rw [of_concat]
    rcases paren_cases c with rfl | rfl | ⟨hopen, hclose⟩
    · rw [step_opening]
      exact .within ih .nil
    · cases hstack : (of cs).opened with
      | nil =>
        rw [hstack] at ih
        rw [step_stray hstack]
        simpa [hstack] using ih.append_stray
      | cons opening outer =>
        rw [hstack] at ih
        rw [step_closing hstack]
        cases ih with
        | within houter hinside =>
          rw [List.append_assoc, List.cons_append]
          exact houter.append_paired (.pair hinside .nil)
    · rw [step_other hopen hclose]
      exact ih.append_paired (.other hopen hclose .nil)

theorem closing_prefix_concat_iff {before : List Char} {c : Char} :
    before ++ [')'] <+: cs ++ [c] ↔ before = cs ∧ c = ')' ∨ before ++ [')'] <+: cs := by
  rw [List.prefix_concat_iff, List.append_singleton_inj, eq_comm (a := c)]

/-- Partners are an opening and a closing parenthesis with paired characters between them. -/
theorem mem_pairs_iff {opening closing : List Char} :
    (opening, closing) ∈ (of cs).pairs ↔ closing ++ [')'] <+: cs ∧
      ∃ inside, closing = opening ++ '(' :: inside ∧ Paired inside := by
  induction cs using List.reverseRecOn with
  | nil => simp [of, scan, empty]
  | append_singleton cs c ih =>
    have hnested := nested cs
    rw [of_concat, closing_prefix_concat_iff, or_and_right]
    rcases paren_cases c with rfl | rfl | ⟨hopen, hclose⟩
    · simp [step_opening, ih]
    · cases hstack : (of cs).opened with
      | nil =>
        rw [hstack] at hnested
        rw [step_stray hstack, ih, or_iff_right]
        rintro ⟨⟨rfl, -⟩, inside, hcs, hinside⟩
        exact hnested.not_hasOpen ⟨opening, inside, hcs, hinside⟩
      | cons top outer =>
        rw [hstack] at hnested
        rw [step_closing hstack, List.mem_cons, ih, Prod.mk.injEq]
        refine or_congr_left' fun _ => ?_
        cases hnested with
        | @within _ inside _ _ hinside =>
          constructor
          · rintro ⟨rfl, rfl⟩
            exact ⟨⟨rfl, rfl⟩, inside, rfl, hinside⟩
          · rintro ⟨⟨rfl, -⟩, inside', hcs, hinside'⟩
            exact ⟨opening_unique hcs.symm hinside' hinside, rfl⟩
    · simp [step_other hopen hclose, ih, hclose]

theorem opening_prefix {opening closing : List Char} (h : (opening, closing) ∈ (of cs).pairs) :
    opening ++ ['('] <+: cs := by
  obtain ⟨⟨after, rfl⟩, inside, rfl, -⟩ := mem_pairs_iff.mp h
  exact ⟨inside ++ [')'] ++ after, by simp⟩

theorem not_opening_and_closing {before : List Char} (hopening : before ++ ['('] <+: cs) :
    ¬before ++ [')'] <+: cs := by
  rintro ⟨after, rfl⟩
  obtain ⟨after', heq⟩ := hopening
  simp at heq

theorem mem_stray_iff {before : List Char} :
    before ∈ (of cs).stray ↔ before ++ [')'] <+: cs ∧ ¬HasOpen before := by
  induction cs using List.reverseRecOn with
  | nil => simp [of, scan, empty]
  | append_singleton cs c ih =>
    have hnested := nested cs
    rw [of_concat, closing_prefix_concat_iff, or_and_right]
    rcases paren_cases c with rfl | rfl | ⟨hopen, hclose⟩
    · simp [step_opening, ih]
    · cases hstack : (of cs).opened with
      | nil =>
        rw [hstack] at hnested
        rw [step_stray hstack, List.mem_cons, ih]
        refine or_congr_left' fun _ => ⟨?_, fun h => h.1.1⟩
        rintro rfl
        exact ⟨⟨rfl, rfl⟩, hnested.not_hasOpen⟩
      | cons top outer =>
        rw [hstack] at hnested
        rw [step_closing hstack, ih, or_iff_right]
        rintro ⟨⟨rfl, -⟩, hnone⟩
        cases hnested with
        | within _ hinside => exact hnone ⟨_, _, rfl, hinside⟩
    · simp [step_other hopen hclose, ih, hclose]

end Matching

end LexicalLisp.Text
