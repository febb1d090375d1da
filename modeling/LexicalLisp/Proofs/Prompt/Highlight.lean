import Mathlib.Tactic.ByContra
import LexicalLisp.Prompt.Highlight
import LexicalLisp.Proofs.Prompt.Gathering
import LexicalLisp.Proofs.Prompt.Partner

/-!
# What highlighting shows

The highlighted line shows the characters of the line one by one. A closing parenthesis without a
partner is red, the two parentheses of the pair next to the cursor are blue, and everything else
is shown as it is. One pass over the line finds this out: to begin with a parenthesis is shown
plainly, and its piece of the output is replaced when its partner comes and the cursor is there.
-/

namespace LexicalLisp

open Text (Matching Paired HasOpen IsClosed NoStray byteLength)

namespace Highlight

/-- The cursor stands right after one of the two parentheses. -/
def IsNextTo (cursor : Nat) (pair : List Char × List Char) : Prop :=
  cursor = byteLength pair.1 + 1 ∨ cursor = byteLength pair.2 + 1

instance (cursor : Nat) (pair : List Char × List Char) : Decidable (IsNextTo cursor pair) :=
  inferInstanceAs (Decidable (_ ∨ _))

def pairsAt (m : Matching) (cursor : Nat) : List (List Char × List Char) :=
  m.pairs.filter (IsNextTo cursor)

/-- How the character behind some others is shown, given the partners of the parentheses. -/
def shown (m : Matching) (cursor : Nat) (before : List Char) (c : Char) : String :=
  if before ∈ m.stray then red ")"
  else if before ∈ (pairsAt m cursor).map Prod.fst then boldBlue "("
  else if before ∈ (pairsAt m cursor).map Prod.snd then blue ")"
  else String.singleton c

def painted (cs : List Char) (cursor : Nat) : List String :=
  cs.mapIdx fun i c => shown (Matching.of cs) cursor (cs.take i) c

section Matching

variable {cs before opening closing : List Char} {cursor : Nat}

theorem length_lt_of_mem_stray (h : before ∈ (Matching.of cs).stray) :
    before.length < cs.length := by
  have hle := (Matching.mem_stray_iff.mp h).1.length_le
  rw [List.length_append] at hle
  exact hle

theorem length_lt_of_mem_pairs (h : (opening, closing) ∈ (Matching.of cs).pairs) :
    opening.length < closing.length ∧ closing.length < cs.length := by
  obtain ⟨hclosing, inside, rfl, -⟩ := Matching.mem_pairs_iff.mp h
  have hle := hclosing.length_le
  simp only [List.length_append, List.length_cons] at hle ⊢
  omega

theorem mem_pairsAt_iff {m : Matching} {pair : List Char × List Char} :
    pair ∈ pairsAt m cursor ↔ pair ∈ m.pairs ∧ IsNextTo cursor pair := by
  simp [pairsAt]

end Matching

section Shown

variable {m m' : Matching} {opened opened' stray : List (List Char)}
  {pairs : List (List Char × List Char)} {cursor : Nat} {cs before opening closing : List Char}
  {c : Char}

theorem shown_congr (hstray : before ∈ m.stray ↔ before ∈ m'.stray)
    (hfst : before ∈ (pairsAt m cursor).map Prod.fst ↔ before ∈ (pairsAt m' cursor).map Prod.fst)
    (hsnd : before ∈ (pairsAt m cursor).map Prod.snd ↔ before ∈ (pairsAt m' cursor).map Prod.snd) :
    shown m cursor before c = shown m' cursor before c := by
  unfold shown
  rw [if_congr hstray rfl (if_congr hfst rfl (if_congr hsnd rfl rfl))]

theorem shown_of_not_mem (hstray : before ∉ m.stray)
    (hpairs : ∀ pair ∈ m.pairs, pair.1 ≠ before ∧ pair.2 ≠ before) :
    shown m cursor before c = String.singleton c := by
  have hfst : before ∉ (pairsAt m cursor).map Prod.fst := by
    intro h
    obtain ⟨pair, hpair, rfl⟩ := List.mem_map.mp h
    exact (hpairs pair (mem_pairsAt_iff.mp hpair).1).1 rfl
  have hsnd : before ∉ (pairsAt m cursor).map Prod.snd := by
    intro h
    obtain ⟨pair, hpair, rfl⟩ := List.mem_map.mp h
    exact (hpairs pair (mem_pairsAt_iff.mp hpair).1).2 rfl
  simp [shown, hstray, hfst, hsnd]

theorem shown_stray_self : shown ⟨opened, pairs, before :: stray⟩ cursor before c = red ")" := by
  simp [shown]

theorem shown_stray_of_ne (h : before ≠ cs) :
    shown ⟨opened, pairs, cs :: stray⟩ cursor before c =
      shown ⟨opened', pairs, stray⟩ cursor before c :=
  shown_congr (by simp [h]) Iff.rfl Iff.rfl

theorem shown_pair_of_not_next (h : ¬IsNextTo cursor (opening, closing)) :
    shown ⟨opened, (opening, closing) :: pairs, stray⟩ cursor before c =
      shown ⟨opened', pairs, stray⟩ cursor before c :=
  shown_congr Iff.rfl (by simp [pairsAt, h]) (by simp [pairsAt, h])

theorem shown_pair_of_ne (hopening : before ≠ opening) (hclosing : before ≠ closing) :
    shown ⟨opened, (opening, closing) :: pairs, stray⟩ cursor before c =
      shown ⟨opened', pairs, stray⟩ cursor before c := by
  by_cases h : IsNextTo cursor (opening, closing)
  · exact shown_congr Iff.rfl (by simp [pairsAt, h, hopening]) (by simp [pairsAt, h, hclosing])
  · exact shown_pair_of_not_next h

theorem shown_pair_opening (h : IsNextTo cursor (opening, closing)) (hstray : opening ∉ stray) :
    shown ⟨opened, (opening, closing) :: pairs, stray⟩ cursor opening c = boldBlue "(" := by
  simp [shown, pairsAt, h, hstray]

theorem shown_pair_closing (h : IsNextTo cursor (opening, closing)) (hstray : closing ∉ stray)
    (hopening : closing ≠ opening) (hpairs : ∀ pair ∈ pairs, pair.1 ≠ closing) :
    shown ⟨opened, (opening, closing) :: pairs, stray⟩ cursor closing c = blue ")" := by
  have hfst :
      closing ∉ (pairsAt ⟨opened, (opening, closing) :: pairs, stray⟩ cursor).map Prod.fst := by
    intro hmem
    obtain ⟨pair, hpair, hclosing⟩ := List.mem_map.mp hmem
    rcases List.mem_cons.mp (mem_pairsAt_iff.mp hpair).1 with rfl | hpair
    · exact hopening hclosing.symm
    · exact hpairs pair hpair hclosing
  have hsnd :
      closing ∈ (pairsAt ⟨opened, (opening, closing) :: pairs, stray⟩ cursor).map Prod.snd :=
    List.mem_map.mpr ⟨_, mem_pairsAt_iff.mpr ⟨List.mem_cons_self, h⟩, rfl⟩
  unfold shown
  rw [if_neg hstray, if_neg hfst, if_pos hsnd]

end Shown

section Painted

variable {cursor : Nat} {cs opening : List Char} {c : Char}

theorem shown_of_length_le {before : List Char} (h : cs.length ≤ before.length) :
    shown (Matching.of cs) cursor before c = String.singleton c := by
  refine shown_of_not_mem (fun hmem => ?_) fun pair hpair => ?_
  · have hlt := length_lt_of_mem_stray hmem
    omega
  · have hlt := length_lt_of_mem_pairs hpair
    constructor
    · rintro rfl
      omega
    · rintro rfl
      omega

theorem take_ne_of_lt {i : Nat} (h : i < cs.length) : cs.take i ≠ cs := by
  intro heq
  have hlength := congrArg List.length heq
  rw [List.length_take] at hlength
  omega

/-- One more character, and what the matching that it leads to makes of those before it. -/
theorem painted_concat (cs : List Char) (c : Char) (cursor : Nat) :
    painted (cs ++ [c]) cursor =
      (cs.mapIdx fun i d => shown (Matching.of (cs ++ [c])) cursor (cs.take i) d) ++
        [shown (Matching.of (cs ++ [c])) cursor cs c] := by
  unfold painted
  rw [List.mapIdx_concat, List.take_left]
  congr 1
  rw [List.mapIdx_eq_mapIdx_iff]
  intro i hi
  rw [List.take_append_of_le_length (Nat.le_of_lt hi)]

theorem painted_concat_of_same {piece : String}
    (hsame : ∀ before d, before ≠ cs → shown (Matching.of (cs ++ [c])) cursor before d =
      shown (Matching.of cs) cursor before d)
    (hpiece : shown (Matching.of (cs ++ [c])) cursor cs c = piece) :
    painted (cs ++ [c]) cursor = painted cs cursor ++ [piece] := by
  rw [painted_concat, painted, hpiece]
  congr 1
  rw [List.mapIdx_eq_mapIdx_iff]
  intro i hi
  rw [hsame _ _ (take_ne_of_lt hi)]

theorem painted_opening : painted (cs ++ ['(']) cursor = painted cs cursor ++ ["("] := by
  have hmatching := Matching.of_concat cs '('
  rw [Matching.step_opening] at hmatching
  apply painted_concat_of_same
  · intro before d _
    rw [hmatching]
    rfl
  · rw [hmatching]
    exact shown_of_length_le (Nat.le_refl _)

theorem painted_other (hopen : c ≠ '(') (hclose : c ≠ ')') :
    painted (cs ++ [c]) cursor = painted cs cursor ++ [String.singleton c] := by
  have hmatching := Matching.of_concat cs c
  rw [Matching.step_other hopen hclose] at hmatching
  apply painted_concat_of_same
  · intro before d _
    rw [hmatching]
  · rw [hmatching]
    exact shown_of_length_le (Nat.le_refl _)

theorem painted_stray (h : (Matching.of cs).opened = []) :
    painted (cs ++ [')']) cursor = painted cs cursor ++ [red ")"] := by
  have hmatching := Matching.of_concat cs ')'
  rw [Matching.step_stray h] at hmatching
  apply painted_concat_of_same
  · intro before d hbefore
    rw [hmatching]
    exact shown_stray_of_ne hbefore
  · rw [hmatching]
    exact shown_stray_self

variable {outer : List (List Char)}

theorem painted_closing_of_not_next (h : (Matching.of cs).opened = opening :: outer)
    (hcursor : ¬IsNextTo cursor (opening, cs)) :
    painted (cs ++ [')']) cursor = painted cs cursor ++ [")"] := by
  have hmatching := Matching.of_concat cs ')'
  rw [Matching.step_closing h] at hmatching
  have hsame : ∀ before d, shown (Matching.of (cs ++ [')'])) cursor before d =
      shown (Matching.of cs) cursor before d := by
    intro before d
    rw [hmatching]
    exact shown_pair_of_not_next hcursor
  apply painted_concat_of_same
  · exact fun before d _ => hsame before d
  · rw [hsame]
    exact shown_of_length_le (Nat.le_refl _)

theorem painted_closing_of_next (h : (Matching.of cs).opened = opening :: outer)
    (hcursor : IsNextTo cursor (opening, cs)) :
    painted (cs ++ [')']) cursor =
      (painted cs cursor).set opening.length (boldBlue "(") ++ [blue ")"] := by
  have hmatching := Matching.of_concat cs ')'
  rw [Matching.step_closing h] at hmatching
  obtain ⟨inside, hcs⟩ : ∃ inside, cs = opening ++ '(' :: inside := by
    have hnested := Matching.nested cs
    rw [h] at hnested
    cases hnested with
    | within _ _ => exact ⟨_, rfl⟩
  have hlt : opening.length < cs.length := by simp [hcs]
  have hopening : cs.take opening.length = opening := by simp [hcs]
  have hfirst : shown (Matching.of (cs ++ [')'])) cursor opening '(' = boldBlue "(" := by
    rw [hmatching]
    refine shown_pair_opening hcursor fun hstray => ?_
    have hopened : opening ++ ['('] <+: cs := ⟨inside, by simp [hcs]⟩
    exact Matching.not_opening_and_closing hopened (Matching.mem_stray_iff.mp hstray).1
  have hlast : shown (Matching.of (cs ++ [')'])) cursor cs ')' = blue ")" := by
    rw [hmatching]
    refine shown_pair_closing hcursor (fun hmem => ?_) ?_ fun pair hpair => ?_
    · exact Nat.lt_irrefl _ (length_lt_of_mem_stray hmem)
    · rintro rfl
      exact Nat.lt_irrefl _ hlt
    · rintro rfl
      have hlt' := length_lt_of_mem_pairs hpair
      omega
  rw [painted_concat, hlast]
  congr 1
  apply List.ext_getElem?
  intro i
  rw [List.getElem?_set, painted, List.getElem?_mapIdx, List.getElem?_mapIdx, List.length_mapIdx]
  by_cases hi : opening.length = i
  · subst hi
    have hparen : cs[opening.length]? = some '(' := by simp [hcs]
    rw [if_pos rfl, if_pos hlt, hparen, Option.map_some, hopening, hfirst]
  · rw [if_neg hi]
    by_cases hlength : i < cs.length
    · have hne : cs.take i ≠ opening := by
        rintro heq
        apply hi
        rw [← heq, List.length_take_of_le (Nat.le_of_lt hlength)]
      rw [List.getElem?_eq_getElem hlength, Option.map_some, Option.map_some, hmatching]
      exact congrArg some (shown_pair_of_ne hne (take_ne_of_lt hlength))
    · rw [List.getElem?_eq_none (Nat.le_of_not_lt hlength)]
      rfl

/-- As long as a parenthesis is open, nothing that is shown before it changes. -/
theorem painted_of_mem_opened : ∀ before ∈ (Matching.of cs).opened,
    painted before cursor ++ ["("] <+: painted cs cursor := by
  induction cs using List.reverseRecOn with
  | nil => exact nofun
  | append_singleton cs c ih =>
    have hlonger : ∀ (piece : String), ∀ before ∈ (Matching.of cs).opened,
        painted before cursor ++ ["("] <+: painted cs cursor ++ [piece] := fun piece before h =>
      (ih before h).trans (List.prefix_append _ _)
    rw [Matching.of_concat]
    rcases Text.paren_cases c with rfl | rfl | ⟨hopen, hclose⟩
    · rw [Matching.step_opening, painted_opening]
      exact List.forall_mem_cons.mpr ⟨List.prefix_refl _, hlonger "("⟩
    · cases hstack : (Matching.of cs).opened with
      | nil =>
        rw [Matching.step_stray hstack, painted_stray hstack]
        exact hlonger (red ")")
      | cons opening outer =>
        rw [Matching.step_closing hstack]
        intro before hbefore
        have hmem : before ∈ (Matching.of cs).opened := by
          rw [hstack]
          exact List.mem_cons_of_mem _ hbefore
        by_cases hcursor : IsNextTo cursor (opening, cs)
        · -- The piece that is replaced comes after those of the parentheses that stay open.
          have hlength : before.length < opening.length := by
            have hnested := Matching.nested cs
            rw [hstack] at hnested
            cases hnested with
            | within houter _ => exact houter.length_lt before hbefore
          obtain ⟨later, hlater⟩ := ih before hmem
          have hle : (painted before cursor ++ ["("]).length ≤ opening.length := by
            simp only [painted, List.length_append, List.length_mapIdx, List.length_singleton]
            omega
          rw [painted_closing_of_next hstack hcursor, ← hlater, List.set_append_right _ _ hle,
            List.append_assoc]
          exact List.prefix_append _ _
        · rw [painted_closing_of_not_next hstack hcursor]
          exact hlonger ")" before hmem
    · rw [Matching.step_other hopen hclose, painted_other hopen hclose]
      exact hlonger _

end Painted

section Pass

variable {cursor offset : Nat} {stack : List Opening} {done : String} {cs : List Char} {c : Char}

theorem paint_opening : paint cursor offset stack done ('(' :: cs) =
    paint cursor (offset + 1) (⟨offset, done.utf8ByteSize⟩ :: stack) (done ++ "(") cs := rfl

theorem paint_stray : paint cursor offset [] done (')' :: cs) =
    paint cursor (offset + 1) [] (done ++ red ")") cs := rfl

theorem paint_closing_of_next (opening : Opening)
    (h : cursor = offset + 1 ∨ cursor = opening.offset + 1) :
    paint cursor offset (opening :: stack) done (')' :: cs) =
      paint cursor (offset + 1) stack
        (Text.replaceAt opening.place (boldBlue "(") (done ++ blue ")").toList) cs := by
  show (if _ then _ else _) = _
  exact if_pos h

theorem paint_closing_of_not_next (opening : Opening)
    (h : ¬(cursor = offset + 1 ∨ cursor = opening.offset + 1)) :
    paint cursor offset (opening :: stack) done (')' :: cs) =
      paint cursor (offset + 1) stack (done ++ ")") cs := by
  show (if _ then _ else _) = _
  exact if_neg h

theorem paint_other (hopen : c ≠ '(') (hclose : c ≠ ')') :
    paint cursor offset stack done (c :: cs) =
      paint cursor (offset + c.utf8Size) stack (done ++ String.singleton c) cs := by
  conv_lhs => rw [paint.eq_def]
  simp only [if_neg hopen, if_neg hclose]
  rfl

/-- The opening parenthesis behind some characters, as it is kept during the pass. -/
def Opening.behind (cursor : Nat) (before : List Char) : Opening :=
  ⟨byteLength before, (String.join (painted before cursor)).utf8ByteSize⟩

theorem join_concat (pieces : List String) (piece : String) :
    String.join (pieces ++ [piece]) = String.join pieces ++ piece := by
  simp

theorem replaceAt_eq (before after text : String) (c : Char) :
    Text.replaceAt before.utf8ByteSize text (before.toList ++ c :: after.toList) =
      before ++ text ++ after := by
  have hrest : (before.toList ++ c :: after.toList).drop (before.toList.length + 1) =
      after.toList := by
    rw [List.drop_append]
    simp
  rw [Text.replaceAt, Text.utf8ByteSize_eq, Text.takeBytes_append, hrest, String.ofList_toList,
    String.ofList_toList]

/-- The opening parenthesis is replaced where it has been put out, however many pieces before it
and after it are coloured. -/
theorem replaceAt_painted {before opening : List Char} {outer : List (List Char)}
    (h : (Matching.of before).opened = opening :: outer) (text last : String) :
    Text.replaceAt (Opening.behind cursor opening).place text
        (String.join (painted before cursor) ++ last).toList =
      String.join ((painted before cursor).set opening.length text ++ [last]) := by
  have htop : opening ∈ (Matching.of before).opened := by
    rw [h]
    exact List.mem_cons_self
  obtain ⟨later, hlater⟩ : painted opening cursor ++ ["("] <+: painted before cursor :=
    painted_of_mem_opened opening htop
  have hlength : (painted opening cursor).length = opening.length := by simp [painted]
  have hset : (painted before cursor).set opening.length text =
      painted opening cursor ++ text :: later := by
    rw [← hlater, ← hlength, List.append_assoc]
    simp
  have hchars : (String.join (painted before cursor) ++ last).toList =
      (String.join (painted opening cursor)).toList ++
        '(' :: (String.join later ++ last).toList := by
    rw [← hlater]
    simp
  rw [hset, hchars]
  exact (replaceAt_eq ..).trans (by simp [String.append_assoc])

/-- The pass over the rest of a line goes on from what is shown of its beginning. -/
theorem paint_eq (cursor : Nat) (before rest : List Char) :
    paint cursor (byteLength before) ((Matching.of before).opened.map (Opening.behind cursor))
      (String.join (painted before cursor)) rest =
        String.join (painted (before ++ rest) cursor) := by
  induction rest generalizing before with
  | nil => simp [paint]
  | cons c rest ih =>
    have hnext : before ++ c :: rest = before ++ [c] ++ rest := by simp
    have hoffset : byteLength (before ++ [c]) = byteLength before + c.utf8Size := by simp
    rw [hnext, ← ih (before ++ [c]), hoffset, Matching.of_concat]
    rcases Text.paren_cases c with rfl | rfl | ⟨hopen, hclose⟩
    · rw [Matching.step_opening, painted_opening, paint_opening, join_concat]
      rfl
    · cases hstack : (Matching.of before).opened with
      | nil =>
        rw [Matching.step_stray hstack, painted_stray hstack, hstack, join_concat]
        exact paint_stray
      | cons opening outer =>
        rw [Matching.step_closing hstack]
        by_cases hcursor : IsNextTo cursor (opening, before)
        · rw [painted_closing_of_next hstack hcursor, ← replaceAt_painted hstack]
          exact paint_closing_of_next (.behind cursor opening) hcursor.symm
        · rw [painted_closing_of_not_next hstack hcursor, join_concat]
          exact paint_closing_of_not_next (.behind cursor opening) fun h => hcursor h.symm
    · rw [Matching.step_other hopen hclose, painted_other hopen hclose, join_concat]
      exact paint_other hopen hclose

theorem line_eq (text : String) (cursor : Nat) :
    line text cursor = String.join (painted text.toList cursor) :=
  paint_eq cursor [] text.toList

end Pass

section Colours

variable {m : Matching} {cursor position : Nat} {cs before after : List Char} {c : Char}

theorem getElem?_painted (h : cs = before ++ c :: after) :
    (painted cs cursor)[before.length]? = some (shown (Matching.of cs) cursor before c) := by
  rw [painted, List.getElem?_mapIdx, h]
  simp

theorem shown_eq_red_iff : shown m cursor before c = red ")" ↔ before ∈ m.stray := by
  have hplain : String.singleton c ≠ red ")" := by
    intro h
    have hlength := congrArg String.length h
    rw [String.length_singleton] at hlength
    revert hlength
    decide
  have hopening : boldBlue "(" ≠ red ")" := by decide
  have hclosing : blue ")" ≠ red ")" := by decide
  unfold shown
  split
  · simpa
  · rename_i hstray
    refine iff_of_false ?_ hstray
    split
    · exact hopening
    · split
      · exact hclosing
      · exact hplain

theorem first_stray_iff :
    (cs.take position ∈ (Matching.of cs).stray ∧
      ∀ i < position, cs.take i ∉ (Matching.of cs).stray) ↔
    ∃ before after, cs = before ++ ')' :: after ∧ Paired before ∧ position = before.length := by
  constructor
  · rintro ⟨hstray, hearlier⟩
    have hposition : position < cs.length := by
      have hlt := length_lt_of_mem_stray hstray
      rw [List.length_take] at hlt
      omega
    have hlength : (cs.take position).length = position :=
      List.length_take_of_le (Nat.le_of_lt hposition)
    obtain ⟨hstands, hopen⟩ := Matching.mem_stray_iff.mp hstray
    obtain ⟨after, hafter⟩ := hstands
    refine ⟨cs.take position, after, by simpa using hafter.symm, ?_, hlength.symm⟩
    refine Text.paired_of_noStray (fun x y hxy => ?_) hopen
    by_contra hnone
    have hx : cs.take x.length = x := by
      rw [← hafter, hxy]
      simp
    have hlt : x.length < position := by
      rw [← hlength, hxy]
      simp
    apply hearlier x.length hlt
    rw [hx, Matching.mem_stray_iff]
    refine ⟨⟨y ++ [')'] ++ after, ?_⟩, hnone⟩
    rw [← hafter, hxy]
    simp
  · rintro ⟨before, after, rfl, hbefore, rfl⟩
    constructor
    · rw [List.take_left, Matching.mem_stray_iff]
      exact ⟨⟨after, by simp⟩, hbefore.not_hasOpen⟩
    · intro i hi hstray
      obtain ⟨hstands, hopen⟩ := Matching.mem_stray_iff.mp hstray
      rw [List.take_append_of_le_length (Nat.le_of_lt hi)] at hstands hopen
      obtain ⟨later, hlater⟩ : before.take i ++ [')'] <+: before := by
        refine List.prefix_of_prefix_length_le hstands (List.prefix_append _ _) ?_
        rw [List.length_append, List.length_take_of_le (Nat.le_of_lt hi)]
        exact hi
      exact hopen (hbefore.noStray _ later (by simpa using hlater.symm))

theorem invalid_iff : Verdict.scan 0 0 cs = .invalid position ↔
    ∃ before after, cs = before ++ ')' :: after ∧ Paired before ∧ position = before.length := by
  constructor
  · intro h
    rcases Text.exists_opens_or_stray cs with ⟨opened, hopened⟩ | ⟨before, after, rfl, hbefore⟩
    · have hscan := hopened.scan_append []
      rw [List.append_nil, h] at hscan
      cases opened <;> cases hscan
    · rw [hbefore.scan_append, Nat.zero_add] at h
      cases h
      exact ⟨before, after, rfl, hbefore, rfl⟩
  · rintro ⟨before, after, rfl, hbefore, rfl⟩
    rw [hbefore.scan_append, Nat.zero_add]
    rfl

theorem findIdx?_painted : (painted cs cursor).findIdx? (· = red ")") = some position ↔
    Verdict.scan 0 0 cs = .invalid position := by
  rw [invalid_iff, ← first_stray_iff, List.findIdx?_eq_some_iff_getElem]
  simp only [painted, List.getElem_mapIdx, List.length_mapIdx, decide_eq_true_eq, shown_eq_red_iff]
  constructor
  · rintro ⟨_, hstray, hearlier⟩
    exact ⟨hstray, hearlier⟩
  · rintro ⟨hstray, hearlier⟩
    have hlt := length_lt_of_mem_stray hstray
    rw [List.length_take] at hlt
    exact ⟨by omega, hstray, hearlier⟩

end Colours

section Partners

variable {cursor : Nat} {cs : List Char} {p q : List Char × List Char}

theorem prefix_unique {before before' : List Char} (h : before <+: cs) (h' : before' <+: cs)
    (hlength : byteLength before = byteLength before') : before = before' := by
  obtain ⟨after, rfl⟩ := h
  obtain ⟨after', heq⟩ := h'
  rw [← Text.takeBytes_append before after, ← heq, hlength, Text.takeBytes_append]

theorem pairsAt_unique (hp : p ∈ pairsAt (Matching.of cs) cursor)
    (hq : q ∈ pairsAt (Matching.of cs) cursor) : p = q := by
  obtain ⟨hp, hpcursor⟩ := mem_pairsAt_iff.mp hp
  obtain ⟨hq, hqcursor⟩ := mem_pairsAt_iff.mp hq
  obtain ⟨opening, closing⟩ := p
  obtain ⟨opening', closing'⟩ := q
  have hopening := Matching.opening_prefix hp
  have hopening' := Matching.opening_prefix hq
  obtain ⟨hclosing, inside, hinside, hpaired⟩ := Matching.mem_pairs_iff.mp hp
  obtain ⟨hclosing', inside', hinside', hpaired'⟩ := Matching.mem_pairs_iff.mp hq
  have hbegins : ∀ {before : List Char} {c : Char}, before ++ [c] <+: cs → before <+: cs :=
    fun h => (List.prefix_append _ _).trans h
  rcases hpcursor with hpcursor | hpcursor <;> rcases hqcursor with hqcursor | hqcursor
  · obtain rfl := prefix_unique (hbegins hopening) (hbegins hopening')
      (Nat.add_right_cancel (hpcursor.symm.trans hqcursor))
    obtain ⟨after, hcs⟩ := hclosing
    obtain ⟨after', hcs'⟩ := hclosing'
    have hrest : inside ++ ')' :: after = inside' ++ ')' :: after' := by
      simpa [hinside, hinside'] using hcs.trans hcs'.symm
    rw [hinside, hinside', Text.closing_unique hrest hpaired hpaired']
  · obtain rfl := prefix_unique (hbegins hopening) (hbegins hclosing')
      (Nat.add_right_cancel (hpcursor.symm.trans hqcursor))
    exact absurd hclosing' (Matching.not_opening_and_closing hopening)
  · obtain rfl := prefix_unique (hbegins hclosing) (hbegins hopening')
      (Nat.add_right_cancel (hpcursor.symm.trans hqcursor))
    exact absurd hclosing (Matching.not_opening_and_closing hopening')
  · obtain rfl := prefix_unique (hbegins hclosing) (hbegins hclosing')
      (Nat.add_right_cancel (hpcursor.symm.trans hqcursor))
    rw [Text.opening_unique (hinside.symm.trans hinside') hpaired hpaired']

theorem getElem?_painted_of_not_closed {before after : List Char} (h : cs = before ++ '(' :: after)
    (hclosed : ¬IsClosed after) : (painted cs cursor)[before.length]? = some "(" := by
  have hbefore : before ++ ['('] <+: cs := ⟨after, by simp [h]⟩
  rw [getElem?_painted h, shown_of_not_mem]
  · rfl
  · exact fun hstray =>
      Matching.not_opening_and_closing hbefore (Matching.mem_stray_iff.mp hstray).1
  · rintro ⟨opening, closing⟩ hpair
    obtain ⟨hclosing, inside, hinside, hpaired⟩ := Matching.mem_pairs_iff.mp hpair
    constructor
    · rintro rfl
      obtain ⟨later, hlater⟩ := hclosing
      refine hclosed ⟨inside, later, ?_, hpaired⟩
      simpa [hinside] using h.symm.trans hlater.symm
    · rintro rfl
      exact Matching.not_opening_and_closing hbefore hclosing

end Partners

end Highlight

open Highlight in
/-- The highlighted line shows the characters of the line in their order: a stray closing
parenthesis in red, the two parentheses of a pair next to the cursor in bold blue and in blue, and
every other character as it is. There is at most one such pair, opening parentheses that are never
closed are plain, and the first red parenthesis is at the position at which the verdict is
`invalid`. -/
theorem highlighting_only_decorates (text : String) (cursor : Nat) :
    line text cursor = String.join (painted text.toList cursor) ∧
    (∀ p ∈ pairsAt (Matching.of text.toList) cursor,
      ∀ q ∈ pairsAt (Matching.of text.toList) cursor, p = q) ∧
    (∀ before after, text.toList = before ++ '(' :: after → ¬IsClosed after →
      (painted text.toList cursor)[before.length]? = some "(") ∧
    (∀ position, (painted text.toList cursor).findIdx? (· = red ")") = some position ↔
      Verdict.of text = .invalid position) ∧
    (∀ opening closing, (opening, closing) ∈ (Matching.of text.toList).pairs ↔
      closing ++ [')'] <+: text.toList ∧
        ∃ inside, closing = opening ++ '(' :: inside ∧ Paired inside) ∧
    ∀ before, before ∈ (Matching.of text.toList).stray ↔
      before ++ [')'] <+: text.toList ∧ ¬HasOpen before := by
  refine ⟨line_eq text cursor, ?_, ?_, ?_, ?_, ?_⟩
  · exact fun p hp q hq => pairsAt_unique hp hq
  · exact fun before after => getElem?_painted_of_not_closed
  · exact fun position => findIdx?_painted
  · exact fun opening closing => Matching.mem_pairs_iff
  · exact fun before => Matching.mem_stray_iff

/-- The parenthesis after the letter is stray, the next one is never closed, and the cursor stands
after the one that opens the list. -/
example : Highlight.line "é)((a)" 5 =
    "é\x1b[31m)\x1b[0m(\x1b[1;34m(\x1b[0ma\x1b[34m)\x1b[0m" := by
  decide +kernel

end LexicalLisp
