import Mathlib.Data.List.TakeWhile
import LexicalLisp.Proofs.Reading.Concatenation
import LexicalLisp.Proofs.Reading.Pairing

/-!
# Reading goes by shapes

Which expressions a text holds depends on the shapes of its tokens and not on where they stand.
Blanks therefore have no part in it: a text can be trimmed, provided that everything which is
trimmed separates tokens, and it can be read in parts if these are kept apart by blanks and each
of them has the partners of all its parentheses.
-/

namespace LexicalLisp

open Text (isBlank isTokenBlank shapes trim Paired)

section Tokens

variable {ts us : List Token} {es : List Expr}

/-- The elements of open forms, without the places where these begin. -/
abbrev Nesting.contents (nesting : Nesting) : List (List Expr) := nesting.map OpenForm.elements

/-- Tokens of the same shape complete an expression at the same time, or open forms with the same
contents. -/
inductive Progress.Alike : Progress → Progress → Prop
  | within {nesting nesting' : Nesting} (h : nesting.contents = nesting'.contents) :
      Alike (.within nesting) (.within nesting')
  | complete (e : Expr) : Alike (.complete e) (.complete e)
  | stray (paren paren' : Span) : Alike (.stray paren) (.stray paren')

theorem Nesting.place_alike (e : Expr) {nesting nesting' : Nesting}
    (h : nesting.contents = nesting'.contents) : (place e nesting).Alike (place e nesting') := by
  cases nesting with
  | nil =>
    obtain rfl := List.map_eq_nil_iff.mp h.symm
    exact .complete e
  | cons form outer =>
    obtain ⟨form', outer', rfl, hform, houter⟩ := List.map_eq_cons_iff.mp h.symm
    exact .within (by simp [contents, hform, houter])

theorem Nesting.advance_alike {nesting nesting' : Nesting}
    (h : nesting.contents = nesting'.contents) {t u : Token} (hshape : t.shape = u.shape) :
    (nesting.advance t).Alike (nesting'.advance u) := by
  obtain ⟨hkind, hchars⟩ := Prod.mk.inj hshape
  have htext : t.text = u.text := String.toList_inj.mp hchars
  cases hu : u.kind with
  | opening =>
    rw [advance_opening (hkind.trans hu), advance_opening hu]
    exact .within (by simp [contents, h])
  | closing =>
    cases nesting with
    | nil =>
      obtain rfl := List.map_eq_nil_iff.mp h.symm
      rw [advance_closing_nil (hkind.trans hu), advance_closing_nil hu]
      exact .stray t.span u.span
    | cons form outer =>
      obtain ⟨form', outer', rfl, hform, houter⟩ := List.map_eq_cons_iff.mp h.symm
      rw [advance_closing (hkind.trans hu), advance_closing hu, hform]
      exact place_alike _ houter.symm
  | atom =>
    rw [advance_atom (hkind.trans hu), advance_atom hu, htext]
    exact place_alike _ h

/-- Tokens that can be read give the same expressions as others of the same shapes. -/
theorem parseFrom_of_shapes {nesting nesting' : Nesting} (h : nesting.contents = nesting'.contents)
    (hshapes : ts.map Token.shape = us.map Token.shape) (hts : parseFrom nesting ts = .ok es) :
    parseFrom nesting' us = .ok es := by
  induction ts generalizing us nesting nesting' es with
  | nil =>
    obtain rfl := List.map_eq_nil_iff.mp hshapes.symm
    cases nesting with
    | nil =>
      obtain rfl := List.map_eq_nil_iff.mp h.symm
      exact hts
    | cons form outer => cases hts
  | cons t ts ih =>
    obtain ⟨u, us, rfl, hshape, hrest⟩ := List.map_eq_cons_iff.mp hshapes.symm
    have halike := Nesting.advance_alike h hshape.symm
    rw [parseFrom_cons] at hts ⊢
    generalize nesting.advance t = p, nesting'.advance u = q at hts halike ⊢
    cases halike with
    | within h' => exact ih h' hrest.symm hts
    | complete e =>
      rw [Progress.resume] at hts ⊢
      cases hlater : parseFrom [] ts with
      | error err => simp [hlater, Except.map] at hts
      | ok later =>
        rw [hlater] at hts
        rw [ih rfl hrest.symm hlater]
        exact hts
    | stray paren paren' => cases hts

end Tokens

section Texts

variable {a b : String} {es : List Expr}

theorem parse_of_shapes (h : shapes a.toList = shapes b.toList) (ha : parse a = .ok es) :
    parse b = .ok es := by
  rw [← Token.shapes_ofText, ← Token.shapes_ofText] at h
  exact parseFrom_of_shapes rfl h ha

/-- A text in two parts, of which the first can be read alone, gives what the parts give. -/
theorem parse_append_of_shapes {text : String}
    (h : shapes text.toList = shapes a.toList ++ shapes b.toList) (htext : parse text = .ok es)
    {first : List Expr} (ha : parse a = .ok first) :
    ∃ rest, parse b = .ok rest ∧ es = first ++ rest := by
  rw [← Token.shapes_ofText, ← Token.shapes_ofText, ← Token.shapes_ofText, ← List.map_append] at h
  have hparts := parseFrom_of_shapes rfl h htext
  have happend := parseTokens_append ha (Token.ofLines 0 (Text.lines b))
  rw [parseTokens, hparts] at happend
  unfold parse parseLines
  cases hb : parseTokens (Token.ofLines 0 (Text.lines b)) with
  | error err => simp [hb, Except.map] at happend
  | ok rest =>
    rw [hb] at happend
    exact ⟨rest, rfl, Except.ok.inj happend⟩

end Texts

namespace Text

variable {bs cs : List Char}

theorem shapes_blanks_append (h : ∀ c ∈ bs, isTokenBlank c) : shapes (bs ++ cs) = shapes cs := by
  unfold shapes
  rw [Lexeme.scan_blanks h, Text.map_shape_scan]
  rfl

theorem shapes_append_blanks_nil (h : ∀ c ∈ bs, isTokenBlank c) :
    shapes (cs ++ bs) = shapes cs := by
  by_cases hne : bs = []
  · rw [hne, List.append_nil]
  · have happend := shapes_append_blanks h hne cs []
    simpa using happend

theorem shapes_margins {before after : List Char} (hbefore : ∀ c ∈ before, isTokenBlank c)
    (hafter : ∀ c ∈ after, isTokenBlank c) : shapes (before ++ cs ++ after) = shapes cs := by
  rw [List.append_assoc, shapes_blanks_append hbefore, shapes_append_blanks_nil hafter]

theorem exists_trim_eq (text : String) : ∃ before after,
    text.toList = before ++ (trim text).toList ++ after ∧
      (∀ c ∈ before, isBlank c) ∧ ∀ c ∈ after, isBlank c := by
  refine ⟨text.toList.takeWhile isBlank,
    ((text.toList.dropWhile isBlank).reverse.takeWhile isBlank).reverse, ?_, ?_, ?_⟩
  · rw [trim, String.toList_ofList, List.append_assoc, ← List.reverse_append,
      List.takeWhile_append_dropWhile, List.reverse_reverse, List.takeWhile_append_dropWhile]
  · exact fun c hc => List.mem_takeWhile_imp hc
  · exact fun c hc => List.mem_takeWhile_imp (List.mem_reverse.mp hc)

theorem shapes_trim {text : String} (h : ∀ c ∈ text.toList, isBlank c → isTokenBlank c) :
    shapes (trim text).toList = shapes text.toList := by
  obtain ⟨before, after, htext, hbefore, hafter⟩ := exists_trim_eq text
  have hbefore' : ∀ c ∈ before, isTokenBlank c :=
    fun c hc => h c (by simp [htext, hc]) (hbefore c hc)
  have hafter' : ∀ c ∈ after, isTokenBlank c :=
    fun c hc => h c (by simp [htext, hc]) (hafter c hc)
  rw [htext, shapes_margins hbefore' hafter']

end Text

end LexicalLisp
