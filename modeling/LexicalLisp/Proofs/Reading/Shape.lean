import LexicalLisp.Reading.Token

/-!
# Shapes of tokens

The shape of a token is its kind and its characters, without the place where it stands.
Characters fall into the same shapes wherever they stand, and the shapes of two stretches of
characters are those of the first followed by those of the second, unless an atom goes on
across the border. No atom goes on across blanks.
-/

namespace LexicalLisp

def Text.isAtomChar (c : Char) : Bool := !isTokenBlank c && c != '(' && c != ')'

open Text (isTokenBlank isAtomChar byteLength)

abbrev Shape := TokenKind × List Char

namespace Lexeme

/-- Characters that make up one atom. -/
structure IsRun (cs : List Char) : Prop where
  ne_nil : cs ≠ []
  atomChars : ∀ c ∈ cs, isAtomChar c

/-- The characters do not go on with an atom. -/
def IsBorder (cs : List Char) : Prop := ∀ c ∈ cs.head?, isAtomChar c = false

def shape (l : Lexeme) : Shape := (l.kind, l.chars)

def shift (k : Nat) (l : Lexeme) : Lexeme := { l with start := l.start + k }

section Scan

variable {offset : Nat} {c : Char} {cs ds : List Char} {l : Lexeme} {ls : List Lexeme}

theorem scan_blank (h : isTokenBlank c) :
    scan offset (c :: cs) = scan (offset + c.utf8Size) cs := by
  simp [scan, h]

theorem scan_opening :
    scan offset ('(' :: cs) = ⟨.opening, offset, ['(']⟩ :: scan (offset + 1) cs := rfl

theorem scan_closing :
    scan offset (')' :: cs) = ⟨.closing, offset, [')']⟩ :: scan (offset + 1) cs := rfl

theorem scan_atomChar (h : isAtomChar c) :
    scan offset (c :: cs) = join offset c (scan (offset + c.utf8Size) cs) := by
  simp only [isAtomChar, Bool.and_eq_true, Bool.not_eq_true', bne_iff_ne] at h
  simp [scan, h]

theorem char_cases (c : Char) : isTokenBlank c ∨ c = '(' ∨ c = ')' ∨ isAtomChar c := by
  by_cases hblank : isTokenBlank c
  · exact .inl hblank
  · by_cases hopen : c = '('
    · exact .inr (.inl hopen)
    · by_cases hclose : c = ')'
      · exact .inr (.inr (.inl hclose))
      · exact .inr (.inr (.inr (by simp [isAtomChar, hblank, hopen, hclose])))

/-- To join a character makes an atom of it, or of it and the atom after it. -/
theorem forall_mem_join {P : Lexeme → Prop} (hnew : P ⟨.atom, offset, [c]⟩)
    (hlonger : ∀ l ∈ ls, l.kind = .atom → P ⟨.atom, offset, c :: l.chars⟩) (hold : ∀ l ∈ ls, P l) :
    ∀ l ∈ join offset c ls, P l := by
  intro l hl
  unfold join at hl
  split at hl
  · obtain rfl := List.mem_singleton.mp hl
    exact hnew
  · rename_i next rest
    split at hl
    · rename_i hnext
      rcases List.mem_cons.mp hl with rfl | hl
      · exact hlonger next (by simp) hnext.1
      · exact hold l (by simp [hl])
    · rcases List.mem_cons.mp hl with rfl | hl
      · exact hnew
      · exact hold l hl

theorem isRun_of_mem_scan : ∀ l ∈ scan offset cs, l.kind = .atom → IsRun l.chars := by
  induction cs generalizing offset with
  | nil => exact nofun
  | cons c cs ih =>
    rcases char_cases c with hblank | rfl | rfl | hc
    · rw [scan_blank hblank]
      exact ih
    · rw [scan_opening]
      exact List.forall_mem_cons.mpr ⟨nofun, ih⟩
    · rw [scan_closing]
      exact List.forall_mem_cons.mpr ⟨nofun, ih⟩
    · rw [scan_atomChar hc]
      refine forall_mem_join (fun _ => ⟨by simp, by simpa using hc⟩) (fun l hl hkind _ => ?_) ih
      exact ⟨by simp, List.forall_mem_cons.mpr ⟨hc, (ih l hl hkind).atomChars⟩⟩

theorem le_start_of_mem_scan : ∀ l ∈ scan offset cs, offset ≤ l.start := by
  induction cs generalizing offset with
  | nil => exact nofun
  | cons c cs ih =>
    have hlater : ∀ l ∈ scan (offset + c.utf8Size) cs, offset ≤ l.start :=
      fun l hl => Nat.le_trans (Nat.le_add_right ..) (ih l hl)
    rcases char_cases c with hblank | rfl | rfl | hc
    · rw [scan_blank hblank]
      exact hlater
    · rw [scan_opening]
      exact List.forall_mem_cons.mpr ⟨Nat.le_refl _, hlater⟩
    · rw [scan_closing]
      exact List.forall_mem_cons.mpr ⟨Nat.le_refl _, hlater⟩
    · rw [scan_atomChar hc]
      exact forall_mem_join (Nat.le_refl _) (fun _ _ _ => Nat.le_refl _) hlater

theorem lt_start_of_mem_scan (h : IsBorder cs) :
    ∀ l ∈ scan offset cs, l.kind = .atom → offset < l.start := by
  cases cs with
  | nil => exact nofun
  | cons c cs =>
    have hlater : ∀ l ∈ scan (offset + c.utf8Size) cs, l.kind = .atom → offset < l.start := by
      intro l hl _
      have hsize := c.utf8Size_pos
      have hstart := le_start_of_mem_scan l hl
      omega
    have hc : isAtomChar c = false := h c rfl
    rcases char_cases c with hblank | rfl | rfl | hatom
    · rw [scan_blank hblank]
      exact hlater
    · rw [scan_opening]
      exact List.forall_mem_cons.mpr ⟨nofun, hlater⟩
    · rw [scan_closing]
      exact List.forall_mem_cons.mpr ⟨nofun, hlater⟩
    · rw [hc] at hatom
      cases hatom

/-- A character joins the first of the lexemes after it, if any. -/
theorem join_append {ls' : List Lexeme} (h : ls = [] → ∀ l ∈ ls', l.kind = .atom →
    offset + c.utf8Size < l.start) : join offset c (ls ++ ls') = join offset c ls ++ ls' := by
  cases ls with
  | nil =>
    cases ls' with
    | nil => rfl
    | cons next rest =>
      have hapart : ¬(next.kind = .atom ∧ next.start = offset + c.utf8Size) := by
        rintro ⟨hkind, hstart⟩
        have hlt := h rfl next (by simp) hkind
        omega
      simp [join, hapart]
  | cons next rest =>
    simp only [List.cons_append, join]
    split <;> rfl

theorem scan_append (h : IsBorder ds) :
    scan offset (cs ++ ds) = scan offset cs ++ scan (offset + byteLength cs) ds := by
  induction cs generalizing offset with
  | nil => rfl
  | cons c cs ih =>
    have hlength : offset + byteLength (c :: cs) = offset + c.utf8Size + byteLength cs := by
      rw [Text.byteLength_cons, Nat.add_assoc]
    rw [List.cons_append, hlength]
    rcases char_cases c with hblank | rfl | rfl | hc
    · rw [scan_blank hblank, scan_blank hblank, ih]
    · rw [scan_opening, scan_opening, List.cons_append]
      exact congrArg _ ih
    · rw [scan_closing, scan_closing, List.cons_append]
      exact congrArg _ ih
    · rw [scan_atomChar hc, scan_atomChar hc, ih]
      apply join_append
      intro _ l hl hatom
      have hlt := lt_start_of_mem_scan h l hl hatom
      omega

theorem scan_blanks {bs : List Char} (h : ∀ c ∈ bs, isTokenBlank c) :
    scan offset (bs ++ cs) = scan (offset + byteLength bs) cs := by
  induction bs generalizing offset with
  | nil => rfl
  | cons b bs ih =>
    obtain ⟨hb, hbs⟩ := List.forall_mem_cons.mp h
    rw [List.cons_append, scan_blank hb, ih hbs, Text.byteLength_cons, Nat.add_assoc]

theorem isBorder_of_blanks {bs : List Char} (h : ∀ c ∈ bs, isTokenBlank c) (hne : bs ≠ [])
    (cs : List Char) : IsBorder (bs ++ cs) := by
  cases bs with
  | nil => exact absurd rfl hne
  | cons b bs =>
    intro c hc
    cases hc
    simp [isAtomChar, h b (by simp)]

theorem scan_append_blanks {bs : List Char} (h : ∀ c ∈ bs, isTokenBlank c) (hne : bs ≠ [])
    (offset : Nat) (cs ds : List Char) : scan offset (cs ++ (bs ++ ds)) =
      scan offset cs ++ scan (offset + byteLength (cs ++ bs)) ds := by
  rw [scan_append (isBorder_of_blanks h hne ds), scan_blanks h, Text.byteLength_append,
    Nat.add_assoc]

theorem join_shift (k : Nat) :
    join (offset + k) c (ls.map (shift k)) = (join offset c ls).map (shift k) := by
  cases ls with
  | nil => rfl
  | cons next rest =>
    have hstart : next.start + k = offset + k + c.utf8Size ↔ next.start = offset + c.utf8Size := by
      omega
    simp only [List.map_cons, join, shift, hstart]
    split <;> rfl

theorem scan_shift (k : Nat) : scan (offset + k) cs = (scan offset cs).map (shift k) := by
  induction cs generalizing offset with
  | nil => rfl
  | cons c cs ih =>
    have hnext : scan (offset + k + c.utf8Size) cs =
        (scan (offset + c.utf8Size) cs).map (shift k) := by
      rw [Nat.add_right_comm, ih]
    rcases char_cases c with hblank | rfl | rfl | hc
    · rw [scan_blank hblank, scan_blank hblank, hnext]
    · rw [scan_opening, scan_opening, List.map_cons]
      exact congrArg _ hnext
    · rw [scan_closing, scan_closing, List.map_cons]
      exact congrArg _ hnext
    · rw [scan_atomChar hc, scan_atomChar hc, hnext, join_shift]

end Scan

end Lexeme

open Lexeme

namespace Text

/-- The shapes that characters fall into. -/
def shapes (cs : List Char) : List Shape := (scan 0 cs).map shape

variable {c : Char} {cs ds : List Char}

theorem map_shape_scan (offset : Nat) (cs : List Char) :
    (scan offset cs).map shape = shapes cs := by
  rw [← Nat.zero_add offset, scan_shift, List.map_map]
  rfl

@[simp] theorem shapes_nil : shapes [] = [] := rfl

@[simp] theorem shapes_opening (cs : List Char) :
    shapes ('(' :: cs) = (.opening, ['(']) :: shapes cs := by
  unfold shapes
  rw [scan_opening, List.map_cons, map_shape_scan, map_shape_scan]
  rfl

@[simp] theorem shapes_closing (cs : List Char) :
    shapes (')' :: cs) = (.closing, [')']) :: shapes cs := by
  unfold shapes
  rw [scan_closing, List.map_cons, map_shape_scan, map_shape_scan]
  rfl

theorem shapes_append (h : IsBorder ds) : shapes (cs ++ ds) = shapes cs ++ shapes ds := by
  unfold shapes
  rw [scan_append h, List.map_append, map_shape_scan (0 + byteLength cs)]
  rfl

/-- Blanks keep what is before them apart from what is after them. -/
theorem shapes_append_blanks {bs : List Char} (h : ∀ c ∈ bs, isTokenBlank c) (hne : bs ≠ [])
    (cs ds : List Char) : shapes (cs ++ (bs ++ ds)) = shapes cs ++ shapes ds := by
  unfold shapes
  rw [scan_append_blanks h hne, List.map_append, map_shape_scan (0 + byteLength (cs ++ bs))]
  rfl

theorem scan_run (offset : Nat) (h : ∀ c ∈ cs, isAtomChar c) (hne : cs ≠ []) :
    scan offset cs = [⟨.atom, offset, cs⟩] := by
  induction cs generalizing offset with
  | nil => exact absurd rfl hne
  | cons c cs ih =>
    rw [scan_atomChar (h c (by simp))]
    by_cases hnil : cs = []
    · rw [hnil]
      rfl
    · rw [ih _ (fun d hd => h d (by simp [hd])) hnil]
      simp [join]

theorem shapes_run (h : IsRun cs) : shapes cs = [(.atom, cs)] := by
  unfold shapes
  rw [scan_run 0 h.atomChars h.ne_nil]
  rfl

end Text

namespace Token

open Text

def shape (t : Token) : Shape := (t.kind, t.text.toList)

theorem shapes_ofLine (number : Nat) (line : String) :
    (ofLine number line).map shape = shapes line.toList := by
  unfold ofLine Text.shapes
  rw [List.map_map]
  congr 1
  funext l
  simp [shape, Lexeme.shape, Lexeme.toToken]

theorem isRun_of_mem_ofLines {number : Nat} {lines : List String} :
    ∀ t ∈ ofLines number lines, t.kind = .atom → IsRun t.text.toList := by
  induction lines generalizing number with
  | nil => exact nofun
  | cons line rest ih =>
    intro t ht hatom
    rcases List.mem_append.mp ht with ht | ht
    · obtain ⟨l, hl, rfl⟩ := List.mem_map.mp ht
      simpa [Lexeme.toToken] using isRun_of_mem_scan l hl hatom
    · exact ih t ht hatom

end Token

end LexicalLisp
