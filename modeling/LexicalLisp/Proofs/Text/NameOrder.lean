import Mathlib.Data.String.Basic
import LexicalLisp.Text.NameList

/-!
# The order of names

A list of names is sorted and has each name once. Names are compared by their code points, and to
compare their encodings byte by byte comes to the same: the first byte of a character tells how
many follow it, characters with more bytes are greater, and among those with equally many the
bytes are the digits of the code point in base 64.
-/

namespace LexicalLisp.Text

section Sorted

variable {name : String} {names : List String}

theorem pairwise_insertName (h : names.Pairwise (· < ·)) :
    (insertName name names).Pairwise (· < ·) := by
  induction names with
  | nil => exact List.pairwise_singleton _ _
  | cons other rest ih =>
    obtain ⟨hother, hrest⟩ := List.pairwise_cons.mp h
    unfold insertName
    split
    · rename_i hlt
      refine List.pairwise_cons.mpr ⟨List.forall_mem_cons.mpr ⟨hlt, fun x hx => ?_⟩, h⟩
      exact hlt.trans (hother x hx)
    · rename_i hnot
      split
      · exact h
      · rename_i hne
        have hlt : other < name := lt_of_le_of_ne (not_lt.mp hnot) (Ne.symm hne)
        refine List.pairwise_cons.mpr ⟨fun x hx => ?_, ih hrest⟩
        rcases mem_insertName.mp hx with rfl | hx
        · exact hlt
        · exact hother x hx

theorem pairwise_sortNames (names : List String) : (sortNames names).Pairwise (· < ·) := by
  induction names with
  | nil => exact .nil
  | cons name names ih => exact pairwise_insertName ih

end Sorted

section Encoding

/-- How many bytes follow the first one in the encoding of a code point. -/
def furtherBytes (v : Nat) : Nat :=
  if v ≤ 127 then 0 else if v ≤ 2047 then 1 else if v ≤ 65535 then 2 else 3

/-- The least first byte that so many bytes follow. -/
def leadMark : Nat → Nat
  | 0 => 0
  | 1 => 192
  | 2 => 224
  | 3 => 240
  | _ => 248

/-- The further bytes: the last digits of the code point in base 64. -/
def furtherDigits : Nat → Nat → List UInt8
  | 0, _ => []
  | n + 1, v => furtherDigits n (v / 64) ++ [UInt8.ofNat (v % 64 + 128)]

/-- The first byte, from the digits that are left. -/
def leadByte (n v : Nat) : UInt8 := UInt8.ofNat (v / 64 ^ n + leadMark n)

theorem toNat_lt (c : Char) : c.toNat < 1114112 := by
  rcases c.valid with h | h
  · exact Nat.lt_trans h (by decide)
  · exact h.2

theorem utf8EncodeChar_eq (c : Char) : String.utf8EncodeChar c =
    leadByte (furtherBytes c.toNat) c.toNat :: furtherDigits (furtherBytes c.toNat) c.toNat := by
  have hc : c.val.toNat < 1114112 := toNat_lt c
  unfold String.utf8EncodeChar furtherBytes
  simp only [Char.toNat]
  split
  · simp [leadByte, leadMark, furtherDigits]
  · split
    · rw [Nat.mod_eq_of_lt (by omega : c.val.toNat / 64 < 32)]
      simp [leadByte, leadMark, furtherDigits]
    · split
      · rw [Nat.mod_eq_of_lt (by omega : c.val.toNat / 4096 < 16)]
        simp [leadByte, leadMark, furtherDigits]
      · rw [Nat.mod_eq_of_lt (by omega : c.val.toNat / 262144 < 8)]
        simp [leadByte, leadMark, furtherDigits, Nat.div_div_eq_div_mul]

theorem furtherBytes_mono {v w : Nat} (h : v ≤ w) : furtherBytes v ≤ furtherBytes w := by
  unfold furtherBytes
  split_ifs <;> omega

theorem lead_lt {v : Nat} (hv : v < 1114112) :
    v / 64 ^ furtherBytes v + leadMark (furtherBytes v) < leadMark (furtherBytes v + 1) := by
  unfold furtherBytes
  split_ifs <;> simp only [leadMark] <;> omega

theorem leadMark_mono : Monotone leadMark := by
  refine monotone_nat_of_le_succ fun n => ?_
  rcases n with _ | _ | _ | _ | n <;> simp [leadMark]

theorem leadMark_le (n : Nat) : leadMark n ≤ 248 := by
  unfold leadMark
  split <;> omega

theorem furtherDigits_lt {v w n : Nat} (h : v < w) {lead : Nat → UInt8}
    (hlead : v / 64 ^ n < w / 64 ^ n → lead (v / 64 ^ n) < lead (w / 64 ^ n)) (xs ys : List UInt8) :
    lead (v / 64 ^ n) :: (furtherDigits n v ++ xs) <
      lead (w / 64 ^ n) :: (furtherDigits n w ++ ys) := by
  induction n generalizing v w xs ys with
  | zero => exact List.cons_lt_cons_iff.mpr (.inl (hlead (by simpa using h)))
  | succ n ih =>
    have hdiv : ∀ u : Nat, u / 64 ^ (n + 1) = u / 64 / 64 ^ n := fun u => by
      rw [Nat.div_div_eq_div_mul, pow_succ']
    rw [hdiv, hdiv] at hlead ⊢
    simp only [furtherDigits, List.append_assoc]
    by_cases hquot : v / 64 < w / 64
    · exact ih hquot hlead _ _
    · -- All digits but the last one are the same.
      have hsame : v / 64 = w / 64 := by omega
      have hlast : UInt8.ofNat (v % 64 + 128) < UInt8.ofNat (w % 64 + 128) := by
        rw [UInt8.ofNat_lt_iff_lt (by simp [UInt8.size]; omega) (by simp [UInt8.size]; omega)]
        omega
      rw [hsame, ← List.cons_append, ← List.cons_append]
      exact List.append_left_lt (List.cons_lt_cons_iff.mpr (.inl hlast))

/-- The first difference between two characters is one between bytes of their encodings, in the
same direction. -/
theorem utf8EncodeChar_append_lt {c d : Char} (h : c < d) (xs ys : List UInt8) :
    String.utf8EncodeChar c ++ xs < String.utf8EncodeChar d ++ ys := by
  have hlt : c.toNat < d.toNat := h
  have hc := lead_lt (toNat_lt c)
  have hd := lead_lt (toNat_lt d)
  have hbyte : ∀ {a b : Nat}, a < b → b < 248 → UInt8.ofNat a < UInt8.ofNat b := by
    intro a b hab hb
    rw [UInt8.ofNat_lt_iff_lt (by simp [UInt8.size]; omega) (by simp [UInt8.size]; omega)]
    exact hab
  rw [utf8EncodeChar_eq, utf8EncodeChar_eq]
  generalize c.toNat = v at *
  generalize d.toNat = w at *
  have hbound := Nat.lt_of_lt_of_le hd (leadMark_le _)
  rcases Nat.lt_or_eq_of_le (furtherBytes_mono (Nat.le_of_lt hlt)) with hfewer | hsame
  · have hmark : leadMark (furtherBytes v + 1) ≤ leadMark (furtherBytes w) := leadMark_mono hfewer
    have hlead : leadByte (furtherBytes v) v < leadByte (furtherBytes w) w :=
      hbyte (Nat.lt_of_lt_of_le hc (hmark.trans (Nat.le_add_left _ _))) hbound
    exact List.cons_lt_cons_iff.mpr (.inl hlead)
  · unfold leadByte
    rw [hsame]
    let lead (q : Nat) : UInt8 := UInt8.ofNat (q + leadMark (furtherBytes w))
    have hlead : v / 64 ^ furtherBytes w < w / 64 ^ furtherBytes w →
        lead (v / 64 ^ furtherBytes w) < lead (w / 64 ^ furtherBytes w) :=
      fun hquot => hbyte (Nat.add_lt_add_right hquot _) hbound
    exact furtherDigits_lt hlt hlead xs ys

theorem flatMap_utf8EncodeChar_lt {cs ds : List Char} (h : cs < ds) :
    cs.flatMap String.utf8EncodeChar < ds.flatMap String.utf8EncodeChar := by
  induction cs generalizing ds with
  | nil =>
    cases ds with
    | nil => exact absurd h (List.lt_irrefl _)
    | cons d ds =>
      rw [List.flatMap_nil, List.flatMap_cons, utf8EncodeChar_eq, List.cons_append]
      exact List.nil_lt_cons _ _
  | cons c cs ih =>
    cases ds with
    | nil => exact absurd h (List.not_lt_nil _)
    | cons d ds =>
      rw [List.flatMap_cons, List.flatMap_cons]
      rcases List.cons_lt_cons_iff.mp h with hlt | ⟨rfl, hlt⟩
      · exact utf8EncodeChar_append_lt hlt _ _
      · exact List.append_left_lt (ih hlt)

end Encoding

def utf8Bytes (name : String) : List UInt8 := name.toUTF8.data.toList

theorem utf8Bytes_eq (name : String) :
    utf8Bytes name = name.toList.flatMap String.utf8EncodeChar := by
  unfold utf8Bytes
  rw [String.toUTF8, ← String.utf8Encode_toList, List.utf8Encode, List.toList_data_toByteArray]

theorem utf8Bytes_lt {a b : String} (h : a < b) : utf8Bytes a < utf8Bytes b := by
  rw [utf8Bytes_eq, utf8Bytes_eq]
  exact flatMap_utf8EncodeChar_lt (String.lt_iff_toList_lt.mp h)

end LexicalLisp.Text
