/-!
# Sorted lists of names

Names are listed in strictly increasing order of their code points, which is
also the order of their UTF-8 bytes, each name once.
-/

namespace LexicalLisp.Text

/-- Puts a name at its place in a sorted list, unless it is there already. -/
def insertName (name : String) : List String → List String
  | [] => [name]
  | other :: rest =>
    if name < other then name :: other :: rest
    else if name = other then other :: rest
    else other :: insertName name rest

theorem mem_insertName {x name : String} {names : List String} :
    x ∈ insertName name names ↔ x = name ∨ x ∈ names := by
  induction names with
  | nil => simp [insertName]
  | cons other rest ih =>
    simp only [insertName]
    split
    · simp
    · split
      · simp_all
      · simp [ih, or_left_comm]

/-- The names of a list in increasing order, each once. -/
def sortNames (names : List String) : List String :=
  names.foldr insertName []

@[simp] theorem mem_sortNames {x : String} {names : List String} :
    x ∈ sortNames names ↔ x ∈ names := by
  induction names with
  | nil => rfl
  | cons name names ih => simpa [sortNames, mem_insertName] using or_congr_right ih

end LexicalLisp.Text
