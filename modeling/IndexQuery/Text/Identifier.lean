/-!
# Identifiers

Names that stand in a statement without quotes: a letter or an underscore, then letters, digits
and underscores, all of them ASCII.

    isIdentifier s = true ↔ ∃ c r, s.toList = c :: r ∧ isHead c ∧ ∀ d ∈ r, isTail d
                                                              (isIdentifier_eq_true_iff)
-/

namespace IndexQuery.Text.Identifier

/-- A character that may open an identifier. -/
def isHead (c : Char) : Bool := c.isAlpha || c == '_'

/-- A character that may follow in an identifier. -/
def isTail (c : Char) : Bool := isHead c || c.isDigit

/-- The letters of `cs` form an identifier. -/
def isSpelling : List Char → Bool
  | [] => false
  | c :: r => isHead c && r.all isTail

end IndexQuery.Text.Identifier

namespace IndexQuery.Text

/-- Whether `s` is a plain ASCII identifier. -/
def isIdentifier (s : String) : Bool := Identifier.isSpelling s.toList

theorem isIdentifier_eq_true_iff {s : String} :
    isIdentifier s = true ↔
      ∃ c r, s.toList = c :: r ∧ Identifier.isHead c = true ∧
        ∀ d ∈ r, Identifier.isTail d = true := by
  unfold isIdentifier
  cases h : s.toList with
  | nil => simp [Identifier.isSpelling]
  | cons c r => simp [Identifier.isSpelling, and_assoc]

end IndexQuery.Text
