/-!
# Occurrences of a text inside another

    occursIn pat cs = true ↔ pat <:+: cs      (occursIn_eq_true_iff)
-/

namespace IndexQuery.Text

/-- Whether `pat` stands somewhere in `cs` as one unbroken run. -/
def occursIn (pat : List Char) : List Char → Bool
  | [] => pat.isEmpty
  | c :: r => pat.isPrefixOf (c :: r) || occursIn pat r

theorem occursIn_eq_true_iff {pat cs : List Char} :
    occursIn pat cs = true ↔ pat <:+: cs := by
  induction cs with
  | nil => simp [occursIn, List.isEmpty_iff]
  | cons c r ih =>
    simp [occursIn, ih, List.infix_cons_iff, List.isPrefixOf_iff_prefix]

end IndexQuery.Text
