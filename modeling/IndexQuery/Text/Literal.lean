/-!
# Single-quoted literals

How a statement's text is read with respect to quotes: outside a literal, inside one, or behind
the backslash that escapes the next character of one.  A placeholder `?` counts only outside.
`escape` writes a text so that it can stand between quotes.

    p.after (cs ++ ds) = (p.after cs).after ds                                     (after_append)
    placeholdersFrom p (cs ++ ds) =
      placeholdersFrom p cs + placeholdersFrom (p.after cs) ds           (placeholdersFrom_append)
    Place.literal.after (escape cs) = .literal                                     (after_escape)
    escape (cs ++ ds) = escape cs ++ escape ds                                    (escape_append)
-/

namespace IndexQuery.Text

/-! ## Algorithm -/

/-- Where a reader of statement text stands between two characters. -/
inductive Place where
  /-- Outside every literal. -/
  | outside
  /-- Inside a literal. -/
  | literal
  /-- Inside a literal, behind a backslash. -/
  | escaped
  deriving DecidableEq, Repr

/-- Where the reader stands after one more character. -/
def Place.next : Place → Char → Place
  | .outside, c => if c = '\'' then .literal else .outside
  | .literal, c => if c = '\\' then .escaped else if c = '\'' then .outside else .literal
  | .escaped, _ => .literal

/-- Where the reader stands after all of `cs`. -/
def Place.after (p : Place) (cs : List Char) : Place := cs.foldl Place.next p

/-- The character that stands for a bound parameter. -/
def placeholder : Char := '?'

/-- How many placeholders a reader finds in the text when it starts at the given place. -/
def placeholdersFrom : Place → List Char → Nat
  | _, [] => 0
  | p, c :: r => (if p = .outside ∧ c = placeholder then 1 else 0) + placeholdersFrom (p.next c) r

/-- A character that a literal holds only behind a backslash. -/
def needsEscape (c : Char) : Bool := c == '\'' || c == '\\'

/-- The text with a backslash before each quote and each backslash. -/
def escape : List Char → List Char
  | [] => []
  | c :: r => if needsEscape c then '\\' :: c :: escape r else c :: escape r

/-! ## Lemmas -/

theorem after_nil (p : Place) : p.after [] = p := rfl

theorem after_cons (p : Place) (c : Char) (r : List Char) :
    p.after (c :: r) = (p.next c).after r := rfl

theorem after_append (p : Place) (cs ds : List Char) :
    p.after (cs ++ ds) = (p.after cs).after ds := by
  simp [Place.after]

theorem placeholdersFrom_append (p : Place) (cs ds : List Char) :
    placeholdersFrom p (cs ++ ds) =
      placeholdersFrom p cs + placeholdersFrom (p.after cs) ds := by
  induction cs generalizing p with
  | nil => simp [placeholdersFrom, after_nil]
  | cons c r ih => simp [placeholdersFrom, ih, after_cons, Nat.add_assoc]

theorem escape_append (cs ds : List Char) : escape (cs ++ ds) = escape cs ++ escape ds := by
  induction cs with
  | nil => rfl
  | cons c r ih => by_cases h : needsEscape c = true <;> simp [escape, h, ih]

/-- In a text without quotes and backslashes there is nothing to escape. -/
theorem escape_of_plain {cs : List Char} (h : ∀ c ∈ cs, needsEscape c = false) :
    escape cs = cs := by
  induction cs with
  | nil => rfl
  | cons c r ih =>
    have hc : ¬needsEscape c = true := by simp [h c List.mem_cons_self]
    rw [escape, if_neg hc, ih fun d hd => h d (List.mem_cons_of_mem c hd)]

/-- A character that needs no escape leaves a reader inside a literal where it is. -/
theorem next_literal {c : Char} (h : ¬needsEscape c = true) :
    Place.literal.next c = .literal := by
  have hc : c ≠ '\'' ∧ c ≠ '\\' := by simpa [needsEscape] using h
  simp [Place.next, hc.1, hc.2]

theorem after_escape (cs : List Char) : Place.literal.after (escape cs) = .literal := by
  induction cs with
  | nil => rfl
  | cons c r ih =>
    by_cases h : needsEscape c
    · simp only [escape, h, if_true, after_cons]
      exact ih
    · rw [escape, if_neg h, after_cons, next_literal h, ih]

end IndexQuery.Text
