import IndexQuery.Error
import IndexQuery.Param
import IndexQuery.Text.Literal
import IndexQuery.Text.Occurrence

/-!
# Fragments of a statement

A fragment is condition text together with the parameters of its placeholders, in order.  Fragments
are joined by `AND` and `OR`; one without text adds nothing to the text.

    (f.and g).params = f.params ++ g.params                                       (params_and)
    (f.and g).and h = f.and (g.and h)                                              (and_assoc)
    empty.and f = f, f.and empty = f                                 (empty_and, and_empty)
-/

namespace IndexQuery

open Text

/-- Condition text with the parameters of its placeholders. -/
structure Fragment where
  sql : String
  params : List Param
  deriving DecidableEq, Repr

namespace Fragment

/-! ## Algorithm -/

/-- The fragment without text and parameters. -/
def empty : Fragment := ⟨"", []⟩

/-- Whether there is no text. -/
def isEmpty (f : Fragment) : Bool := f.sql == ""

/-- The number of placeholders outside literals. -/
def placeholders (f : Fragment) : Nat := placeholdersFrom .outside f.sql.toList

/-- Accepts a fragment that has as many parameters as placeholders. -/
def validate (f : Fragment) : Except Error Unit :=
  if f.placeholders = f.params.length then .ok ()
  else .error (.malformedFragment f.sql f.placeholders f.params.length)

/-- The text of two conditions of which both hold. -/
def andText (a b : String) : String :=
  if a = "" then b else if b = "" then a else a ++ " AND " ++ b

/-- The text of two conditions of which one holds. -/
def orText (a b : String) : String :=
  if a = "" then b else if b = "" then a else "(" ++ a ++ ") OR (" ++ b ++ ")"

/-- Both conditions. -/
def and (f g : Fragment) : Fragment := ⟨andText f.sql g.sql, f.params ++ g.params⟩

/-- One of two conditions. -/
def or (f g : Fragment) : Fragment := ⟨orText f.sql g.sql, f.params ++ g.params⟩

/-- Whether the text shows a connective between blanks. -/
def isCompound (f : Fragment) : Bool :=
  occursIn " AND ".toList f.sql.toList || occursIn " OR ".toList f.sql.toList

/-- The condition between parentheses if it is compound. -/
def parenthesize (f : Fragment) : Fragment :=
  if f.isCompound then ⟨"(" ++ f.sql ++ ")", f.params⟩ else f

/-- All conditions of a list. -/
def conjunction (fs : List Fragment) : Fragment := (fs.map parenthesize).foldl and empty

/-- One condition of a list. -/
def disjunction : List Fragment → Fragment
  | [] => empty
  | f :: fs => fs.foldl or f

/-- Placeholders for a list of values. -/
def placeholderList (count : Nat) : String := ", ".intercalate (List.replicate count "?")

/-! ## Lemmas -/

theorem andText_assoc (a b c : String) :
    andText (andText a b) c = andText a (andText b c) := by
  unfold andText
  by_cases ha : a = "" <;> by_cases hb : b = "" <;> by_cases hc : c = "" <;>
    simp [ha, hb, hc, String.append_assoc]

theorem params_and (f g : Fragment) : (f.and g).params = f.params ++ g.params := rfl

theorem params_or (f g : Fragment) : (f.or g).params = f.params ++ g.params := rfl

theorem and_assoc (f g h : Fragment) : (f.and g).and h = f.and (g.and h) := by
  simp [and, andText_assoc, List.append_assoc]

theorem empty_and (f : Fragment) : empty.and f = f := by
  simp [and, andText, empty]

theorem and_empty (f : Fragment) : f.and empty = f := by
  cases f with
  | mk sql params => by_cases h : sql = "" <;> simp [and, andText, empty, h]

theorem params_parenthesize (f : Fragment) : f.parenthesize.params = f.params := by
  unfold parenthesize
  split <;> rfl

end Fragment

end IndexQuery
