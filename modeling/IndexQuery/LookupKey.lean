import IndexQuery.Error
import IndexQuery.Text.Occurrence

/-!
# Lookup keys

A key names a field and, behind a double underscore, an operator.  Separators are found from the
left and do not overlap, so of three underscores the first two separate.

    pieces cs = [cs] ↔ occursIn separator.toList cs = false               (pieces_eq_singleton_iff)
-/

namespace IndexQuery

/-- A key taken apart. -/
structure LookupKey where
  field : String
  /-- The name of the operator, if the key has one. -/
  operator : Option String
  deriving DecidableEq, Repr

namespace LookupKey

open Text

/-! ## Algorithm -/

/-- What stands between the field and the operator of a key. -/
def separator : String := "__"

/-- Puts a character in front of the first piece. -/
def consPiece (c : Char) : List (List Char) → List (List Char)
  | [] => [[c]]
  | p :: ps => (c :: p) :: ps

/-- The pieces of a text between separators. -/
def pieces : List Char → List (List Char)
  | [] => [[]]
  | '_' :: '_' :: r => [] :: pieces r
  | c :: r => consPiece c (pieces r)

/-- Whether a text holds the separator. -/
def hasSeparator (s : String) : Bool := occursIn separator.toList s.toList

/-- The key without checks, if it has no more than one separator. -/
def split? (key : String) : Option LookupKey :=
  match pieces key.toList with
  | [field] => some ⟨String.ofList field, none⟩
  | [field, operator] => some ⟨String.ofList field, some (String.ofList operator)⟩
  | _ => none

/-- Takes a key apart. -/
def parse (key : String) : Except Error LookupKey :=
  match split? key with
  | none => .error (.invalidLookup key "nested lookups not supported")
  | some k =>
    if k.field = "" ∨ k.operator = some "" then
      .error (.invalidLookup key "empty field or operator")
    else .ok k

/-! ## Lemmas -/

theorem consPiece_ne_nil (c : Char) (ps : List (List Char)) : consPiece c ps ≠ [] := by
  cases ps <;> simp [consPiece]

theorem pieces_ne_nil (cs : List Char) : pieces cs ≠ [] := by
  fun_cases pieces cs <;> simp [consPiece_ne_nil]

theorem consPiece_eq_singleton_iff {c : Char} {p : List Char} {ps : List (List Char)}
    (h : ps ≠ []) : consPiece c ps = [c :: p] ↔ ps = [p] := by
  cases ps with
  | nil => exact absurd rfl h
  | cons q qs => simp [consPiece]

theorem pieces_eq_singleton_iff {cs : List Char} :
    pieces cs = [cs] ↔ occursIn separator.toList cs = false := by
  rw [show separator.toList = ['_', '_'] by decide]
  fun_induction pieces cs with
  | case1 => decide
  | case2 r => simp [occursIn]
  | case3 c r hc ih =>
    have hp : ['_', '_'].isPrefixOf (c :: r) = false := by
      cases r with
      | nil => simp [List.isPrefixOf]
      | cons d r =>
        simp only [List.isPrefixOf, Bool.and_true, Bool.and_eq_false_iff, beq_eq_false_iff_ne]
        by_cases hd : '_' = d
        · exact .inl fun h => hc r h.symm (by rw [hd])
        · exact .inr hd
    rw [consPiece_eq_singleton_iff (pieces_ne_nil r), ih, occursIn, hp, Bool.false_or]

end LookupKey

end IndexQuery
