/-!
# Lookup operators

The operators of a lookup: their names in keys, their symbols in statements, and the comparison
that selects the complement.

    ofName? o.name = some o                                                 (ofName?_name)
-/

namespace IndexQuery

/-- An operator of a lookup. -/
inductive Operator where
  /-- Equality, which a lookup means unless it names another operator. -/
  | exact
  | greater
  | greaterEqual
  | less
  | lessEqual
  /-- Membership in a list of values. -/
  | oneOf
  /-- Full-text search. -/
  | search
  | notEqual
  deriving DecidableEq, Repr

namespace Operator

/-- Every operator. -/
def all : List Operator :=
  [.exact, .greater, .greaterEqual, .less, .lessEqual, .oneOf, .search, .notEqual]

/-- The name of an operator in a lookup key. -/
def name : Operator → String
  | .exact => "exact"
  | .greater => "gt"
  | .greaterEqual => "gte"
  | .less => "lt"
  | .lessEqual => "lte"
  | .oneOf => "in"
  | .search => "search"
  | .notEqual => "notequal"

/-- The operator with a name. -/
def ofName? (s : String) : Option Operator := all.find? fun o => o.name == s

/-- The symbol of a comparison between a column and one value. -/
def symbol? : Operator → Option String
  | .exact => some "="
  | .greater => some ">"
  | .greaterEqual => some ">="
  | .less => some "<"
  | .lessEqual => some "<="
  | .notEqual => some "<>"
  | .oneOf | .search => none

/-- The operator that selects the complement, for equality and the four orderings. -/
def inverse? : Operator → Option Operator
  | .exact => some .notEqual
  | .greater => some .lessEqual
  | .greaterEqual => some .less
  | .less => some .greaterEqual
  | .lessEqual => some .greater
  | .oneOf | .search | .notEqual => none

/-! ## Lemmas -/

theorem ofName?_name (o : Operator) : ofName? o.name = some o := by
  cases o <;> decide

theorem name_of_ofName? {s : String} {o : Operator} (h : ofName? s = some o) : o.name = s := by
  have := List.find?_some h
  simpa using this

end Operator

end IndexQuery
