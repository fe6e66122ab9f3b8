import IndexQuery.Fragment
import IndexQuery.MatchExpr
import IndexQuery.Options

/-!
# Search clauses

What a query adds to its base query: fragments of the condition, search terms and options.
-/

namespace IndexQuery

/-- What a query adds to its base query. -/
structure Clauses where
  fragments : List Fragment
  matching : MatchExpr
  options : OptionSet
  /-- How many lookups were negated. -/
  negations : Nat
  deriving DecidableEq, Repr

namespace Clauses

/-- Nothing but the given options. -/
def ofOptions (o : OptionSet) : Clauses := ⟨[], .empty, o, 0⟩

/-- Nothing. -/
def empty : Clauses := ofOptions .empty

/-- One more fragment. -/
def withFragment (c : Clauses) (f : Fragment) : Clauses :=
  { c with fragments := c.fragments ++ [f] }

/-- More search terms. -/
def withMatch (c : Clauses) (scope : MatchScope) (terms : List String) : Clauses :=
  { c with matching := c.matching.add scope terms }

/-- One more option, or another value for it. -/
def withOption (c : Clauses) (name : String) (value : OptionValue) : Except Error Clauses :=
  (c.options.set name value).map fun o => { c with options := o }

/-- One more negated lookup. -/
def withNegation (c : Clauses) : Clauses := { c with negations := c.negations + 1 }

end Clauses

end IndexQuery
