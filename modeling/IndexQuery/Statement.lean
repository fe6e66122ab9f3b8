import IndexQuery.Clauses
import IndexQuery.Select

/-!
# Statements

A statement is the text that the search daemon runs, with the parameters of its placeholders in
order.  The conditions of the base query come first, then the fragments, then the search terms as
one bound parameter.
-/

namespace IndexQuery

/-- Statement text with its parameters. -/
structure Statement where
  sql : String
  params : List Param
  deriving DecidableEq, Repr

namespace Statement

/-- A fragment joined to the condition so far, once it is found to be well formed. -/
def join (condition f : Fragment) : Except Error Fragment := do
  f.validate
  return condition.and f

/-- The condition that search terms are, if there are any. -/
def matchFragment (e : MatchExpr) : Fragment :=
  match e.queryText? with
  | none => .empty
  | some text => ⟨"MATCH(?)", [.string text]⟩

/-- The whole condition of a query. -/
def condition (b : Select) (c : Clauses) : Except Error Fragment := do
  b.whereFragment.validate
  let joined ← c.fragments.foldlM join b.whereFragment
  return joined.and (matchFragment c.matching)

/-- A clause behind a blank, or nothing. -/
def trailing : Option String → String
  | none => ""
  | some clause => " " ++ clause

/-- The text of a statement with the given condition. -/
def text (b : Select) (c : Clauses) (condition : Fragment) : String :=
  b.selectClause ++ (if condition.isEmpty then "" else " WHERE " ++ condition.sql) ++
    trailing b.tailClause? ++ trailing c.options.clause?

/-- The statement for a base query and the clauses added to it. -/
def compile (b : Select) (c : Clauses) : Except Error Statement :=
  (condition b c).map fun f => ⟨text b c f, f.params⟩

end Statement

end IndexQuery
