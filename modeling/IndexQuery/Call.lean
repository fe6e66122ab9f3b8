import IndexQuery.Query

/-!
# Calls

The calls that extend a query, as data, and their effect one after another.

    q.run (cs ++ ds) = (q.run cs).run ds                                        (run_append)
-/

namespace IndexQuery

/-- A call on a query. -/
inductive Call where
  | filter (lookups : List (String × Operand))
  | exclude (lookups : List (String × Operand))
  | notEqual (lookups : List (String × Operand))
  | filterBy (f : Filter)
  | excludeBy (fs : List Filter)
  | matchText (terms : List String)
  | matchField (field : String) (terms : List String)
  | matchAll (free : List String) (byField : List (String × List String))
  | options (os : List (String × OptionValue))
  | orderBy (terms : List String)
  | take (count : UInt64)
  | skip (count : UInt64)

namespace Query

/-- The query after a call. -/
def apply (q : Query) : Call → Except Error Query
  | .filter lookups => q.filter lookups
  | .exclude lookups => q.exclude lookups
  | .notEqual lookups => q.notEqual lookups
  | .filterBy f => q.filterBy f
  | .excludeBy fs => q.excludeBy fs
  | .matchText terms => .ok (q.matchText terms)
  | .matchField field terms => q.matchField field terms
  | .matchAll free byField => q.matchAll free byField
  | .options os => q.setOptions os
  | .orderBy terms => q.orderBy terms
  | .take count => .ok (q.take count)
  | .skip count => .ok (q.skip count)

/-- The query after a call, or as it was if the call fails. -/
def attempt (q : Query) (c : Call) : Query :=
  match q.apply c with
  | .ok q => q
  | .error _ => q

/-- The query after calls in order, those that fail being left out. -/
def run (q : Query) (cs : List Call) : Query := cs.foldl attempt q

/-- The query after calls in order, all of which must succeed. -/
def applyAll (q : Query) (cs : List Call) : Except Error Query := cs.foldlM apply q

theorem run_append (q : Query) (cs ds : List Call) : q.run (cs ++ ds) = (q.run cs).run ds := by
  simp [run]

end Query

end IndexQuery
