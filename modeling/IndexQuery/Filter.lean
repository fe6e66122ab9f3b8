import IndexQuery.Predicate
import IndexQuery.Resolution

/-!
# Filters

Lookups joined by groups, and the condition that such a tree is.
-/

namespace IndexQuery

/-- A lookup or a group of filters. -/
inductive Filter where
  | lookup (key : String) (x : Operand)
  /-- Every filter of a list holds. -/
  | all (fs : List Filter)
  /-- Some filter of a list holds. -/
  | any (fs : List Filter)

namespace Filter

/-- Whether a filter is a group. -/
def isGroup : Filter → Bool
  | .lookup .. => false
  | .all _ | .any _ => true

/-- The lookup that a filter is. -/
def lookup? : Filter → Option (String × Operand)
  | .lookup key x => some (key, x)
  | .all _ | .any _ => none

/-- The condition for the form of a predicate within a group; search terms cannot stand in one. -/
def nestedCondition (p : Predicate) : PredicateForm → Except Error Condition
  | .fragment f => .ok (.raw f)
  | .search _ _ =>
    .error (.unsupportedLookup p.field.name (p.operator.name ++ " inside a compound filter"))
  | .comparison q => Condition.ofLookup q.field q.operator q.operand

/-- The condition for a lookup within a group. -/
def lookupCondition (r : Resolver) (marker key : String) (x : Operand) :
    Except Error Condition := do
  let (f, op) ← r.resolve key
  let p : Predicate := ⟨f, op, x⟩
  nestedCondition p (← p.form marker)

mutual

/-- The condition that a filter is. -/
def toCondition (r : Resolver) (marker : String) : Filter → Except Error Condition
  | .lookup key x => lookupCondition r marker key x
  | .all fs => (toConditions r marker fs).map .all
  | .any fs => (toConditions r marker fs).map .any

/-- The conditions that filters are. -/
def toConditions (r : Resolver) (marker : String) : List Filter → Except Error (List Condition)
  | [] => .ok []
  | f :: fs => do
    let c ← toCondition r marker f
    let cs ← toConditions r marker fs
    return c :: cs

end

end Filter

end IndexQuery
