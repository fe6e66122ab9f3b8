import IndexQuery.Filter
import IndexQuery.Index
import IndexQuery.Statement

/-!
# Queries

A query on an index, extended call by call.  A call gives a new query or an error, and leaves the
query it is made on as it was.
-/

namespace IndexQuery

/-- A query on an index. -/
structure Query where
  index : Index
  base : Select
  clauses : Clauses
  /-- How many rows are skipped. -/
  offset : UInt64
  /-- How many rows are returned at most. -/
  limit : Option UInt64

namespace Index

/-- A query on top of a base query, whose range of rows is replaced by the index's. -/
def queryWith (i : Index) (base : Select) : Except Error Query := do
  let options ← i.settings.optionSet
  let limit := i.settings.defaultLimit
  return ⟨i, base.withLimits 0 limit, .ofOptions options, 0, limit⟩

/-- The query for every document of an index. -/
def query (i : Index) : Except Error Query :=
  i.queryWith (.new i.schema.index i.schema.resultColumns)

end Index

namespace Query

/-! ## Filters -/

/-- The query with one more predicate, in the form that it takes. -/
def withForm (q : Query) : PredicateForm → Except Error Query
  | .fragment f => .ok { q with clauses := q.clauses.withFragment f }
  | .search scope terms => .ok { q with clauses := q.clauses.withMatch scope terms }
  | .comparison p => do
    let c ← Condition.ofLookup p.field p.operator p.operand
    return { q with base := q.base.withCondition c }

/-- The query for the rows that a predicate selects. -/
def withPredicate (q : Query) (p : Predicate) : Except Error Query := do
  q.withForm (← p.form q.index.settings.marker)

/-- The query for the rows that a lookup selects. -/
def withLookup (q : Query) (key : String) (x : Operand) : Except Error Query := do
  let (f, op) ← q.index.resolver.resolve key
  q.withPredicate ⟨f, op, x⟩

/-- The query for the rows that a lookup does not select. -/
def withoutLookup (q : Query) (key : String) (x : Operand) : Except Error Query := do
  let (f, op) ← q.index.resolver.resolveNegated key
  let q ← q.withPredicate ⟨f, op, x⟩
  return { q with clauses := q.clauses.withNegation }

/-- The query for the rows in which a field differs from a value. -/
def withInequality (q : Query) (key : String) (x : Operand) : Except Error Query := do
  let f ← q.index.resolver.resolvePlain key
  q.withPredicate ⟨f, .notEqual, x⟩

/-- The query for the rows that every lookup selects. -/
def filter (q : Query) (lookups : List (String × Operand)) : Except Error Query :=
  lookups.foldlM (fun q (key, x) => q.withLookup key x) q

/-- The query for the rows that no lookup selects; complements are written with the inverse
operators. -/
def exclude (q : Query) (lookups : List (String × Operand)) : Except Error Query :=
  lookups.foldlM (fun q (key, x) => q.withoutLookup key x) q

/-- The query for the rows in which each field differs from its value. -/
def notEqual (q : Query) (lookups : List (String × Operand)) : Except Error Query :=
  lookups.foldlM (fun q (key, x) => q.withInequality key x) q

/-- The query for the rows that a filter selects. -/
def filterBy (q : Query) : Filter → Except Error Query
  | .lookup key x => q.filter [(key, x)]
  | group => do
    let c ← group.toCondition q.index.resolver q.index.settings.marker
    return { q with base := q.base.withCondition c }

/-- The query for the rows that no filter selects, none of which may be a group. -/
def excludeBy (q : Query) (fs : List Filter) : Except Error Query :=
  let groups := fs.countP Filter.isGroup
  if 0 < groups then .error (.compoundNegation groups)
  else q.exclude (fs.filterMap Filter.lookup?)

/-! ## Search terms -/

/-- The query with search terms for a scope. -/
def withMatch (q : Query) (scope : MatchScope) (terms : List String) : Query :=
  { q with clauses := q.clauses.withMatch scope terms }

/-- The query for documents with the given terms. -/
def matchText (q : Query) (terms : List String) : Query := q.withMatch .anywhere terms

/-- The scope of a field. -/
def scopeOf (q : Query) (field : String) : Except Error MatchScope := do
  let f ← q.index.resolver.resolveField field
  return .column f.storageColumn

/-- The query for documents with the given terms in a field. -/
def matchField (q : Query) (field : String) (terms : List String) : Except Error Query := do
  return q.withMatch (← q.scopeOf field) terms

/-- The query for documents with free terms and with terms in fields; all fields are resolved
first. -/
def matchAll (q : Query) (free : List String) (byField : List (String × List String)) :
    Except Error Query := do
  let scopes ← byField.mapM fun (field, terms) => do return (← q.scopeOf field, terms)
  return scopes.foldl (fun q (scope, terms) => q.withMatch scope terms) (q.matchText free)

/-! ## Options, order and range -/

/-- The query with options set in order. -/
def setOptions (q : Query) (options : List (String × OptionValue)) : Except Error Query :=
  options.foldlM (fun q (name, value) => do
    return { q with clauses := ← q.clauses.withOption name value }) q

/-- The field name of a sort term, and whether a minus in front asks for descending order. -/
def splitOrder (term : String) : String × Bool :=
  match term.toList with
  | '-' :: r => (String.ofList r, true)
  | _ => (term, false)

/-- The column that a sort term names; full-text fields cannot be sorted by. -/
def orderTerm (q : Query) (term : String) : Except Error OrderTerm := do
  let (name, descending) := splitOrder term
  let f ← q.index.resolver.resolveField name
  if f.isFullText then .error (.unsupportedLookup f.name "order_by")
  return ⟨f.storageColumn, descending⟩

/-- The query in the order of the given terms, in place of any other. -/
def orderBy (q : Query) (terms : List String) : Except Error Query := do
  return { q with base := q.base.withOrderBy (← terms.mapM q.orderTerm) }

/-- The query for at most `count` rows, and no more than the index allows. -/
def take (q : Query) (count : UInt64) : Query :=
  let limit := some (q.index.settings.clamp count)
  { q with limit := limit, base := q.base.withLimits q.offset limit }

/-- The query without its first `count` rows.  A query without limit takes the greatest one. -/
def skip (q : Query) (count : UInt64) : Query :=
  let limit := some (q.limit.getD q.index.settings.maxLimit)
  { q with offset := count, limit := limit, base := q.base.withLimits count limit }

/-! ## Running -/

/-- The statement of a query. -/
def compile (q : Query) : Except Error Statement := Statement.compile q.base q.clauses

/-- The rows that a daemon returns for a query. -/
def fetch {Row : Type} (q : Query) (execute : Statement → Except String (List Row)) :
    Except Error (List Row) := do
  let statement ← q.compile
  (execute statement).mapError Error.execution

end Query

end IndexQuery
