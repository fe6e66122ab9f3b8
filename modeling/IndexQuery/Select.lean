import IndexQuery.Condition

/-!
# The base query

The columns to return, the conditions on them, the order and the range of rows.
-/

namespace IndexQuery

open Text

/-- A column to sort by. -/
structure OrderTerm where
  column : String
  descending : Bool
  deriving DecidableEq, Repr

/-- A query on the columns of an index. -/
structure Select where
  index : String
  columns : List String
  conditions : List Condition
  orderBy : List OrderTerm
  /-- How many rows are skipped. -/
  offset : UInt64
  /-- How many rows are returned at most. -/
  limit : Option UInt64

namespace Select

/-- The query for all rows. -/
def new (index : String) (columns : List String) : Select := ⟨index, columns, [], [], 0, none⟩

/-- The query with one more condition. -/
def withCondition (b : Select) (c : Condition) : Select :=
  { b with conditions := b.conditions ++ [c] }

/-- The query in another order. -/
def withOrderBy (b : Select) (terms : List OrderTerm) : Select := { b with orderBy := terms }

/-- The query for another range of rows. -/
def withLimits (b : Select) (offset : UInt64) (limit : Option UInt64) : Select :=
  { b with offset := offset, limit := limit }

/-- The columns of an index, all of them if none is named. -/
def selectClause (b : Select) : String :=
  "SELECT " ++ (if b.columns.isEmpty then "*" else ", ".intercalate b.columns) ++ " FROM " ++
    b.index

/-- All conditions. -/
def whereFragment (b : Select) : Fragment := .conjunction (b.conditions.map Condition.toFragment)

/-- A column to sort by, with its direction. -/
def orderText (t : OrderTerm) : String := t.column ++ (if t.descending then " DESC" else " ASC")

/-- The order, if any. -/
def orderClause? (b : Select) : Option String :=
  if b.orderBy.isEmpty then none
  else some ("ORDER BY " ++ ", ".intercalate (b.orderBy.map orderText))

/-- The range of rows, if a limit is set. -/
def limitClause? (b : Select) : Option String :=
  b.limit.map fun n =>
    if 0 < b.offset then "LIMIT " ++ decimal b.offset.toNat ++ ", " ++ decimal n.toNat
    else "LIMIT " ++ decimal n.toNat

/-- The order and the range of rows, if any. -/
def tailClause? (b : Select) : Option String :=
  match b.orderClause?, b.limitClause? with
  | none, none => none
  | some o, none => some o
  | none, some l => some l
  | some o, some l => some (o ++ " " ++ l)

end Select

end IndexQuery
