import IndexQuery.Condition
import IndexQuery.MatchExpr

/-!
# Predicates and their form in a search

A predicate is a field compared with an operand.  A search lookup becomes search terms, sets of
values are compared through functions, and an inequality is written out; every other predicate is
left to the base query.
-/

namespace IndexQuery

/-- A field compared with an operand. -/
structure Predicate where
  field : Field
  operator : Operator
  operand : Operand
  deriving DecidableEq, Repr

/-- The form that a predicate takes in a search. -/
inductive PredicateForm where
  | fragment (f : Fragment)
  | search (scope : MatchScope) (terms : List String)
  /-- A comparison that the base query makes. -/
  | comparison (p : Predicate)
  deriving DecidableEq, Repr

namespace Predicate

/-- The search terms that an operand gives for a field. -/
def matchTerms (f : Field) (x : Operand) : Except Error (List String) :=
  x.values.mapM fun v =>
    match v.matchText? with
    | some text => .ok text
    | none => .error ((Misfit.notMatchText v).toError f)

/-- The comparison of a set of values with one value, as text.  The least value decides a lower
bound and the greatest an upper bound. -/
def setComparison? (column : String) : Operator → Option String
  | .exact => some ("IN(" ++ column ++ ", ?)")
  | .greaterEqual => some ("LEAST(" ++ column ++ ") >= ?")
  | .greater => some ("LEAST(" ++ column ++ ") > ?")
  | .less => some ("GREATEST(" ++ column ++ ") < ?")
  | .lessEqual => some ("GREATEST(" ++ column ++ ") <= ?")
  | .oneOf | .search | .notEqual => none

/-- The fragment for a predicate on a set of values. -/
def setFragment (f : Field) (op : Operator) (x : Operand) : Except Error Fragment :=
  if op = .oneOf then do
    let params ← f.bindAll x.values
    if params.isEmpty then .error (Misfit.noValues.toError f)
    return ⟨"IN(" ++ f.storageColumn ++ ", " ++ Fragment.placeholderList params.length ++ ")",
      params⟩
  else
    match setComparison? f.storageColumn op with
    | some sql => (f.bindSingle op x).map fun p => ⟨sql, [p]⟩
    | none => .error (.unsupportedLookup f.name op.name)

/-- The column of an inequality: a full-text field is marked. -/
def inequalityColumn (marker : String) (f : Field) : String :=
  if f.isFullText then marker ++ f.name else f.storageColumn

/-- The fragment for an inequality. -/
def inequalityFragment (marker : String) (f : Field) (x : Operand) : Except Error Fragment :=
  (f.bindSingle .notEqual x).map fun p => ⟨inequalityColumn marker f ++ " <> ?", [p]⟩

/-- The form that a predicate takes. -/
def form (marker : String) (p : Predicate) : Except Error PredicateForm :=
  if p.operator = .search then
    (matchTerms p.field p.operand).map (.search (.column p.field.storageColumn))
  else if p.field.isMultiValue then
    (setFragment p.field p.operator p.operand).map .fragment
  else if p.operator = .notEqual then
    (inequalityFragment marker p.field p.operand).map .fragment
  else .ok (.comparison p)

end Predicate

end IndexQuery
