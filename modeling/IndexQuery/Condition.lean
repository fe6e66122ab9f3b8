import IndexQuery.Fragment
import IndexQuery.Value.Coercion

/-!
# Conditions of the base query

Comparisons on columns, fragments given as they are, and groups of conditions, with the fragment
that each is rendered as.
-/

namespace IndexQuery

/-- A condition of the base query. -/
inductive Condition where
  /-- A comparison on a column, with its bound values. -/
  | compare (column : String) (op : Operator) (params : List Param)
  /-- A fragment as it is. -/
  | raw (f : Fragment)
  /-- Every condition of a list holds. -/
  | all (cs : List Condition)
  /-- Some condition of a list holds. -/
  | any (cs : List Condition)

namespace Condition

/-- The comparison that a lookup on a field is, its values brought to the field's type. -/
def ofLookup (f : Field) (op : Operator) (x : Operand) : Except Error Condition :=
  match op with
  | .oneOf =>
    if x.values.isEmpty then .error (Misfit.noValues.toError f)
    else (f.bindAll x.values).map (.compare f.storageColumn op)
  | .exact | .greater | .greaterEqual | .less | .lessEqual =>
    (f.bindSingle op x).map fun p => .compare f.storageColumn op [p]
  | .search | .notEqual => .error (.unsupportedLookup f.name op.name)

/-- The text of a comparison with the given number of values. -/
def compareText (column : String) (op : Operator) (count : Nat) : String :=
  match op.symbol? with
  | some symbol => column ++ " " ++ symbol ++ " ?"
  | none => column ++ " IN (" ++ Fragment.placeholderList count ++ ")"

mutual

/-- The fragment that a condition is rendered as. -/
def toFragment : Condition → Fragment
  | .compare column op params => ⟨compareText column op params.length, params⟩
  | .raw f => f
  | .all cs => .conjunction (toFragments cs)
  | .any cs => .disjunction (toFragments cs)

/-- The fragments of a list of conditions. -/
def toFragments : List Condition → List Fragment
  | [] => []
  | c :: cs => c.toFragment :: toFragments cs

end

theorem toFragments_eq_map (cs : List Condition) : toFragments cs = cs.map toFragment := by
  induction cs with
  | nil => rfl
  | cons c cs ih => rw [toFragments, ih, List.map_cons]

end Condition

end IndexQuery
