import IndexQuery.Schema

/-!
# From keys to fields and operators

A resolver reads lookup keys against a schema.  The alias always names the document id, also where
a field has the same name.
-/

namespace IndexQuery

/-- A schema together with the alias of its document id. -/
structure Resolver where
  schema : Schema
  keyAlias : String
  deriving DecidableEq, Repr

namespace Resolver

/-- The field that a plain name stands for. -/
def resolveField (r : Resolver) (name : String) : Except Error Field :=
  if name = r.keyAlias then .ok r.schema.primaryKey
  else
    match r.schema.field? name with
    | some f => .ok f
    | none => .error (.unknownField r.schema.index name)

/-- The operator that a key names for a field, equality if it names none. -/
def operatorFor (f : Field) : Option String → Except Error Operator
  | none => .ok .exact
  | some name =>
    match Operator.ofName? name with
    | some op => .ok op
    | none => .error (.unsupportedLookup f.name name)

/-- The complement of the operator that a key names. -/
def negatedOperator (k : LookupKey) : Except Error Operator :=
  match k.operator with
  | none => .ok .notEqual
  | some name =>
    match (Operator.ofName? name).bind Operator.inverse? with
    | some op => .ok op
    | none => .error (.unsupportedNegation k.field name)

/-- The field and the operator that a key names. -/
def resolve (r : Resolver) (key : String) : Except Error (Field × Operator) := do
  let k ← LookupKey.parse key
  let f ← r.resolveField k.field
  let op ← operatorFor f k.operator
  return (f, op)

/-- The field that a key names and the complement of its operator; an operator without complement
is reported before an unknown field. -/
def resolveNegated (r : Resolver) (key : String) : Except Error (Field × Operator) := do
  let k ← LookupKey.parse key
  let op ← negatedOperator k
  let f ← r.resolveField k.field
  return (f, op)

/-- The field that a key without operator names, for an inequality. -/
def resolvePlain (r : Resolver) (key : String) : Except Error Field := do
  let k ← LookupKey.parse key
  if k.operator.isSome then .error (.invalidLookup key "notequal takes plain field names")
  r.resolveField key

end Resolver

end IndexQuery
