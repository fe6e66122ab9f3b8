import IndexQuery.Field
import IndexQuery.LookupKey
import IndexQuery.Operator
import IndexQuery.Text.Identifier

/-!
# Schemas

The fields of one index.  Every schema has exactly one document id; a field `id` is put in front
if none is declared.
-/

namespace IndexQuery

open Text

/-- The fields of an index. -/
structure Schema where
  /-- The name of the index. -/
  index : String
  fields : List Field
  /-- The document id, which is one of the fields. -/
  primaryKey : Field
  deriving DecidableEq, Repr

namespace Schema

/-- The document id of an index that declares none. -/
def standardKey : Field := .primaryKey "id"

/-- The error for a part of a schema. -/
def refuse {α : Type} (part reason : String) : Except Error α :=
  .error (.config (.invalid ("schema." ++ part) reason))

/-- The declared fields, and the standard document id in front if they have none. -/
def completed (fields : List Field) : List Field :=
  if fields.any Field.isPrimaryKey then fields else standardKey :: fields

/-- Accepts fields whose names and columns can stand in keys and statements and whose names are
not among those seen before. -/
def checkFields : List String → List Field → Except Error Unit
  | _, [] => .ok ()
  | seen, f :: fs =>
    if !isIdentifier f.name || LookupKey.hasSeparator f.name then
      refuse "fields" ("'" ++ f.name ++ "' is not a valid field name")
    else if !isIdentifier f.storageColumn then
      refuse "fields" ("'" ++ f.storageColumn ++ "' is not a valid column name")
    else if f.name ∈ seen then refuse "fields" ("duplicate field '" ++ f.name ++ "'")
    else checkFields (f.name :: seen) fs

/-- The schema with the given fields. -/
def build (index : String) (fields : List Field) : Except Error Schema :=
  if !isIdentifier index then refuse "index" ("'" ++ index ++ "' is not an identifier")
  else
    let keys := fields.countP Field.isPrimaryKey
    if 1 < keys then
      refuse "fields" (decimal keys ++ " primary keys declared, expected one")
    else do
      checkFields [] (completed fields)
      return ⟨index, completed fields,
        ((completed fields).find? Field.isPrimaryKey).getD standardKey⟩

/-- The field with a name; no two fields of a schema that was built have the same name. -/
def field? (s : Schema) (name : String) : Option Field := s.fields.find? fun f => f.name == name

/-- The columns that a search returns: all but those of full-text fields. -/
def resultColumns (s : Schema) : List String :=
  (s.fields.filter fun f => !f.isFullText).map Field.storageColumn

end Schema

end IndexQuery
