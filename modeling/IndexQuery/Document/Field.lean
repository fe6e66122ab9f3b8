import IndexQuery.Field
import IndexQuery.Json.Reader
import IndexQuery.Json.Writer

/-!
# Fields as documents

A field is a record of name, column, kind and type.  The column may be missing or null; nothing
else may.

    ofJson? f.toJson = some f                                                (ofJson?_toJson)
-/

namespace IndexQuery.Field

/-- The names of a field's parts in a document. -/
def parts : List String := ["name", "column", "kind", "attr_type"]

/-- The field as a document. -/
def toJson (f : Field) : Json :=
  .object [
    (some "name", .string (some f.name)),
    (some "column", match f.column with
      | none => .null
      | some c => .string (some c)),
    (some "kind", .string (some f.kind.name)),
    (some "attr_type", .string (some f.type.name))]

/-- The text in an optional part: missing and null mean none. -/
def optionalText? : Option Json → Option (Option String)
  | none | some .null => some none
  | some v => v.text?.map some

/-- The field that a document describes. -/
def ofJson? (v : Json) : Option Field :=
  match v.record? parts with
  | some [some name, column, some kind, some type] => do
    let name ← name.text?
    let column ← optionalText? column
    let kind ← kind.alternative?.bind FieldKind.ofName?
    let type ← type.alternative?.bind AttrType.ofName?
    return ⟨name, column, kind, type⟩
  | _ => none

/-- The field that a text describes. -/
def ofText? (s : String) : Option Field := (Json.ofText? s).bind ofJson?

theorem ofJson?_toJson (f : Field) : ofJson? f.toJson = some f := by
  obtain ⟨name, column, kind, type⟩ := f
  cases column <;>
    simp [ofJson?, toJson, Json.record?, parts, Json.valuesOf, Json.atMostOne, optionalText?,
      Json.text?, Json.alternative?, FieldKind.ofName?_name, AttrType.ofName?_name]

end IndexQuery.Field
