import IndexQuery.Binary64.Layout
import IndexQuery.Json.Number
import IndexQuery.Json.Reader
import IndexQuery.Json.Writer
import IndexQuery.Settings.Basic

/-!
# Settings as documents

Settings are a record in which every part may be missing.  Options are pairs of a name and a
value, and the form of a value alone says which kind it is.
-/

namespace IndexQuery

/-- Numbers in documents end in `.0` when whole, and from `1e16` on and below `1e-5` a power of ten
follows the digits; of two equally short and near decimals the even one is written. -/
def documentLayout : Binary64.Layout := ⟨.even, some (-5, 15), true⟩

namespace OptionValue

/-- A weight as a document. -/
def weightToJson : String × Int64 → Json
  | (name, w) => .array [.string (some name), .number (.ofInt w.toInt)]

/-- The value as a document; an infinity or NaN is null. -/
def toJson : OptionValue → Json
  | .bool b => .bool b
  | .int n => .number (.ofInt n.toInt)
  | .float x => if x.isFinite then .number (documentLayout.numeral x) else .null
  | .string s => .string (some s)
  | .weights ws => .array (ws.map weightToJson)

/-- The weight that a document describes. -/
def weightOfJson? (v : Json) : Option (String × Int64) := do
  let (name, w) ← v.pair?
  return (← name.text?, ← w.toInt64?)

/-- The value that a document describes: an integer if sixty-four bits with sign can hold it, and
any other number in binary. -/
def ofJson? : Json → Option OptionValue
  | .null => none
  | .bool b => some (.bool b)
  | .number n =>
    match (Json.number n).toInt64? with
    | some i => some (.int i)
    | none => (Json.number n).toBinary64?.map .float
  | .string s => s.map .string
  | .array vs => (vs.mapM weightOfJson?).map .weights
  | .object _ => none

/-- The value that a text describes. -/
def ofText? (s : String) : Option OptionValue := (Json.ofText? s).bind ofJson?

end OptionValue

namespace Settings

/-- The names of the parts of settings in a document. -/
def parts : List String :=
  ["attribute_marker", "primary_key_alias", "default_limit", "max_limit", "default_options"]

/-- A number without sign as a document. -/
def limitToJson (n : UInt64) : Json := .number (.ofInt n.toNat)

/-- An option as a document. -/
def optionToJson : String × OptionValue → Json
  | (name, value) => .array [.string (some name), value.toJson]

/-- The settings as a document. -/
def toJson (s : Settings) : Json :=
  .object [
    (some "attribute_marker", .string (some s.marker)),
    (some "primary_key_alias", .string (some s.keyAlias)),
    (some "default_limit", match s.defaultLimit with
      | none => .null
      | some n => limitToJson n),
    (some "max_limit", limitToJson s.maxLimit),
    (some "default_options", .array (s.defaultOptions.map optionToJson))]

/-- A part of a document, or what stands for it if it is missing. -/
def partOr {α : Type} (standard : α) (read : Json → Option α) : Option Json → Option α
  | none => some standard
  | some v => read v

/-- A limit that may be null. -/
def limitOfJson? : Json → Option (Option UInt64)
  | .null => some none
  | v => v.toUInt64?.map some

/-- The option that a document describes. -/
def optionOfJson? (v : Json) : Option (String × OptionValue) := do
  let (name, value) ← v.pair?
  return (← name.text?, ← OptionValue.ofJson? value)

/-- The options that a document describes. -/
def optionsOfJson? (v : Json) : Option (List (String × OptionValue)) :=
  v.elements?.bind fun vs => vs.mapM optionOfJson?

/-- The settings that a document describes. -/
def ofJson? (v : Json) : Option Settings :=
  match v.record? parts with
  | some [marker, keyAlias, defaultLimit, maxLimit, defaultOptions] => do
    let marker ← partOr standard.marker Json.text? marker
    let keyAlias ← partOr standard.keyAlias Json.text? keyAlias
    let defaultLimit ← partOr standard.defaultLimit limitOfJson? defaultLimit
    let maxLimit ← partOr standard.maxLimit Json.toUInt64? maxLimit
    let defaultOptions ← partOr standard.defaultOptions optionsOfJson? defaultOptions
    return ⟨marker, keyAlias, defaultLimit, maxLimit, defaultOptions⟩
  | _ => none

/-- Reads and checks settings. -/
def parse (s : String) : Except Error Settings := do
  let settings ←
    match (Json.ofText? s).bind ofJson? with
    | some settings => .ok settings
    | none => .error (.config (.unreadable "the text is no settings document"))
  settings.validate
  return settings

end Settings

end IndexQuery
