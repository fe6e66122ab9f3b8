/-!
# Fields of an index

A field has the name that lookups use, the column that statements use, a kind that decides how it
is queried, and the type that values are brought to.
-/

namespace IndexQuery

/-- How a field is stored and queried. -/
inductive FieldKind where
  /-- A plain attribute. -/
  | scalar
  /-- Indexed text, which only full-text search reaches. -/
  | fullText
  /-- A set of unsigned 32-bit integers per document. -/
  | multi32
  /-- A set of 64-bit integers per document. -/
  | multi64
  /-- The document id. -/
  | primaryKey
  deriving DecidableEq, Repr

namespace FieldKind

/-- Every kind. -/
def all : List FieldKind := [.scalar, .fullText, .multi32, .multi64, .primaryKey]

/-- The name of a kind in documents. -/
def name : FieldKind → String
  | .scalar => "scalar"
  | .fullText => "full_text"
  | .multi32 => "multi32"
  | .multi64 => "multi64"
  | .primaryKey => "primary_key"

/-- The kind with a name. -/
def ofName? (s : String) : Option FieldKind := all.find? fun k => k.name == s

/-- Whether a document holds a set of values of such a field. -/
def isMultiValue : FieldKind → Bool
  | .multi32 | .multi64 => true
  | .scalar | .fullText | .primaryKey => false

theorem ofName?_name (k : FieldKind) : ofName? k.name = some k := by
  cases k <;> decide

end FieldKind

/-- The type of an attribute's values. -/
inductive AttrType where
  | integer
  | bigInt
  | float
  | bool
  | string
  /-- Seconds since 1970. -/
  | timestamp
  deriving DecidableEq, Repr

namespace AttrType

/-- Every type. -/
def all : List AttrType := [.integer, .bigInt, .float, .bool, .string, .timestamp]

/-- The name of a type in documents. -/
def name : AttrType → String
  | .integer => "integer"
  | .bigInt => "big_int"
  | .float => "float"
  | .bool => "bool"
  | .string => "string"
  | .timestamp => "timestamp"

/-- The type with a name. -/
def ofName? (s : String) : Option AttrType := all.find? fun t => t.name == s

/-- The type of an attribute that states none. -/
def standard : AttrType := .integer

theorem ofName?_name (t : AttrType) : ofName? t.name = some t := by
  cases t <;> decide

end AttrType

/-- A field of an index. -/
structure Field where
  /-- The name that lookups use. -/
  name : String
  /-- The column that statements use, if it differs from the name. -/
  column : Option String
  kind : FieldKind
  type : AttrType
  deriving DecidableEq, Repr

namespace Field

/-- A plain attribute. -/
def scalar (name : String) (type : AttrType) : Field := ⟨name, none, .scalar, type⟩

/-- A full-text field. -/
def fullText (name : String) : Field := ⟨name, none, .fullText, .string⟩

/-- A set of unsigned 32-bit integers. -/
def multi32 (name : String) : Field := ⟨name, none, .multi32, .integer⟩

/-- A set of 64-bit integers. -/
def multi64 (name : String) : Field := ⟨name, none, .multi64, .bigInt⟩

/-- The document id. -/
def primaryKey (name : String) : Field := ⟨name, none, .primaryKey, .bigInt⟩

/-- A field of the given kind, with the type that the kind has unless another is stated. -/
def ofKind (name : String) : FieldKind → Field
  | .scalar => scalar name .standard
  | .fullText => fullText name
  | .multi32 => multi32 name
  | .multi64 => multi64 name
  | .primaryKey => primaryKey name

/-- The field in a column of its own name. -/
def withColumn (f : Field) (column : String) : Field := { f with column := some column }

/-- The column that statements use. -/
def storageColumn (f : Field) : String := f.column.getD f.name

/-- Whether a document holds a set of values of the field. -/
def isMultiValue (f : Field) : Bool := f.kind.isMultiValue

/-- Whether only full-text search reaches the field. -/
def isFullText (f : Field) : Bool := f.kind == .fullText

/-- Whether the field is the document id. -/
def isPrimaryKey (f : Field) : Bool := f.kind == .primaryKey

end Field

end IndexQuery
