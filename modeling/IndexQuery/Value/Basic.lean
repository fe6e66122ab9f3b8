import IndexQuery.Decimal
import IndexQuery.Instant.Rfc3339
import IndexQuery.Param

/-!
# Values of lookups

The values that callers compare fields with, alone or in sequence, and their text.
-/

namespace IndexQuery

open Text

/-- A single value. -/
inductive Value where
  | null
  | bool (b : Bool)
  | int (n : Int64)
  | uint (n : UInt64)
  | float (x : Binary64)
  | decimal (d : Decimal)
  | text (s : String)
  | timestamp (t : Instant)
  deriving DecidableEq, Repr

/-- The right-hand side of a lookup. -/
inductive Operand where
  | scalar (v : Value)
  | sequence (vs : List Value)
  deriving DecidableEq, Repr

namespace Operand

/-- The values in order; a single value is a sequence of one. -/
def values : Operand → List Value
  | .scalar v => [v]
  | .sequence vs => vs

/-- The value, unless it is a sequence. -/
def scalar? : Operand → Option Value
  | .scalar v => some v
  | .sequence _ => none

end Operand

namespace Value

/-- The text that a value is bound as where text is wanted. -/
def toText : Value → String
  | .null => ""
  | .bool b => if b then "true" else "false"
  | .int n => signedDecimal n.toInt
  | .uint n => Text.decimal n.toNat
  | .float x => statementLayout.text x
  | .decimal d => d.text
  | .text s => s
  | .timestamp t => String.ofList (Rfc3339.write "+00:00".toList t)

/-- The text to search for; an absent value and a timestamp have none. -/
def matchText? : Value → Option String
  | .null | .timestamp _ => none
  | v => some v.toText

/-- Numbers in messages end in `.0` when whole, and from `1e16` on and below `1e-4` a power of
ten follows the digits. -/
def messageLayout : Binary64.Layout := ⟨.up, some (-4, 15), true⟩

/-- A value in a message: text between quotes, and any other value with its type. -/
def shown : Value → String
  | .null => "Null"
  | .bool b => "Bool(" ++ (if b then "true" else "false") ++ ")"
  | .int n => "Int(" ++ signedDecimal n.toInt ++ ")"
  | .uint n => "UInt(" ++ Text.decimal n.toNat ++ ")"
  | .float x => "Float(" ++ messageLayout.text x ++ ")"
  | .decimal d => "Decimal(" ++ d.text ++ ")"
  | .text s => "'" ++ s ++ "'"
  | .timestamp t => "Timestamp(" ++ String.ofList (Rfc3339.write ['Z'] t) ++ ")"

end Value

end IndexQuery
