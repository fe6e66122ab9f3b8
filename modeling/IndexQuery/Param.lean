import IndexQuery.Binary64.Layout
import IndexQuery.Text.Digits

/-!
# Bound parameters

The values that a statement's placeholders stand for.
-/

namespace IndexQuery

open Text

/-- Numbers in statements have plain digits, however many, and no `.0`; of two equally short and
near decimals the larger one is written. -/
def statementLayout : Binary64.Layout := ⟨.up, none, false⟩

/-- A value bound to a placeholder. -/
inductive Param where
  | string (s : String)
  | integer (n : Int64)
  | unsigned (n : UInt64)
  | float (x : Binary64)
  | null
  deriving DecidableEq, Repr

/-- A parameter as it is shown to people; a string is not escaped. -/
def Param.text : Param → String
  | .string s => "'" ++ s ++ "'"
  | .integer n => signedDecimal n.toInt
  | .unsigned n => decimal n.toNat
  | .float x => statementLayout.text x
  | .null => "NULL"

end IndexQuery
