import IndexQuery.Error
import IndexQuery.Field
import IndexQuery.Operator
import IndexQuery.Text.Blank
import IndexQuery.Binary64.Reading
import IndexQuery.Value.Basic

/-!
# Bringing values to a field's type

A value is bound as the parameter that its field asks for: integers in the range of the field's
kind, numbers, booleans as zero and one, text, or seconds since 1970.  `Misfit` says why a value
does not suit its field.
-/

namespace IndexQuery

open Text

/-- Why a value does not suit a field. -/
inductive Misfit where
  | notInteger (v : Value)
  | notNumber (v : Value)
  | notBoolean (v : Value)
  | notTimestamp (v : Value)
  /-- Text that is no timestamp. -/
  | unreadableTimestamp (s : String) (fault : Rfc3339.Fault)
  /-- More seconds than sixty-four bits with sign can hold. -/
  | lateTimestamp (n : UInt64)
  /-- Not an unsigned 32-bit integer. -/
  | outside32 (n : Int)
  | negative (n : Int)
  | outside64 (n : Int)
  /-- A sequence where one value is wanted. -/
  | several (op : Operator)
  /-- An empty sequence where values are wanted. -/
  | noValues
  | notMatchText (v : Value)
  deriving DecidableEq, Repr

/-- The wording of a misfit. -/
def Misfit.message : Misfit → String
  | .notInteger v => v.shown ++ " is not an integer"
  | .notNumber v => v.shown ++ " is not a number"
  | .notBoolean v => v.shown ++ " is not a boolean"
  | .notTimestamp v => v.shown ++ " is not a timestamp"
  | .unreadableTimestamp s fault =>
    "'" ++ s ++ "' is not an RFC 3339 timestamp: " ++ fault.message
  | .lateTimestamp n => decimal n.toNat ++ " is out of timestamp range"
  | .outside32 n => signedDecimal n ++ " is out of range for a 32-bit set"
  | .negative n => signedDecimal n ++ " must not be negative"
  | .outside64 n => signedDecimal n ++ " does not fit a 64-bit integer"
  | .several op => "'" ++ op.name ++ "' expects a single value"
  | .noValues => "'" ++ Operator.oneOf.name ++ "' requires at least one value"
  | .notMatchText v => v.shown ++ " cannot be used as match text"

/-- The error that a misfit is for a field. -/
def Misfit.toError (f : Field) (m : Misfit) : Error := .invalidValue f.name m.message

namespace Value

/-! ## Views of a value -/

/-- The least integer that is read. -/
def leastInteger : Int := -(1 <<< 127 : Nat)

/-- The greatest integer that is read. -/
def greatestInteger : Int := (1 <<< 127 : Nat) - 1

/-- The integer that a value stands for.  A whole number beyond the bounds counts as the bound, and
text beyond them as no integer. -/
def toInteger? : Value → Option Int
  | .bool b => some (if b then 1 else 0)
  | .int n => some n.toInt
  | .uint n => some n.toNat
  | .float x => x.toInt?.map fun n => max leastInteger (min greatestInteger n)
  | .decimal d => d.toInt?
  | .text s => (integer? (trim s.toList)).filter fun n => leastInteger ≤ n ∧ n ≤ greatestInteger
  | .null | .timestamp _ => none

/-- The number that a value stands for. -/
def toNumber? : Value → Option Binary64
  | .bool b => some (.ofInt (if b then 1 else 0))
  | .int n => some (.ofInt n.toInt)
  | .uint n => some (.ofInt n.toNat)
  | .float x => some x
  | .decimal d => some d.toBinary64
  | .text s => Binary64.ofText? (trim s.toList)
  | .null | .timestamp _ => none

/-- The boolean that a value stands for: zero and one, or a word in letters of any case. -/
def toBoolean? : Value → Option Bool
  | .bool b => some b
  | .int n => if n = 0 then some false else if n = 1 then some true else none
  | .uint n => if n = 0 then some false else if n = 1 then some true else none
  | .text s =>
    let word := (trim s.toList).map Char.toLower
    if word = "true".toList ∨ word = "1".toList then some true
    else if word = "false".toList ∨ word = "0".toList then some false
    else none
  | .null | .float _ | .decimal _ | .timestamp _ => none

/-- The seconds since 1970 that a value stands for. -/
def toSeconds : Value → Except Misfit Int64
  | .timestamp t => .ok t.seconds
  | .int n => .ok n
  | .uint n =>
    if n.toNat ≤ Int64.maxValue.toInt then .ok (.ofInt n.toNat) else .error (.lateTimestamp n)
  | .text s =>
    match Rfc3339.read (trim s.toList) with
    | .ok n => .ok (.ofInt n)
    | .error fault => .error (.unreadableTimestamp s fault)
  | v => .error (.notTimestamp v)

/-! ## Coercion -/

/-- An integer as a parameter of sixty-four bits, with sign where possible. -/
def integerParam (n : Int) : Except Misfit Param :=
  if Int64.minValue.toInt ≤ n ∧ n ≤ Int64.maxValue.toInt then .ok (.integer (.ofInt n))
  else if 0 ≤ n ∧ n < UInt64.size then .ok (.unsigned (.ofNat n.toNat))
  else .error (.outside64 n)

/-- What a view gives, or the misfit for the value. -/
def viewed {α : Type} (view : Value → Option α) (misfit : Value → Misfit) (v : Value) :
    Except Misfit α :=
  match view v with
  | some a => .ok a
  | none => .error (misfit v)

/-- The integer that a value stands for, or why it stands for none. -/
def toInteger : Value → Except Misfit Int := viewed toInteger? .notInteger

/-- A value, other than null, as a parameter for an attribute of the given type. -/
def coerceTo (type : AttrType) (v : Value) : Except Misfit Param :=
  match type with
  | .integer | .bigInt => do integerParam (← v.toInteger)
  | .float => (viewed toNumber? .notNumber v).map .float
  | .bool => (viewed toBoolean? .notBoolean v).map fun b => .integer (if b then 1 else 0)
  | .string => .ok (.string v.toText)
  | .timestamp => v.toSeconds.map .integer

/-- A value, other than null, as a parameter for a field. -/
def coercePresent (f : Field) (v : Value) : Except Misfit Param :=
  match f.kind with
  | .multi32 => do
    let n ← v.toInteger
    if n < 0 ∨ UInt32.size ≤ n then .error (.outside32 n) else integerParam n
  | .multi64 | .primaryKey => do
    let n ← v.toInteger
    if n < 0 then .error (.negative n) else integerParam n
  | .scalar | .fullText => v.coerceTo f.type

/-- A value as a parameter for a field; null suits every field. -/
def coerce (f : Field) : Value → Except Misfit Param
  | .null => .ok .null
  | v => v.coercePresent f

end Value

namespace Field

/-- A value bound to a field. -/
def bind (f : Field) (v : Value) : Except Error Param := (v.coerce f).mapError (Misfit.toError f)

/-- Every value of a list bound to a field. -/
def bindAll (f : Field) (vs : List Value) : Except Error (List Param) := vs.mapM f.bind

/-- The only value of an operand bound to a field. -/
def bindSingle (f : Field) (op : Operator) (x : Operand) : Except Error Param :=
  match x.scalar? with
  | some v => f.bind v
  | none => .error ((Misfit.several op).toError f)

end Field

end IndexQuery
