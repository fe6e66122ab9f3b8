/-!
# Binary64 numbers

The interchange format for double precision: a sign bit, eleven exponent bits and fifty-two
fraction bits.  Every finite number is a whole multiple of the least positive one, `2⁻¹⁰⁷⁴`, so
its magnitude is given as a natural number of such units and arithmetic on it is exact.
-/

namespace IndexQuery

/-- A double-precision number, as its sixty-four bits. -/
structure Binary64 where
  bits : UInt64
  deriving DecidableEq, Repr

namespace Binary64

/-! ## Fields -/

/-- The bits read as a natural number. -/
def word (x : Binary64) : Nat := x.bits.toNat

/-- Whether the sign bit is set. -/
def isNegative (x : Binary64) : Bool := 1 <<< 63 ≤ x.word

/-- The eleven exponent bits. -/
def field (x : Binary64) : Nat := (x.word >>> 52) % (1 <<< 11)

/-- The fifty-two fraction bits. -/
def fraction (x : Binary64) : Nat := x.word % (1 <<< 52)

/-- Neither an infinity nor a NaN. -/
def isFinite (x : Binary64) : Bool := x.field != 2047

/-- Not a number. -/
def isNaN (x : Binary64) : Bool := x.field == 2047 && x.fraction != 0

/-- The significand as a whole number: the fraction, with the hidden bit of a normal number. -/
def significand (x : Binary64) : Nat := if x.field = 0 then x.fraction else (1 <<< 52) + x.fraction

/-- The power of two that the significand is scaled by, counted in units. -/
def scale (x : Binary64) : Nat := x.field - 1

/-- The magnitude of a finite number, in units of `2⁻¹⁰⁷⁴`. -/
def units (x : Binary64) : Nat := x.significand <<< x.scale

/-- The number one, in units. -/
def unit : Nat := 1 <<< 1074

/-- The integer that a finite number without fractional part is. -/
def toInt? (x : Binary64) : Option Int :=
  if x.isFinite ∧ x.units % unit = 0 then
    some (if x.isNegative then -((x.units / unit : Nat) : Int) else (x.units / unit : Nat))
  else none

/-! ## Construction -/

/-- The exponent and fraction bits of an infinity. -/
def infinityWord : Nat := 2047 <<< 52

/-- The number with the given sign and the given exponent and fraction bits. -/
def ofWord (negative : Bool) (w : Nat) : Binary64 :=
  ⟨UInt64.ofNat ((if negative then 1 <<< 63 else 0) + w)⟩

/-- Zero with a sign. -/
def zero (negative : Bool) : Binary64 := ofWord negative 0

/-- Infinity with a sign. -/
def infinity (negative : Bool) : Binary64 := ofWord negative infinityWord

/-- The quiet NaN. -/
def nan : Binary64 := ofWord false (infinityWord + (1 <<< 51))

end Binary64

end IndexQuery
