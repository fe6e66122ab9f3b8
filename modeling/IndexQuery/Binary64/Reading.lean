import IndexQuery.Binary64.Rounding
import IndexQuery.Numeral

/-!
# Binary64 numbers from text

A numeral denotes the number of the format nearest to it.  Beside numerals, a text may name an
infinity or NaN in letters of any case.
-/

namespace IndexQuery

open Text

/-- The number nearest to what a numeral writes.  From `10 ^ 310` on every numeral overflows, and
below `10 ^ (-330)` every numeral rounds to zero, so no power beyond those is computed. -/
def Numeral.toBinary64 (n : Numeral) : Binary64 :=
  if n.digits = 0 then .zero n.negative
  else
    let magnitude := (Nat.toDigits 10 n.digits).length + n.shift
    if 310 < magnitude then .infinity n.negative
    else if magnitude < -330 then .zero n.negative
    else .nearest n.negative (n.digits * powerOfTen n.shift.toNat)
      (powerOfTen (-n.shift).toNat)

namespace Binary64

/-- The infinity or NaN that a word names. -/
def ofName? (negative : Bool) (name : List Char) : Option Binary64 :=
  let lower := name.map Char.toLower
  if lower = "inf".toList ∨ lower = "infinity".toList then some (infinity negative)
  else if lower = "nan".toList then some nan
  else none

/-- The number that a whole text writes. -/
def ofText? (cs : List Char) : Option Binary64 :=
  let (negative, unsigned) := takeSign cs
  match ofName? negative unsigned with
  | some x => some x
  | none => (Numeral.ofText? cs).map Numeral.toBinary64

end Binary64

end IndexQuery
