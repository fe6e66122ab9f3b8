import IndexQuery.Binary64.Shortest
import IndexQuery.Numeral

/-!
# Binary64 numbers as text

The shortest decimal of a number, laid out as a `Layout` says: which powers of ten are written
with plain digits, whether a whole number ends in `.0`, and how ties between equally short
decimals go.  Each writer of numbers has one layout of its own.
-/

namespace IndexQuery.Binary64

open Text

/-- How a kind of output writes its numbers. -/
structure Layout where
  /-- Which of two equally short and near decimals is written. -/
  tie : Tie
  /-- The least and the greatest power of ten of a leading digit that plain digits are used for;
  without bounds they always are. -/
  plain : Option (Int × Int)
  /-- Whether a whole number in plain digits ends in `.0`. -/
  pointZero : Bool
  deriving DecidableEq, Repr

namespace Layout

/-- Whether the layout writes plain digits when the leading digit stands for `10 ^ e`. -/
def isPlain (l : Layout) (e : Int) : Bool :=
  match l.plain with
  | none => true
  | some (least, greatest) => least ≤ e && e ≤ greatest

/-- The digits `ds` with the point behind the first `p` of them, zeros filling any gap. -/
def plainNumeral (l : Layout) (negative : Bool) (ds : List Char) (p : Int) : Numeral :=
  if p ≤ 0 then ⟨negative, ['0'], List.replicate (-p).toNat '0' ++ ds, none⟩
  else
    let fraction := ds.drop p.toNat
    ⟨negative, ds.take p.toNat ++ List.replicate (p.toNat - ds.length) '0',
      if l.pointZero ∧ fraction = [] then ['0'] else fraction, none⟩

/-- The numeral that a finite number is written as. -/
def numeral (l : Layout) (x : Binary64) : Numeral :=
  let s : Scientific := if x.units = 0 then ⟨0, 0⟩ else x.shortest l.tie
  let ds := Nat.toDigits 10 s.significand
  let p := ds.length + s.exponent
  if l.isPlain (p - 1) then l.plainNumeral x.isNegative ds p
  else ⟨x.isNegative, ds.take 1, ds.drop 1, some (p - 1)⟩

/-- The text of any number. -/
def text (l : Layout) (x : Binary64) : String :=
  if x.isNaN then "NaN"
  else if x.isFinite then String.ofList (l.numeral x).text
  else if x.isNegative then "-inf"
  else "inf"

end Layout

end IndexQuery.Binary64
