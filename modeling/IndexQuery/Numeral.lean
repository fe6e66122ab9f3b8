import IndexQuery.Text.Digits

/-!
# Decimal numerals

A decimal number as it is written: sign, whole digits, fraction digits and a power of ten.
Leading and trailing zeros are kept, so a numeral has one text.

    (⟨n, ds, [], none⟩ : Numeral).text = (if n then ['-'] else []) ++ ds       (text_of_whole)
-/

namespace IndexQuery

/-- A decimal number as it is written. -/
structure Numeral where
  /-- Behind a minus sign. -/
  negative : Bool
  /-- The digits before the point. -/
  whole : List Char
  /-- The digits behind the point. -/
  fraction : List Char
  /-- The power of ten behind the mark `e`. -/
  exponent : Option Int
  deriving DecidableEq, Repr

namespace Numeral

open Text

/-! ## Algorithm -/

/-- The numeral as text; no point is written before an empty fraction. -/
def text (n : Numeral) : List Char :=
  (if n.negative then ['-'] else []) ++ n.whole ++
    (if n.fraction = [] then [] else '.' :: n.fraction) ++
    (match n.exponent with
      | none => []
      | some e => 'e' :: (signedDecimal e).toList)

/-- The numeral of an integer. -/
def ofInt (n : Int) : Numeral := ⟨n < 0, Nat.toDigits 10 n.natAbs, [], none⟩

/-- All digits as one number. -/
def digits (n : Numeral) : Nat := digitsValue (n.whole ++ n.fraction)

/-- The power of ten that scales `digits`. -/
def shift (n : Numeral) : Int := n.exponent.getD 0 - n.fraction.length

/-- Written without a point and without a power of ten. -/
def isWhole (n : Numeral) : Bool := n.fraction.isEmpty && n.exponent.isNone

/-- The power of ten at the head of a text: the mark, an optional sign and at least one digit.
A text without the mark has none; the second component is what follows. -/
def takeExponent : List Char → Option (Option Int × List Char)
  | [] => some (none, [])
  | c :: r =>
    if c = 'e' ∨ c = 'E' then
      let (negative, ds) := takeSign r
      if takeDigits ds = [] then none
      else
        let n : Int := digitsValue (takeDigits ds)
        some (some (if negative then -n else n), dropDigits ds)
    else some (none, c :: r)

/-- Reads a whole text: an optional sign, digits with an optional point among or around them, and
an optional power of ten. -/
def ofText? (cs : List Char) : Option Numeral :=
  let (negative, unsigned) := takeSign cs
  let whole := takeDigits unsigned
  let (fraction, rest) :=
    match dropDigits unsigned with
    | '.' :: r => (takeDigits r, dropDigits r)
    | r => ([], r)
  if whole = [] ∧ fraction = [] then none
  else
    match takeExponent rest with
    | some (exponent, []) => some ⟨negative, whole, fraction, exponent⟩
    | _ => none

/-! ## Lemmas -/

theorem text_of_whole (negative : Bool) (ds : List Char) :
    (⟨negative, ds, [], none⟩ : Numeral).text = (if negative then ['-'] else []) ++ ds := by
  simp [text]

end Numeral

end IndexQuery
