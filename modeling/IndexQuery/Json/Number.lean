import IndexQuery.Binary64.Rounding
import IndexQuery.Json.Basic

/-!
# What a JSON number stands for

A number without point and power of ten stands for an integer if sixty-four bits can hold it.
Every other number is approximated: as many leading digits as an unsigned integer of sixty-four
bits can hold are rounded to binary, and the result is multiplied or divided by the rounded power
of ten.  Such a result may differ from the nearest number in its last bits.

    (Numeral.ofInt n.toNat).jsonNumber? = some (.unsigned n)               (jsonNumber?_of_unsigned)
-/

namespace IndexQuery

open Text Binary64

/-- What a JSON number stands for. -/
inductive Json.Number where
  /-- An integer that is not negative. -/
  | unsigned (n : UInt64)
  /-- A negative integer. -/
  | negative (n : Int64)
  /-- A binary number. -/
  | real (x : Binary64)
  deriving DecidableEq, Repr

namespace Json.Number

/-! ## Significands -/

/-- The value of a digit. -/
def digit (c : Char) : Nat := c.toNat - '0'.toNat

/-- Appends whole digits while sixty-four bits can hold the result; also the number of digits that
are left over. -/
def takeWhole : Nat → List Char → Nat × Nat
  | s, [] => (s, 0)
  | s, d :: ds =>
    if 10 * s + digit d < UInt64.size then takeWhole (10 * s + digit d) ds else (s, ds.length + 1)

/-- Appends fraction digits while sixty-four bits can hold the result; also the number of digits
that are taken. -/
def takeFraction : Nat → List Char → Nat × Nat
  | s, [] => (s, 0)
  | s, d :: ds =>
    if 10 * s + digit d < UInt64.size then
      let (t, n) := takeFraction (10 * s + digit d) ds
      (t, n + 1)
    else (s, 0)

/-! ## Approximation -/

/-- A power of ten, rounded, in units. -/
def powerUnits (k : Nat) : Nat := nearestUnits (powerOfTen k * unit) 1

/-- A magnitude divided by a power of ten, in steps of at most `10 ^ 308`. -/
def descend : Nat → Nat → Nat → Nat
  | 0, u, _ => u
  | fuel + 1, u, k =>
    if k ≤ 308 then nearestUnits (u * unit) (powerUnits k)
    else if u = 0 then 0
    else descend fuel (nearestUnits (u * unit) (powerUnits 308)) (k - 308)

/-- The number `s · 10 ^ e`, unless it overflows. -/
def approximate? (negative : Bool) (s : Nat) (e : Int) : Option Binary64 :=
  let u := nearestUnits (s * unit) 1
  if e < 0 then
    some (ofUnits negative (descend (e.natAbs / 308 + 1) u e.natAbs))
  else if u = 0 then some (zero negative)
  else if 308 < e then none
  else
    let x := ofUnits negative (nearestUnits (u * powerUnits e.toNat) unit)
    if x.isFinite then some x else none

/-- The greatest power of ten that is kept, the greatest integer of thirty-two bits with sign. -/
def exponentBound : Int := 2147483647

/-- The approximation of a number with the given significand, its scale and the power of ten that
is written behind it.  A written power beyond the bound decides alone. -/
def scaled? (negative : Bool) (s : Nat) (e : Int) (written : Option Int) : Option Binary64 :=
  match written with
  | none => approximate? negative s e
  | some w =>
    if exponentBound < w.natAbs then
      if s ≠ 0 ∧ 0 < w then none else some (zero negative)
    else approximate? negative s (max (-exponentBound - 1) (min exponentBound (e + w)))

end Json.Number

open Json.Number

/-- What a numeral stands for in JSON; `none` if it overflows. -/
def Numeral.jsonNumber? (n : Numeral) : Option Json.Number :=
  let (s, dropped) := takeWhole 0 n.whole
  if n.isWhole ∧ dropped = 0 then
    if !n.negative then some (.unsigned (.ofNat s))
    else if 0 < s ∧ Int64.minValue.toInt ≤ -(s : Int) then some (.negative (.ofInt (-s)))
    else some (.real (nearest true s 1))
  else
    let (s, taken) := takeFraction s n.fraction
    (scaled? n.negative s (dropped - taken) n.exponent).map .real

namespace Json.Number

/-! ## Lemmas -/

theorem le_ofDigitChars (s : Nat) (ds : List Char) : s ≤ Nat.ofDigitChars 10 ds s := by
  induction ds generalizing s with
  | nil => exact Nat.le_refl s
  | cons d ds ih =>
    rw [Nat.ofDigitChars_cons]
    exact Nat.le_trans (by omega) (ih _)

theorem takeWhole_of_lt {s : Nat} {ds : List Char} (h : Nat.ofDigitChars 10 ds s < UInt64.size) :
    takeWhole s ds = (Nat.ofDigitChars 10 ds s, 0) := by
  induction ds generalizing s with
  | nil => rfl
  | cons d ds ih =>
    rw [Nat.ofDigitChars_cons] at h ⊢
    have hs := Nat.lt_of_le_of_lt (le_ofDigitChars _ ds) h
    rw [takeWhole, digit, if_pos hs, ih h]

theorem takeWhole_toDigits {n : Nat} (h : n < UInt64.size) :
    takeWhole 0 (Nat.toDigits 10 n) = (n, 0) := by
  have hv := digitsValue_toDigits n
  rw [digitsValue] at hv
  rw [takeWhole_of_lt (by rw [hv]; exact h), hv]

theorem jsonNumber?_of_unsigned (n : UInt64) :
    (Numeral.ofInt n.toNat).jsonNumber? = some (.unsigned n) := by
  have hn : ¬ ((n.toNat : Int) < 0) := by omega
  simp [Numeral.jsonNumber?, Numeral.ofInt, takeWhole_toDigits n.toNat_lt, Numeral.isWhole, hn]

end Json.Number

namespace Json

/-- What a number stands for. -/
def number? : Json → Option Number
  | .number n => n.jsonNumber?
  | _ => none

/-- The integer of sixty-four bits without sign that a number stands for. -/
def toUInt64? (v : Json) : Option UInt64 :=
  match v.number? with
  | some (.unsigned n) => some n
  | _ => none

/-- The integer of sixty-four bits that a number stands for. -/
def toInt64? (v : Json) : Option Int64 :=
  match v.number? with
  | some (.unsigned n) => if n.toNat ≤ Int64.maxValue.toInt then some (.ofInt n.toNat) else none
  | some (.negative n) => some n
  | _ => none

/-- The binary number nearest to what a number stands for. -/
def toBinary64? (v : Json) : Option Binary64 :=
  match v.number? with
  | some (.unsigned n) => some (.ofInt n.toNat)
  | some (.negative n) => some (.ofInt n.toInt)
  | some (.real x) => some x
  | none => none

end Json

end IndexQuery
