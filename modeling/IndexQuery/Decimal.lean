import IndexQuery.Binary64.Rounding
import IndexQuery.Numeral

/-!
# Scaled decimals

A decimal is a 96-bit integer divided by a power of ten that is kept: `1.50` and `1.5` are
different decimals.

    d.toInt? = some n ↔ d.mantissa = n * d.power                         (toInt?_eq_some_iff)
-/

namespace IndexQuery

/-- The first number that takes more than 96 bits. -/
def mantissaBound : Nat := 1 <<< 96

/-- The decimal `mantissa / 10 ^ scale`. -/
structure Decimal where
  mantissa : Int
  scale : Nat
  mantissa_lt : mantissa.natAbs < mantissaBound
  scale_le : scale ≤ 28
  deriving DecidableEq, Repr

namespace Decimal

open Text Binary64

/-! ## Algorithm -/

/-- The decimal with the given parts, if they are in range. -/
def ofParts? (mantissa : Int) (scale : Nat) : Option Decimal :=
  if h : mantissa.natAbs < mantissaBound ∧ scale ≤ 28 then some ⟨mantissa, scale, h.1, h.2⟩
  else none

/-- The power of ten that the mantissa is divided by. -/
def power (d : Decimal) : Nat := powerOfTen d.scale

/-- The numeral of a decimal: as many digits behind the point as its scale says. -/
def numeral (d : Decimal) : Numeral :=
  ⟨d.mantissa < 0, Nat.toDigits 10 (d.mantissa.natAbs / d.power),
    if d.scale = 0 then [] else padded d.scale (d.mantissa.natAbs % d.power), none⟩

/-- The text of a decimal. -/
def text (d : Decimal) : String := String.ofList d.numeral.text

/-- The integer that a decimal without fractional part is. -/
def toInt? (d : Decimal) : Option Int :=
  if d.mantissa % d.power = 0 then some (d.mantissa / d.power) else none

/-- A decimal as a binary number.  The whole and the fractional part are rounded on their own and
added; the sum is then brought back to the nearest number that the decimal's own grid allows. -/
def toBinary64 (d : Decimal) : Binary64 :=
  let negative := decide (d.mantissa < 0)
  let whole := nearestUnits (d.mantissa.natAbs / d.power * unit) 1
  let rest := nearestUnits (d.mantissa.natAbs % d.power * unit) 1
  if rest = 0 then ofUnits negative whole
  else
    let grid := nearestUnits (d.power * unit) 1
    let sum := nearestUnits (whole + nearestUnits (rest * unit) grid) 1
    let steps := (nearestUnits (sum * grid) unit + unit / 2) / unit
    ofUnits negative (nearestUnits (steps * unit * unit) grid)

/-! ## Lemmas -/

theorem power_pos (d : Decimal) : 0 < d.power := powerOfTen_pos d.scale

theorem toInt?_eq_some_iff {d : Decimal} {n : Int} :
    d.toInt? = some n ↔ d.mantissa = n * d.power := by
  have hne : (d.power : Int) ≠ 0 := Int.ofNat_ne_zero.mpr (Nat.ne_of_gt d.power_pos)
  have key := Int.emod_add_mul_ediv d.mantissa d.power
  unfold toInt?
  constructor
  · intro h
    split at h
    · next h0 =>
      cases h
      rw [h0, Int.zero_add, Int.mul_comm] at key
      exact key.symm
    · cases h
  · intro h
    rw [h, Int.mul_emod_left, if_pos rfl, Int.mul_ediv_cancel _ hne]

end Decimal

end IndexQuery
