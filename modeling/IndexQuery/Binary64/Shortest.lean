import IndexQuery.Binary64.Basic
import IndexQuery.Text.Digits

/-!
# The shortest decimal that reads back

All reals closer to a number of the format than to its neighbours round to it.  The coarsest
power of ten that has a multiple in that interval gives the decimal with the fewest digits that
reads back as the number; of two such multiples the nearer one is taken, and `Tie` says which if
both are equally near.  Everything is compared in quarter units as natural numbers.
-/

namespace IndexQuery.Binary64

open Text

/-- Which of two equally near candidates is taken. -/
inductive Tie where
  /-- The larger one. -/
  | up
  /-- The even one. -/
  | even
  deriving DecidableEq, Repr

/-- A positive decimal `significand · 10 ^ exponent`. -/
structure Scientific where
  significand : Nat
  exponent : Int
  deriving DecidableEq, Repr

/-! ## Algorithm -/

/-- The least quarter of a unit that may round to `x`. -/
def lowerEnd (x : Binary64) : Nat :=
  4 * x.units - ((if x.significand = 1 <<< 52 ∧ 0 < x.scale then 1 else 2) <<< x.scale)

/-- The largest quarter of a unit that may round to `x`. -/
def upperEnd (x : Binary64) : Nat := 4 * x.units + (2 <<< x.scale)

/-- Whether `n / d` quarter units round to `x`; the ends do if the significand is even. -/
def roundsTo (x : Binary64) (n d : Nat) : Bool :=
  if x.significand % 2 = 0 then x.lowerEnd * d ≤ n && n ≤ x.upperEnd * d
  else x.lowerEnd * d < n && n < x.upperEnd * d

/-- The multiple of `10 ^ k` nearest to `x` among those that round to it, as a factor. -/
def candidate (tie : Tie) (x : Binary64) (k : Int) : Option Nat :=
  let up := powerOfTen k.toNat * (4 * unit)
  let down := powerOfTen (-k).toNat
  let value := 4 * x.units * down
  let below := value / up
  match x.roundsTo (below * up) down, x.roundsTo ((below + 1) * up) down with
  | false, false => none
  | true, false => some below
  | false, true => some (below + 1)
  | true, true =>
    let rest := value % up
    if 2 * rest < up then some below
    else if up < 2 * rest then some (below + 1)
    else match tie with
      | .up => some (below + 1)
      | .even => some (if below % 2 = 0 then below else below + 1)

/-- The first candidate on the grids `10 ^ (k - 1)`, `10 ^ (k - 2)`, …, of which there are as
many as the count says. -/
def coarsest (tie : Tie) (x : Binary64) (k : Int) : Nat → Scientific
  | 0 => ⟨0, 0⟩
  | count + 1 =>
    match candidate tie x (k - 1) with
    | some c => ⟨c, k - 1⟩
    | none => coarsest tie x (k - 1) count

/-- The shortest decimal that reads back as the magnitude of `x`, a finite number other than
zero: the largest is below `10 ^ 309`, and the grid `10 ^ (-324)` is finer than a unit. -/
def shortest (tie : Tie) (x : Binary64) : Scientific := coarsest tie x 310 634

end IndexQuery.Binary64
