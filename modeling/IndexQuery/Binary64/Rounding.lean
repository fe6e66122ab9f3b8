import IndexQuery.Binary64.Basic

/-!
# Rounding to Binary64

An exact quotient of natural numbers is rounded to the nearest number of the format, a tie going
to the even significand.  `nearestUnits` rounds a quotient of units and never overflows;
`ofUnits` encodes a rounded magnitude and turns one that is too large into an infinity.
-/

namespace IndexQuery.Binary64

/-- The natural number nearest to `n / d`, the even one of two. -/
def roundHalfEven (n d : Nat) : Nat :=
  let q := n / d
  let r := n % d
  if 2 * r < d then q
  else if d < 2 * r then q + 1
  else if q % 2 = 0 then q else q + 1

/-- The power of two below which fifty-three bits of `n` do not reach. -/
def gridOf (n : Nat) : Nat := n.log2 - 52

/-- The magnitude nearest to `n / d` units that fifty-three bits can hold. -/
def nearestUnits (n d : Nat) : Nat :=
  let p := gridOf (n / d)
  roundHalfEven n (d <<< p) <<< p

/-- The number with a sign and a magnitude of fifty-three bits; infinity beyond the format. -/
def ofUnits (negative : Bool) (u : Nat) : Binary64 :=
  let p := gridOf u
  ofWord negative (min ((p <<< 52) + (u >>> p)) infinityWord)

/-- The number nearest to `n / d`. -/
def nearest (negative : Bool) (n d : Nat) : Binary64 :=
  ofUnits negative (nearestUnits (n * unit) d)

/-- The number nearest to an integer. -/
def ofInt (n : Int) : Binary64 := nearest (n < 0) n.natAbs 1

end IndexQuery.Binary64
