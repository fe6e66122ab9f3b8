/-!
# Decimal digits in text

Runs of ASCII digits at the head of a text, their value, and whole numbers with an optional sign.

    digitsValue (Nat.toDigits 10 n) = n                           (digitsValue_toDigits)
    digitsValue (padded w n) = n                                  (digitsValue_padded)
-/

namespace IndexQuery.Text

/-! ## Algorithm -/

/-- The longest run of digits that `cs` starts with. -/
def takeDigits (cs : List Char) : List Char := cs.takeWhile Char.isDigit

/-- What follows the longest run of digits that `cs` starts with. -/
def dropDigits (cs : List Char) : List Char := cs.dropWhile Char.isDigit

/-- The number that a run of digits writes in base ten. -/
def digitsValue (ds : List Char) : Nat := Nat.ofDigitChars 10 ds 0

/-- The number that a one and `k` zeros write. -/
def powerOfTen (k : Nat) : Nat := Nat.pow 10 k

/-- The digits of `n` in base ten, with zeros in front up to `width` of them. -/
def padded (width n : Nat) : List Char :=
  List.replicate (width - (Nat.toDigits 10 n).length) '0' ++ Nat.toDigits 10 n

/-- The digits of `n` as a string. -/
def decimal (n : Nat) : String := String.ofList (Nat.toDigits 10 n)

/-- The digits of `n` as a string, behind a minus sign if `n` is negative. -/
def signedDecimal (n : Int) : String :=
  if n < 0 then "-" ++ decimal n.natAbs else decimal n.natAbs

/-- One optional sign: whether it is a minus, and the text behind it. -/
def takeSign : List Char → Bool × List Char
  | '-' :: r => (true, r)
  | '+' :: r => (false, r)
  | cs => (false, cs)

/-- The whole number that `cs` writes: an optional sign, then digits and nothing else. -/
def integer? (cs : List Char) : Option Int :=
  let (negative, ds) := takeSign cs
  if ds ≠ [] ∧ ds.all Char.isDigit then
    some (if negative then -(digitsValue ds : Int) else digitsValue ds)
  else none

/-! ## Lemmas -/

theorem powerOfTen_pos (k : Nat) : 0 < powerOfTen k := Nat.pow_pos (by decide)

theorem digitsValue_toDigits (n : Nat) : digitsValue (Nat.toDigits 10 n) = n :=
  Nat.ofDigitChars_ten_toDigits

theorem digitsValue_padded (width n : Nat) : digitsValue (padded width n) = n := by
  unfold digitsValue padded
  rw [Nat.ofDigitChars_append, Nat.ofDigitChars_replicate_zero, Nat.mul_zero]
  exact Nat.ofDigitChars_ten_toDigits

end IndexQuery.Text
