import IndexQuery.Json.Number
import IndexQuery.Proofs.Documents.Rounding

/-!
# Integers in documents

A number that is written with digits alone is kept as the integer that it writes as long as
sixty-four bits hold it, with or without sign.  Every other integer, and the zero behind a minus
sign, becomes binary: below `2 ^ 64` the nearest number, and beyond it one of more than sixty-three
bits still.

    (takeWhole s ds).2 = 0 ↔ the digits ds behind s write less than 2 ^ 64
                                                                     (takeWhole_snd_eq_zero_iff)
    (number n).toInt64? = some i ↔ n.Fits ∧ i.toInt = n.integer             (toInt64?_eq_some_iff)
    (number n).toBinary64? = some (nearest n.negative …)   below 2 ^ 64         (toBinary64?_of_lt)
    (number n).toBinary64? = some x → Large n.negative x   if n does not fit   (large_of_not_fits)
    (number (.ofInt n.toNat)).toUInt64? = some n                                 (toUInt64?_ofInt)
-/

namespace IndexQuery

open Text Binary64 Json Json.Number

/-! ## Algorithm -/

namespace Numeral

/-- The integer that the sign and the digits before the point write. -/
def integer (n : Numeral) : Int :=
  if n.negative then -(digitsValue n.whole : Int) else digitsValue n.whole

/-- The zero behind a minus sign. -/
def IsMinusZero (n : Numeral) : Prop := n.negative = true ∧ n.integer = 0

instance (n : Numeral) : Decidable n.IsMinusZero :=
  inferInstanceAs (Decidable (n.negative = true ∧ n.integer = 0))

/-- An integer that sixty-four bits with sign hold, other than the zero behind a minus sign. -/
def Fits (n : Numeral) : Prop :=
  Int64.minValue.toInt ≤ n.integer ∧ n.integer ≤ Int64.maxValue.toInt ∧ ¬ n.IsMinusZero

instance (n : Numeral) : Decidable n.Fits :=
  inferInstanceAs (Decidable (Int64.minValue.toInt ≤ n.integer ∧
    n.integer ≤ Int64.maxValue.toInt ∧ ¬ n.IsMinusZero))

/-- An integer as it is written: digits, with or without a minus sign. -/
structure IsInteger (n : Numeral) : Prop where
  whole : n.isWhole = true
  digits : ∀ c ∈ n.whole, c.isDigit = true

/-- An integer that is the shortest decimal of the binary number that it is read as. -/
def IsShortest (n : Numeral) : Prop :=
  n.integer ≠ 0 ∧ ∃ x e, (Json.number n).toBinary64? = some x ∧
    (x.shortest .up).exponent = (e : Nat) ∧
    (x.shortest .up).significand * powerOfTen e = n.integer.natAbs

end Numeral

/-! ## Digits that are taken -/

namespace Json.Number

/-- No digit is left over exactly if sixty-four bits hold what all of them write. -/
theorem takeWhole_snd_eq_zero_iff {s : Nat} (hs : s < UInt64.size) (ds : List Char) :
    (takeWhole s ds).2 = 0 ↔ Nat.ofDigitChars 10 ds s < UInt64.size := by
  induction ds generalizing s with
  | nil => exact ⟨fun _ => hs, fun _ => rfl⟩
  | cons d ds ih =>
    rw [Nat.ofDigitChars_cons, takeWhole]
    by_cases h : 10 * s + digit d < UInt64.size
    · rw [if_pos h]
      exact ih h
    · rw [if_neg h]
      have hle := le_ofDigitChars (10 * s + digit d) ds
      refine ⟨fun hzero => absurd hzero (Nat.succ_ne_zero _), fun hlt => ?_⟩
      exact absurd (Nat.lt_of_le_of_lt hle hlt) h

/-- As long as digits are left over, the next one does not fit. -/
theorem size_le_takeWhole {s : Nat} {ds : List Char} (hds : ∀ c ∈ ds, c.isDigit = true)
    (h : (takeWhole s ds).2 ≠ 0) : UInt64.size ≤ 10 * (takeWhole s ds).1 + 9 := by
  induction ds generalizing s with
  | nil => exact absurd rfl h
  | cons d ds ih =>
    have hdigit : digit d ≤ 9 := by
      have hd := Char.isDigit_iff_toNat.mp (hds d List.mem_cons_self)
      have hzero : '0'.toNat = 48 := rfl
      have hnine : '9'.toNat = 57 := rfl
      unfold digit
      omega
    unfold takeWhole at h ⊢
    split
    · next hlt =>
      rw [if_pos hlt] at h
      exact ih (fun c hc => hds c (List.mem_cons_of_mem d hc)) h
    · show UInt64.size ≤ 10 * s + 9
      omega

/-- What is read for an integer: a finite number of the same sign and more than sixty-three bits. -/
structure Large (b : Bool) (x : Binary64) : Prop where
  finite : x.isFinite = true
  sign : x.isNegative = b
  units : largeUnits ≤ x.units

theorem large_ofUnits {b : Bool} {u : Nat} (hu : 1 <<< 1137 ≤ u)
    (hfinite : (ofUnits b u).isFinite = true) : Large b (ofUnits b u) := by
  refine ⟨hfinite, isNegative_ofUnits b u, ?_⟩
  rw [largeUnits_eq]
  exact le_units_ofUnits (by decide) hu hfinite

theorem large_nearest {s : Nat} (b : Bool) (hs : 1 <<< 63 ≤ s) (hlt : s < UInt64.size) :
    Large b (nearest b s 1) := by
  have hlow : 1 <<< 1137 ≤ s * unit / 1 := by
    rw [Nat.div_one, ← largeUnits_eq]
    exact Nat.mul_le_mul_right _ hs
  have hhigh : s * unit / 1 < 1 <<< 1138 := by
    have hsize : UInt64.size * unit = 1 <<< 1138 := by decide
    rw [Nat.div_one, ← hsize]
    exact Nat.mul_lt_mul_of_pos_right hlt (by decide)
  exact large_ofUnits (le_nearestUnits hlow)
    (isFinite_ofUnits (Nat.lt_of_le_of_lt (nearestUnits_le hhigh) (by decide)))

theorem large_approximate? {b : Bool} {s : Nat} {e : Int} {x : Binary64} (hs : 1 <<< 60 ≤ s)
    (he : 0 < e) (h : approximate? b s e = some x) : Large b x := by
  have hdigits : 1 <<< 1134 ≤ nearestUnits (s * unit) 1 := by
    refine le_nearestUnits ?_
    have hunit : 1 <<< 1134 = 1 <<< 60 * unit := by decide
    rw [Nat.div_one, hunit]
    exact Nat.mul_le_mul_right _ hs
  have hpower : 1 <<< 1077 ≤ powerUnits e.toNat := by
    refine le_nearestUnits ?_
    have hten : powerOfTen 1 ≤ powerOfTen e.toNat :=
      Nat.pow_le_pow_right (by decide) (by omega)
    have hone : powerOfTen 1 = 10 := rfl
    have hunit : 1 <<< 1077 = 8 * unit := by decide
    rw [Nat.div_one, hunit]
    exact Nat.mul_le_mul_right _ (by omega)
  have hproduct : 1 <<< 1137 ≤ nearestUnits (s * unit) 1 * powerUnits e.toNat / unit := by
    have hunit : 1 <<< 1137 * unit = 1 <<< 1134 * 1 <<< 1077 := by decide
    rw [Nat.le_div_iff_mul_le (by decide), hunit]
    exact Nat.mul_le_mul hdigits hpower
  have hne : ¬ nearestUnits (s * unit) 1 = 0 := by
    have hpos : 0 < 1 <<< 1134 := by decide
    generalize 1 <<< 1134 = m at *
    omega
  unfold approximate? at h
  dsimp only at h
  rw [if_neg (by omega), if_neg hne] at h
  split at h
  · cases h
  · split at h
    · next hfinite =>
      cases h
      exact large_ofUnits (le_nearestUnits hproduct) hfinite
    · cases h

end Json.Number

namespace Numeral

variable {n : Numeral}

theorem number?_number (n : Numeral) : (Json.number n).number? = n.jsonNumber? := rfl

theorem jsonNumber?_of_lt (h : n.isWhole = true) (hlt : digitsValue n.whole < UInt64.size) :
    n.jsonNumber? =
      if n.negative = false then some (.unsigned (.ofNat (digitsValue n.whole)))
      else if 0 < digitsValue n.whole ∧ Int64.minValue.toInt ≤ -(digitsValue n.whole : Int) then
        some (.negative (.ofInt (-(digitsValue n.whole : Int))))
      else some (.real (.nearest true (digitsValue n.whole) 1)) := by
  have htake : takeWhole 0 n.whole = (digitsValue n.whole, 0) := takeWhole_of_lt hlt
  unfold jsonNumber?
  rw [htake]
  dsimp only
  rw [if_pos ⟨h, rfl⟩]
  cases n.negative <;> rfl

/-- The leading digits of an integer that sixty-four bits cannot hold stand for it, with a zero for
each digit behind them. -/
theorem jsonNumber?_of_le (h : n.isWhole = true) (hle : UInt64.size ≤ digitsValue n.whole) :
    n.jsonNumber? = (approximate? n.negative (takeWhole 0 n.whole).1
      (takeWhole 0 n.whole).2).map .real := by
  obtain ⟨hfraction, hexponent⟩ := (Bool.and_eq_true _ _).mp h
  have htake : ¬ (takeWhole 0 n.whole).2 = 0 := by
    rw [takeWhole_snd_eq_zero_iff (by decide)]
    exact Nat.not_lt.mpr hle
  unfold jsonNumber?
  dsimp only
  rw [if_neg fun hwhole => htake hwhole.2, List.isEmpty_iff.mp hfraction,
    Option.isNone_iff_eq_none.mp hexponent]
  simp only [takeFraction, Int.natCast_zero, Int.sub_zero]
  rfl

theorem toInt64?_eq_none_of_le (h : n.isWhole = true)
    (hle : UInt64.size ≤ digitsValue n.whole) : (Json.number n).toInt64? = none := by
  unfold toInt64?
  rw [number?_number, jsonNumber?_of_le h hle]
  cases approximate? n.negative (takeWhole 0 n.whole).1 (takeWhole 0 n.whole).2 <;> rfl

/-- The sixty-four bits of a small integer are the only ones with its value. -/
theorem ofInt_eq_iff {k : Int} (hmin : Int64.minValue.toInt ≤ k) (hmax : k ≤ Int64.maxValue.toInt)
    {i : Int64} : Int64.ofInt k = i ↔ i.toInt = k := by
  have hk : (Int64.ofInt k).toInt = k := Int64.toInt_ofInt_of_le hmin (by
    rw [Int64.toInt_maxValue] at hmax
    omega)
  refine ⟨fun h => h ▸ hk, fun h => ?_⟩
  rw [← Int64.toInt_inj, hk, h]

theorem toInt64?_eq_some_iff (h : n.isWhole = true) {i : Int64} :
    (Json.number n).toInt64? = some i ↔ n.Fits ∧ i.toInt = n.integer := by
  have hmin : Int64.minValue.toInt = -9223372036854775808 := by decide
  have hmax : Int64.maxValue.toInt = 9223372036854775807 := by decide
  have hsize : UInt64.size = 18446744073709551616 := rfl
  by_cases hlt : digitsValue n.whole < UInt64.size
  · unfold toInt64?
    rw [number?_number, jsonNumber?_of_lt h hlt]
    unfold Fits IsMinusZero integer
    have hd : (UInt64.ofNat (digitsValue n.whole)).toNat = digitsValue n.whole :=
      UInt64.toNat_ofNat_of_lt' hlt
    cases n.negative with
    | false =>
      simp only [reduceIte, hd, Bool.false_eq_true, false_and, not_false_eq_true, and_true]
      by_cases hle : (digitsValue n.whole : Int) ≤ Int64.maxValue.toInt
      · rw [if_pos hle, Option.some.injEq, ofInt_eq_iff (by omega) hle]
        exact ⟨fun hi => ⟨⟨by omega, hle⟩, hi⟩, And.right⟩
      · rw [if_neg hle]
        exact ⟨fun hi => absurd hi (by simp), fun hi => absurd hi.1.2 hle⟩
    | true =>
      simp only [Bool.true_eq_false, reduceIte, true_and]
      by_cases hfits : 0 < digitsValue n.whole ∧
          Int64.minValue.toInt ≤ -(digitsValue n.whole : Int)
      · rw [if_pos hfits]
        show some (Int64.ofInt (-(digitsValue n.whole : Int))) = some i ↔ _
        rw [Option.some.injEq, ofInt_eq_iff hfits.2 (by omega)]
        exact ⟨fun hi => ⟨⟨hfits.2, by omega, by omega⟩, hi⟩, And.right⟩
      · rw [if_neg hfits]
        exact ⟨fun hi => absurd hi (by simp), fun hi => absurd hi.1 (by omega)⟩
  · rw [toInt64?_eq_none_of_le h (Nat.not_lt.mp hlt)]
    refine ⟨fun hi => absurd hi (by simp), fun hi => ?_⟩
    have hbound : ¬ n.Fits := by
      unfold Fits integer
      split <;> omega
    exact absurd hi.1 hbound

/-- An integer that sixty-four bits hold without its sign is read as the number nearest to it. -/
theorem toBinary64?_of_lt (h : n.isWhole = true) (hlt : digitsValue n.whole < UInt64.size) :
    (Json.number n).toBinary64? = some (.nearest n.negative (digitsValue n.whole) 1) := by
  have hmax : Int64.maxValue.toInt = 9223372036854775807 := by decide
  unfold toBinary64?
  rw [number?_number, jsonNumber?_of_lt h hlt]
  cases n.negative with
  | false =>
    have hd : (UInt64.ofNat (digitsValue n.whole)).toNat = digitsValue n.whole :=
      UInt64.toNat_ofNat_of_lt' hlt
    have hsign : decide ((digitsValue n.whole : Int) < 0) = false := decide_eq_false (by omega)
    show some (Binary64.ofInt (UInt64.ofNat (digitsValue n.whole)).toNat) = _
    rw [hd]
    unfold Binary64.ofInt
    rw [hsign]
    rfl
  | true =>
    rw [if_neg (by decide)]
    by_cases hfits : 0 < digitsValue n.whole ∧
        Int64.minValue.toInt ≤ -(digitsValue n.whole : Int)
    · rw [if_pos hfits]
      have hd : (Int64.ofInt (-(digitsValue n.whole : Int))).toInt = -(digitsValue n.whole : Int) :=
        (ofInt_eq_iff hfits.2 (by omega)).mp rfl
      have hsign : decide (-(digitsValue n.whole : Int) < 0) = true := decide_eq_true (by omega)
      show some (Binary64.ofInt (Int64.ofInt (-(digitsValue n.whole : Int))).toInt) = _
      rw [hd]
      unfold Binary64.ofInt
      rw [hsign, Int.natAbs_neg]
      rfl
    · rw [if_neg hfits]

/-- An integer that does not fit is read as a large number of its sign, if it is read at all. -/
theorem large_of_not_fits (hn : n.IsInteger) (hne : n.integer ≠ 0) (hfits : ¬ n.Fits)
    {x : Binary64} (hx : (Json.number n).toBinary64? = some x) : Large n.negative x := by
  have hmin : Int64.minValue.toInt = -9223372036854775808 := by decide
  have hmax : Int64.maxValue.toInt = 9223372036854775807 := by decide
  have hsize : UInt64.size = 18446744073709551616 := rfl
  by_cases hlt : digitsValue n.whole < UInt64.size
  · have hdigits : 1 <<< 63 ≤ digitsValue n.whole := by
      have hbound : 1 <<< 63 = 9223372036854775808 := by decide
      unfold Fits IsMinusZero integer at hfits
      unfold integer at hne
      split at hne <;> rename_i hsign <;> simp only [hsign] at hfits <;> omega
    rw [toBinary64?_of_lt hn.whole hlt] at hx
    cases hx
    exact large_nearest n.negative hdigits hlt
  · unfold toBinary64? at hx
    rw [number?_number, jsonNumber?_of_le hn.whole (Nat.not_lt.mp hlt)] at hx
    have hover : (takeWhole 0 n.whole).2 ≠ 0 := by
      rw [Ne, takeWhole_snd_eq_zero_iff (by decide)]
      exact hlt
    have hlead := size_le_takeWhole hn.digits hover
    have hs : 1 <<< 60 ≤ (takeWhole 0 n.whole).1 := by
      have hbound : 1 <<< 60 = 1152921504606846976 := by decide
      omega
    cases hy : approximate? n.negative (takeWhole 0 n.whole).1 (takeWhole 0 n.whole).2 with
    | none => rw [hy] at hx; cases hx
    | some y =>
      rw [hy] at hx
      cases hx
      exact large_approximate? hs (by omega) hy

/-! ## Integers as they are written -/

theorem isInteger_ofInt (k : Int) : (ofInt k).IsInteger :=
  ⟨rfl, fun _ hc => Nat.isDigit_of_mem_toDigits (by decide) (by decide) hc⟩

theorem integer_ofInt (k : Int) : (ofInt k).integer = k := by
  unfold integer ofInt
  dsimp only
  rw [digitsValue_toDigits]
  by_cases h : k < 0
  · rw [decide_eq_true h, if_pos rfl]
    omega
  · rw [decide_eq_false h, if_neg Bool.false_ne_true]
    omega

theorem toInt64?_ofInt (i : Int64) : (Json.number (ofInt i.toInt)).toInt64? = some i := by
  have hminus : ¬ (ofInt i.toInt).IsMinusZero := by
    rintro ⟨hnegative, hzero⟩
    rw [integer_ofInt] at hzero
    have hlt : i.toInt < 0 := of_decide_eq_true hnegative
    omega
  have hfits : (ofInt i.toInt).Fits := by
    refine ⟨?_, ?_, hminus⟩ <;> rw [integer_ofInt]
    · exact i.minValue_le_toInt
    · exact i.toInt_le
  exact (toInt64?_eq_some_iff (isInteger_ofInt _).whole).mpr ⟨hfits, (integer_ofInt _).symm⟩

theorem toUInt64?_ofInt (n : UInt64) : (Json.number (ofInt n.toNat)).toUInt64? = some n := by
  unfold toUInt64?
  rw [number?_number, jsonNumber?_of_unsigned]

end Numeral

end IndexQuery
