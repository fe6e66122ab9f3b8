import IndexQuery.Binary64.Layout
import IndexQuery.Binary64.Rounding
import IndexQuery.Proofs.Legible.Text

/-!
# Large integers in binary

An integer of more than sixty-three bits is rounded to a multiple of 2048, and the shortest decimal
that reads back as such a number leaves at least three digits out.  What is written for it is the
digits of that decimal with zeros behind them.

    1 <<< m ≤ n / d → 1 <<< m ≤ nearestUnits n d                             (le_nearestUnits)
    1 <<< m ≤ u → 1 <<< m ≤ (ofUnits b u).units   if it is finite, 52 ≤ m     (le_units_ofUnits)
    largeUnits ≤ x.units → 3 ≤ (x.shortest t).exponent              (three_le_exponent_shortest)
    l.text x = signedDecimal k ↔ significand · 10 ^ exponent = |k|    (text_eq_signedDecimal_iff)
-/

namespace IndexQuery.Binary64

open Text

/-! ## Algorithm -/

/-- The first magnitude of more than sixty-three bits. -/
def largeUnits : Nat := (1 <<< 63) * unit

/-! ## Shifts -/

theorem shiftLeft_mono {a b : Nat} (h : a ≤ b) (k : Nat) : a <<< k ≤ b <<< k := by
  rw [Nat.shiftLeft_eq, Nat.shiftLeft_eq]
  exact Nat.mul_le_mul_right _ h

theorem one_shiftLeft_mono {j k : Nat} (h : j ≤ k) : 1 <<< j ≤ 1 <<< k := by
  rw [Nat.one_shiftLeft, Nat.one_shiftLeft]
  exact Nat.pow_le_pow_right (by decide) h

theorem one_shiftLeft_add (j k : Nat) : 1 <<< (j + k) = (1 <<< j) <<< k := by
  rw [Nat.one_shiftLeft, Nat.one_shiftLeft, Nat.shiftLeft_eq, Nat.pow_add]

theorem le_log2 {m n : Nat} (h : 1 <<< m ≤ n) : m ≤ n.log2 := by
  have hpos := Nat.two_pow_pos m
  rw [Nat.one_shiftLeft] at h
  exact (Nat.le_log2 (by omega)).mpr h

theorem log2_le {m n : Nat} (h : n < 1 <<< (m + 1)) : n.log2 ≤ m := by
  by_cases hzero : n = 0
  · rw [hzero]
    exact Nat.zero_le m
  · rw [Nat.one_shiftLeft] at h
    exact Nat.le_of_lt_succ ((Nat.log2_lt hzero).mpr h)

/-- To cut bits off keeps the leading one. -/
theorem shiftLeft_log2_le {q p : Nat} (hq : q ≠ 0) (hp : p ≤ q.log2) :
    1 <<< (q.log2 - p) ≤ q >>> p := by
  have hsplit := Nat.pow_add 2 (q.log2 - p) p
  have hle := Nat.log2_self_le hq
  rw [Nat.sub_add_cancel hp] at hsplit
  rw [Nat.one_shiftLeft, Nat.shiftRight_eq_div_pow,
    Nat.le_div_iff_mul_le (Nat.two_pow_pos p), ← hsplit]
  exact hle

/-! ## Rounding -/

theorem div_le_roundHalfEven (n d : Nat) : n / d ≤ roundHalfEven n d := by
  unfold roundHalfEven
  dsimp only
  split
  · exact Nat.le_refl _
  · split
    · exact Nat.le_succ _
    · split
      · exact Nat.le_refl _
      · exact Nat.le_succ _

/-- A power of two that is reached is reached after rounding. -/
theorem le_nearestUnits {m n d : Nat} (h : 1 <<< m ≤ n / d) : 1 <<< m ≤ nearestUnits n d := by
  have hlog := le_log2 h
  have hne : n / d ≠ 0 := by
    have hpos := Nat.two_pow_pos m
    rw [Nat.one_shiftLeft] at h
    omega
  have hgrid : gridOf (n / d) ≤ (n / d).log2 := Nat.sub_le _ _
  have hdiv : n / (d <<< gridOf (n / d)) = (n / d) >>> gridOf (n / d) := by
    rw [Nat.shiftLeft_eq, Nat.shiftRight_eq_div_pow, Nat.div_div_eq_div_mul]
  have hround := div_le_roundHalfEven n (d <<< gridOf (n / d))
  rw [hdiv] at hround
  calc 1 <<< m
      ≤ 1 <<< ((n / d).log2 - gridOf (n / d) + gridOf (n / d)) :=
        one_shiftLeft_mono (by omega)
    _ = (1 <<< ((n / d).log2 - gridOf (n / d))) <<< gridOf (n / d) := one_shiftLeft_add _ _
    _ ≤ roundHalfEven n (d <<< gridOf (n / d)) <<< gridOf (n / d) :=
        shiftLeft_mono (Nat.le_trans (shiftLeft_log2_le hne hgrid) hround) _

theorem roundHalfEven_le (n d : Nat) : roundHalfEven n d ≤ n / d + 1 := by
  unfold roundHalfEven
  dsimp only
  split
  · exact Nat.le_succ _
  · split
    · exact Nat.le_refl _
    · split
      · exact Nat.le_succ _
      · exact Nat.le_refl _

/-- A power of two that is not reached is not passed by rounding. -/
theorem nearestUnits_le {m n d : Nat} (h : n / d < 1 <<< m) : nearestUnits n d ≤ 1 <<< m := by
  have hgrid : gridOf (n / d) ≤ m := by
    have hlog := log2_le (Nat.lt_of_lt_of_le h (one_shiftLeft_mono (Nat.le_succ m)))
    unfold gridOf
    omega
  have hcut : n / (d <<< gridOf (n / d)) < 1 <<< (m - gridOf (n / d)) := by
    rw [Nat.shiftLeft_eq, ← Nat.div_div_eq_div_mul, Nat.one_shiftLeft,
      Nat.div_lt_iff_lt_mul (Nat.two_pow_pos _), ← Nat.pow_add, Nat.sub_add_cancel hgrid]
    rwa [← Nat.one_shiftLeft]
  have hround := roundHalfEven_le n (d <<< gridOf (n / d))
  calc nearestUnits n d
      ≤ (1 <<< (m - gridOf (n / d))) <<< gridOf (n / d) := shiftLeft_mono (by omega) _
    _ = 1 <<< m := by rw [← one_shiftLeft_add, Nat.sub_add_cancel hgrid]

/-! ## Bits -/

section

variable (b : Bool) {w : Nat}

theorem word_ofWord (h : w ≤ infinityWord) :
    (ofWord b w).word = (if b then 1 <<< 63 else 0) + w := by
  have hlt : (if b then 1 <<< 63 else 0) + w < UInt64.size := by
    have hinfinity : infinityWord < 1 <<< 63 := by decide
    have hsize : UInt64.size = 1 <<< 63 + 1 <<< 63 := by decide
    cases b <;> simp only [Bool.false_eq_true, reduceIte] <;> omega
  exact UInt64.toNat_ofNat_of_lt' hlt

theorem isNegative_ofWord (h : w ≤ infinityWord) : (ofWord b w).isNegative = b := by
  have hinfinity : infinityWord < 1 <<< 63 := by decide
  unfold isNegative
  rw [word_ofWord b h]
  cases b
  · exact decide_eq_false (by simp only [Bool.false_eq_true, reduceIte]; omega)
  · exact decide_eq_true (by simp only [reduceIte]; omega)

theorem field_ofWord (h : w ≤ infinityWord) : (ofWord b w).field = w / 4503599627370496 := by
  have hinfinity : infinityWord = 2047 * 4503599627370496 := by decide
  have hsign : 1 <<< 63 = 2048 * 4503599627370496 := by decide
  have hbase : 1 <<< 11 = 2048 := by decide
  have hshift : (ofWord b w).word >>> 52 = (ofWord b w).word / 4503599627370496 :=
    Nat.shiftRight_eq_div_pow _ 52
  unfold field
  rw [hshift, word_ofWord b h, hsign, hbase]
  cases b <;> simp only [Bool.false_eq_true, reduceIte] <;> omega

end

section

variable (b : Bool) (u : Nat)

theorem isNegative_ofUnits : (ofUnits b u).isNegative = b :=
  isNegative_ofWord b (Nat.min_le_right _ _)

/-- The exponent bits of an encoded magnitude. -/
theorem field_ofUnits_eq : (ofUnits b u).field =
    min (gridOf u * 4503599627370496 + (u >>> gridOf u)) infinityWord / 4503599627370496 := by
  have hshift : gridOf u <<< 52 = gridOf u * 4503599627370496 := Nat.shiftLeft_eq _ 52
  rw [← hshift]
  exact field_ofWord b (Nat.min_le_right _ _)

variable {b u}

/-- A magnitude that is not too large keeps the place of its leading bit. -/
theorem field_ofUnits (hu : 1 <<< 52 ≤ u) (hfinite : (ofUnits b u).isFinite = true) :
    gridOf u + 1 ≤ (ofUnits b u).field := by
  have hinfinity : infinityWord = 2047 * 4503599627370496 := by decide
  have hhidden : 1 <<< 52 = 4503599627370496 := by decide
  have hlog := le_log2 hu
  have hlead := shiftLeft_log2_le (q := u) (p := gridOf u) (by omega) (Nat.sub_le _ _)
  have hrest : u.log2 - gridOf u = 52 := by
    unfold gridOf
    omega
  rw [hrest] at hlead
  have hfield := field_ofUnits_eq b u
  have hne : (ofUnits b u).field ≠ 2047 := bne_iff_ne.mp hfinite
  omega

/-- Magnitudes below `2 ^ 65` are finite. -/
theorem isFinite_ofUnits (hu : u < 1 <<< 1139) : (ofUnits b u).isFinite = true := by
  have hinfinity : infinityWord = 2047 * 4503599627370496 := by decide
  have hfield := field_ofUnits_eq b u
  have hgrid : gridOf u ≤ 1086 := by
    have hlog := log2_le hu
    unfold gridOf
    omega
  have hlead : u >>> gridOf u < 1 <<< 53 := by
    have hlt := Nat.lt_log2_self (n := u)
    have hmono := one_shiftLeft_mono (show u.log2 + 1 ≤ 53 + gridOf u by unfold gridOf; omega)
    rw [Nat.shiftRight_eq_div_pow, Nat.div_lt_iff_lt_mul (Nat.two_pow_pos _), Nat.one_shiftLeft,
      ← Nat.pow_add, ← Nat.one_shiftLeft]
    rw [← Nat.one_shiftLeft] at hlt
    exact Nat.lt_of_lt_of_le hlt hmono
  have hdouble : 1 <<< 53 = 2 * 4503599627370496 := by decide
  -- the bound itself is a number of a thousand bits that the arithmetic does not need
  clear hu
  exact bne_iff_ne.mpr (by omega)

theorem le_units_ofUnits {m : Nat} (hm : 52 ≤ m) (h : 1 <<< m ≤ u)
    (hfinite : (ofUnits b u).isFinite = true) : 1 <<< m ≤ (ofUnits b u).units := by
  have hlog := le_log2 h
  have hfield := field_ofUnits (Nat.le_trans (one_shiftLeft_mono hm) h) hfinite
  have hscale : m ≤ 52 + (ofUnits b u).scale := by
    unfold scale
    unfold gridOf at hfield
    omega
  have hsignificand : 1 <<< 52 ≤ (ofUnits b u).significand := by
    unfold significand
    rw [if_neg (by omega)]
    exact Nat.le_add_right _ _
  calc 1 <<< m
      ≤ 1 <<< (52 + (ofUnits b u).scale) := one_shiftLeft_mono hscale
    _ = (1 <<< 52) <<< (ofUnits b u).scale := one_shiftLeft_add _ _
    _ ≤ (ofUnits b u).units := shiftLeft_mono hsignificand _

end

/-! ## Shortest decimals -/

section

variable {x : Binary64}

theorem significand_lt (x : Binary64) : x.significand < 1 <<< 53 := by
  have hfraction : x.fraction < 1 <<< 52 := Nat.mod_lt _ (by decide)
  have hdouble : 1 <<< 53 = 1 <<< 52 + 1 <<< 52 := by decide
  unfold significand
  split <;> omega

theorem largeUnits_eq : largeUnits = 1 <<< 1137 := by decide

/-- Neighbours of a number of more than sixty-three bits are 2048 or more away. -/
theorem le_shiftLeft_scale (h : largeUnits ≤ x.units) : 2048 * unit ≤ 1 <<< x.scale := by
  have hunits : x.units < 1 <<< (53 + x.scale) := by
    rw [one_shiftLeft_add]
    unfold units
    rw [Nat.shiftLeft_eq, Nat.shiftLeft_eq]
    exact Nat.mul_lt_mul_of_pos_right (significand_lt x) (Nat.two_pow_pos _)
  have hscale : 1137 < 53 + x.scale := by
    refine Nat.lt_of_not_le fun hle => ?_
    have hmono := one_shiftLeft_mono hle
    rw [← largeUnits_eq] at hmono
    exact Nat.lt_irrefl _ (Nat.lt_of_lt_of_le (Nat.lt_of_le_of_lt h hunits) hmono)
  have hunit : 2048 * unit = 1 <<< 1085 := by decide
  rw [hunit]
  exact one_shiftLeft_mono (by omega)

/-- A number other than zero is not less than the distance to its neighbours. -/
theorem shiftLeft_scale_le (h : 0 < x.units) : 1 <<< x.scale ≤ x.units := by
  have hpos : 0 < x.significand := by
    refine Nat.pos_of_ne_zero fun hzero => ?_
    unfold units at h
    rw [hzero, Nat.zero_shiftLeft] at h
    exact Nat.lt_irrefl 0 h
  exact shiftLeft_mono hpos _

/-- All that is less than 500 away from a large number reads back as it. -/
theorem roundsTo_of_near {n : Nat} (h : largeUnits ≤ x.units)
    (hbelow : 4 * x.units ≤ n + 2000 * unit) (habove : n ≤ 4 * x.units + 2000 * unit) :
    x.roundsTo n 1 = true := by
  have hscale := le_shiftLeft_scale h
  have hpos : 0 < x.units := Nat.lt_of_lt_of_le (by decide) h
  have hself := shiftLeft_scale_le hpos
  have hunit : 0 < unit := by decide
  have htwo : 2 <<< x.scale = 2 * 1 <<< x.scale := by
    rw [Nat.shiftLeft_eq, Nat.one_shiftLeft]
  have hlower : x.lowerEnd + 1 <<< x.scale ≤ 4 * x.units := by
    unfold lowerEnd
    split <;> omega
  have hupper : x.upperEnd = 4 * x.units + 2 * 1 <<< x.scale := by
    unfold upperEnd
    rw [htwo]
  unfold roundsTo
  rw [Nat.mul_one, Nat.mul_one]
  split
  · rw [Bool.and_eq_true, decide_eq_true_eq, decide_eq_true_eq]
    omega
  · rw [Bool.and_eq_true, decide_eq_true_eq, decide_eq_true_eq]
    omega

theorem candidate_thousand (tie : Tie) (h : largeUnits ≤ x.units) : candidate tie x 3 ≠ none := by
  have hup : powerOfTen (3 : Int).toNat * (4 * unit) = 4000 * unit := by decide
  have hdown : powerOfTen (-3 : Int).toNat = 1 := rfl
  have hsplit := Nat.div_add_mod (4 * x.units) (4000 * unit)
  have hrest := Nat.mod_lt (4 * x.units) (show 0 < 4000 * unit by decide)
  unfold candidate
  dsimp only
  rw [hup, hdown, Nat.mul_one]
  generalize 4 * x.units / (4000 * unit) = q at *
  generalize 4 * x.units % (4000 * unit) = r at *
  have hbelow : q * (4000 * unit) = 4000 * unit * q := Nat.mul_comm _ _
  have habove : (q + 1) * (4000 * unit) = 4000 * unit * q + 4000 * unit := Nat.mul_comm _ _
  have hnear : x.roundsTo (q * (4000 * unit)) 1 = true ∨
      x.roundsTo ((q + 1) * (4000 * unit)) 1 = true := by
    by_cases hhalf : r ≤ 2000 * unit
    · exact .inl (roundsTo_of_near h (by omega) (by omega))
    · exact .inr (roundsTo_of_near h (by omega) (by omega))
  split
  · next hno hno' => simp [hno, hno'] at hnear
  · exact Option.some_ne_none _
  · exact Option.some_ne_none _
  · split
    · exact Option.some_ne_none _
    · split
      · exact Option.some_ne_none _
      · cases tie <;> exact Option.some_ne_none _

/-- The search from coarse grids to fine ones ends at the latest on one that has a candidate. -/
theorem le_exponent_coarsest {tie : Tie} {e : Int} (he : candidate tie x e ≠ none) {count : Nat} :
    ∀ {k : Int}, e < k → k ≤ e + count → e ≤ (coarsest tie x k count).exponent := by
  induction count with
  | zero =>
    intro k hlt hle
    omega
  | succ count ih =>
    intro k hlt hle
    unfold coarsest
    split
    · show e ≤ k - 1
      omega
    · next hnone =>
      have hne : k - 1 ≠ e := fun heq => he (heq ▸ hnone)
      exact ih (by omega) (by omega)

theorem three_le_exponent_shortest (tie : Tie) (h : largeUnits ≤ x.units) :
    3 ≤ (x.shortest tie).exponent :=
  le_exponent_coarsest (candidate_thousand tie h) (by decide) (by decide)

end

/-! ## Texts -/

theorem digitsValue_append_zeros (s e : Nat) :
    digitsValue (Nat.toDigits 10 s ++ List.replicate e '0') = s * powerOfTen e := by
  unfold digitsValue
  rw [Nat.ofDigitChars_append, Nat.ofDigitChars_ten_toDigits, Nat.ofDigitChars_replicate_zero]
  exact Nat.mul_comm _ _

theorem toDigits_mul_powerOfTen {s : Nat} (hs : 0 < s) (e : Nat) :
    Nat.toDigits 10 (s * powerOfTen e) = Nat.toDigits 10 s ++ List.replicate e '0' := by
  induction e with
  | zero => simp [powerOfTen]
  | succ e ih =>
    have hpos : 0 < s * powerOfTen e := Nat.mul_pos hs (powerOfTen_pos e)
    have hstep : s * powerOfTen (e + 1) = s * powerOfTen e * 10 := (Nat.mul_assoc _ _ _).symm
    rw [hstep, Nat.toDigits_of_base_le (by decide) (by omega), Nat.mul_div_cancel _ (by decide),
      Nat.mul_mod_left, ih, List.append_assoc, List.replicate_succ']
    rfl

namespace Layout

variable {l : Layout} {x : Binary64}

/-- Digits with the point behind all of them are filled up with zeros. -/
theorem plainNumeral_of_le (hpoint : l.pointZero = false) (b : Bool) {ds : List Char} (e : Nat)
    (hds : ds ≠ []) : l.plainNumeral b ds (ds.length + e : Nat) =
      ⟨b, ds ++ List.replicate e '0', [], none⟩ := by
  have hpos : ¬ ((ds.length + e : Nat) : Int) ≤ 0 := by
    have := List.length_pos_iff.mpr hds
    omega
  have hle : ds.length ≤ ds.length + e := Nat.le_add_right _ _
  unfold plainNumeral
  rw [if_neg hpos]
  dsimp only
  rw [Int.toNat_natCast, List.drop_eq_nil_of_le hle, List.take_of_length_le hle,
    Nat.add_sub_cancel_left, hpoint]
  rfl

/-- A layout without powers of ten writes a multiple of ten with all its zeros. -/
theorem text_of_multiple (hplain : l.plain = none) (hpoint : l.pointZero = false)
    (hfinite : x.isFinite = true) (hunits : x.units ≠ 0) {e : Nat}
    (he : (x.shortest l.tie).exponent = e) :
    (l.text x).toList = (if x.isNegative then ['-'] else []) ++
      (Nat.toDigits 10 (x.shortest l.tie).significand ++ List.replicate e '0') := by
  have hnan : x.isNaN = false := by
    unfold isNaN
    rw [beq_eq_false_iff_ne.mpr (bne_iff_ne.mp hfinite), Bool.false_and]
  have hall : ∀ p, l.isPlain p = true := by
    unfold isPlain
    rw [hplain]
    exact fun _ => rfl
  unfold text numeral
  rw [hnan, hfinite, if_neg Bool.false_ne_true, if_pos rfl, if_neg hunits]
  dsimp only
  rw [he, ← Int.natCast_add, hall, if_pos rfl,
    plainNumeral_of_le hpoint _ _ Nat.toDigits_ne_nil, Numeral.text_of_whole, String.toList_ofList]

/-- An integer other than zero is what is written for a number exactly if it is the number's
shortest decimal. -/
theorem text_eq_signedDecimal_iff (hplain : l.plain = none) (hpoint : l.pointZero = false)
    (hfinite : x.isFinite = true) (hunits : x.units ≠ 0) {e : Nat}
    (he : (x.shortest l.tie).exponent = e) {k : Int} (hk : k ≠ 0)
    (hsign : x.isNegative = decide (k < 0)) :
    l.text x = signedDecimal k ↔
      (x.shortest l.tie).significand * powerOfTen e = k.natAbs := by
  have htext := text_of_multiple hplain hpoint hfinite hunits he
  have hsigned : (signedDecimal k).toList =
      (if x.isNegative then ['-'] else []) ++ Nat.toDigits 10 k.natAbs := by
    rw [toList_signedDecimal, hsign]
    by_cases hlt : k < 0 <;> simp [hlt]
  rw [← String.toList_inj, htext, hsigned, List.append_cancel_left_eq]
  constructor
  · intro h
    rw [← digitsValue_append_zeros, h, digitsValue_toDigits]
  · intro h
    have hpos : 0 < (x.shortest l.tie).significand := by
      refine Nat.pos_of_ne_zero fun hzero => ?_
      rw [hzero, Nat.zero_mul] at h
      omega
    rw [← h, toDigits_mul_powerOfTen hpos]

end Layout

end IndexQuery.Binary64
