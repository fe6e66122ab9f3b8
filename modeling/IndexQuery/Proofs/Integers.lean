import IndexQuery.Proofs.Outcome
import IndexQuery.Value.Coercion

/-!
# Integers as parameters

A field that takes integers binds a value as the integer that the value denotes, if it takes that
integer, and refuses it otherwise: no integer wraps, is cut or is taken for another.  An integer is
bound with sign as long as sixty-four bits with sign hold it.

    integer? cs = some n ↔ Spells cs n                                   (integer?_eq_some_iff)
    integerParam n = .ok p ↔ p.Holds n   for n of sixty-four bits        (integerParam_eq_ok_iff)
    f.bind v = .ok p ↔ ∃ n, v.toInteger? = some n ∧ f.Takes n ∧ p.Holds n
      if f takes integers and v is not null                                  (bind_eq_ok_iff)
    f.bind v = .ok p ↔ v.Denotes n ∧ f.Takes n ∧ p.Holds n for some n, if v is no float either
                                                                            (bind_integers)
-/

namespace IndexQuery

open Text Outcome

/-! ## Algorithm -/

/-- Digits behind at most one sign, and the integer that they spell. -/
inductive Text.Spells : List Char → Int → Prop where
  | plain {ds : List Char} (hne : ds ≠ []) (hds : ∀ d ∈ ds, d.isDigit = true) :
    Spells ds (digitsValue ds)
  | plus {ds : List Char} (hne : ds ≠ []) (hds : ∀ d ∈ ds, d.isDigit = true) :
    Spells ('+' :: ds) (digitsValue ds)
  | minus {ds : List Char} (hne : ds ≠ []) (hds : ∀ d ∈ ds, d.isDigit = true) :
    Spells ('-' :: ds) (-digitsValue ds)

/-- A value denotes an integer: a truth value as zero or one, a decimal that is whole however it is
scaled, a text that spells an integer between blanks. -/
inductive Value.Denotes : Value → Int → Prop where
  | false : Denotes (.bool false) 0
  | true : Denotes (.bool true) 1
  | int (n : Int64) : Denotes (.int n) n.toInt
  | uint (n : UInt64) : Denotes (.uint n) n.toNat
  | decimal {d : Decimal} {n : Int} (h : d.mantissa = n * powerOfTen d.scale) :
    Denotes (.decimal d) n
  | text {s : String} {before body after : List Char} {n : Int}
    (hs : s.toList = before ++ body ++ after) (hbefore : ∀ c ∈ before, isBlank c = Bool.true)
    (hafter : ∀ c ∈ after, isBlank c = Bool.true) (hbody : Spells body n) : Denotes (.text s) n

/-- A parameter holds an integer, with sign if sixty-four bits with sign hold it. -/
inductive Param.Holds : Param → Int → Prop where
  | integer (n : Int64) : Holds (.integer n) n.toInt
  | unsigned {n : UInt64} (h : 0x7FFFFFFFFFFFFFFF < n.toNat) : Holds (.unsigned n) n.toNat

/-- Fields that bring every value to an integer. -/
def Field.TakesIntegers (f : Field) : Prop :=
  match f.kind with
  | .multi32 | .multi64 | .primaryKey => True
  | .scalar | .fullText => f.type = .integer ∨ f.type = .bigInt

/-- The range of the integers that a field takes. -/
def Field.Takes (f : Field) (n : Int) : Prop :=
  match f.kind with
  | .multi32 => 0 ≤ n ∧ n ≤ 0xFFFFFFFF
  | .multi64 | .primaryKey => 0 ≤ n ∧ n ≤ 0xFFFFFFFFFFFFFFFF
  | .scalar | .fullText => -0x8000000000000000 ≤ n ∧ n ≤ 0xFFFFFFFFFFFFFFFF

theorem Field.Takes.bounds {f : Field} {n : Int} (h : f.Takes n) :
    -0x8000000000000000 ≤ n ∧ n ≤ 0xFFFFFFFFFFFFFFFF := by
  unfold Takes at h
  split at h <;> omega

/-! ## Texts of integers -/

namespace Text

theorem isBlank_of_isDigit {c : Char} (h : c.isDigit = true) : isBlank c = false := by
  simp only [Char.isDigit, Bool.and_eq_true, decide_eq_true_eq, ge_iff_le, UInt32.le_iff_toNat_le]
    at h
  have hle : 48 ≤ c.toNat ∧ c.toNat ≤ 57 := h
  simp only [isBlank, Bool.or_eq_false_iff, Bool.and_eq_false_iff, beq_eq_false_iff_ne,
    decide_eq_false_iff_not]
  omega

/-- What spells an integer neither begins nor ends with a blank. -/
theorem Spells.ends {cs : List Char} {n : Int} (h : Spells cs n) : cs ≠ [] ∧
    (∀ c ∈ cs.head?, isBlank c = false) ∧ ∀ c ∈ cs.getLast?, isBlank c = false := by
  have hlast : ∀ {ds : List Char} (s : Char), ds ≠ [] → (∀ d ∈ ds, d.isDigit = true) →
      ∀ c ∈ (s :: ds).getLast?, isBlank c = false := by
    intro ds s hne hds c hc
    rw [List.getLast?_cons, List.getLast?_eq_some_getLast hne] at hc
    cases hc
    exact isBlank_of_isDigit (hds _ (List.getLast_mem hne))
  cases h with
  | plain hne hds =>
    exact ⟨hne, fun c hc => isBlank_of_isDigit (hds c (List.mem_of_mem_head? hc)),
      fun c hc => isBlank_of_isDigit (hds c (List.mem_of_getLast? hc))⟩
  | plus hne hds =>
    refine ⟨List.cons_ne_nil _ _, fun c hc => ?_, hlast '+' hne hds⟩
    cases hc
    decide
  | minus hne hds =>
    refine ⟨List.cons_ne_nil _ _, fun c hc => ?_, hlast '-' hne hds⟩
    cases hc
    decide

theorem integer?_of_digits {ds : List Char} (hne : ds ≠ []) (hds : ∀ d ∈ ds, d.isDigit = true) :
    integer? ds = some (digitsValue ds : Int) := by
  have hsign : takeSign ds = (false, ds) := by
    unfold takeSign
    split
    · exact absurd (hds '-' List.mem_cons_self) (by decide)
    · exact absurd (hds '+' List.mem_cons_self) (by decide)
    · rfl
  simp only [integer?, hsign]
  exact if_pos ⟨hne, List.all_eq_true.mpr hds⟩

theorem spells_of_takeSign {cs ds : List Char} {negative : Bool} (h : takeSign cs = (negative, ds))
    (hne : ds ≠ []) (hds : ∀ d ∈ ds, d.isDigit = true) :
    Spells cs (if negative then -(digitsValue ds : Int) else digitsValue ds) := by
  unfold takeSign at h
  split at h
  · cases h
    exact .minus hne hds
  · cases h
    exact .plus hne hds
  · cases h
    exact .plain hne hds

theorem integer?_eq_some_iff {cs : List Char} {n : Int} : integer? cs = some n ↔ Spells cs n := by
  constructor
  · intro h
    obtain ⟨negative, ds, hsign⟩ : ∃ negative ds, takeSign cs = (negative, ds) := ⟨_, _, rfl⟩
    simp only [integer?, hsign] at h
    split at h
    · next hdigits =>
      cases h
      exact spells_of_takeSign hsign hdigits.1 (List.all_eq_true.mp hdigits.2)
    · cases h
  · intro h
    cases h with
    | plain hne hds => exact integer?_of_digits hne hds
    | plus hne hds => exact if_pos ⟨hne, List.all_eq_true.mpr hds⟩
    | minus hne hds => exact if_pos ⟨hne, List.all_eq_true.mpr hds⟩

/-- The integer of a text without the blanks around it. -/
theorem integer?_trim_eq_some_iff {cs : List Char} {n : Int} : integer? (trim cs) = some n ↔
    ∃ before body after, cs = before ++ body ++ after ∧ (∀ c ∈ before, isBlank c = true) ∧
      (∀ c ∈ after, isBlank c = true) ∧ Spells body n := by
  constructor
  · intro h
    obtain ⟨before, after, hcs, hbefore, hafter⟩ := exists_eq_trim cs
    exact ⟨before, trim cs, after, hcs, hbefore, hafter, integer?_eq_some_iff.mp h⟩
  · rintro ⟨before, body, after, rfl, hbefore, hafter, hbody⟩
    obtain ⟨hne, hhead, hlast⟩ := hbody.ends
    rw [trim_append hbefore hafter hne hhead hlast]
    exact integer?_eq_some_iff.mpr hbody

end Text

/-! ## Parameters -/

namespace Param

theorem Holds.eq {p q : Param} {n : Int} (hp : p.Holds n) (hq : q.Holds n) : p = q := by
  cases hp with
  | integer a =>
    generalize hn : a.toInt = n at hq
    cases hq with
    | integer b => rw [Int64.toInt_inj.mp hn]
    | unsigned hb =>
      have hlt := Int64.toInt_lt a
      omega
  | @unsigned a ha =>
    generalize hn : (a.toNat : Int) = n at hq
    cases hq with
    | integer b =>
      have hlt := Int64.toInt_lt b
      omega
    | @unsigned b hb => rw [UInt64.toNat_inj.mp (Int.ofNat_inj.mp hn)]

theorem holds_integer {n : Int} (hlow : -0x8000000000000000 ≤ n) (hhigh : n ≤ 0x7FFFFFFFFFFFFFFF) :
    (integer (.ofInt n)).Holds n := by
  have hround : (Int64.ofInt n).toInt = n := Int64.toInt_ofInt_of_le hlow (by omega)
  have h := Holds.integer (.ofInt n)
  rwa [hround] at h

theorem holds_unsigned {n : Int} (hlow : 0x7FFFFFFFFFFFFFFF < n) (hhigh : n ≤ 0xFFFFFFFFFFFFFFFF) :
    (unsigned (.ofNat n.toNat)).Holds n := by
  have hsize : UInt64.size = 0x10000000000000000 := by decide
  have hround : (UInt64.ofNat n.toNat).toNat = n.toNat := UInt64.toNat_ofNat_of_lt (by omega)
  have h := Holds.unsigned (n := .ofNat n.toNat) (by omega)
  rwa [hround, Int.toNat_of_nonneg (by omega)] at h

end Param

namespace Value

theorem integerParam_eq_ok_iff {n : Int} {p : Param} :
    integerParam n = .ok p ↔ -0x8000000000000000 ≤ n ∧ n ≤ 0xFFFFFFFFFFFFFFFF ∧ p.Holds n := by
  have hmin : Int64.minValue.toInt = -0x8000000000000000 := by decide
  have hmax : Int64.maxValue.toInt = 0x7FFFFFFFFFFFFFFF := by decide
  have hsize : UInt64.size = 0x10000000000000000 := by decide
  -- an integer that is bound as a parameter which holds it is bound as no other
  have hbound : ∀ {q : Param}, -0x8000000000000000 ≤ n → n ≤ 0xFFFFFFFFFFFFFFFF → q.Holds n →
      ((.ok q : Except Misfit Param) = .ok p ↔
        -0x8000000000000000 ≤ n ∧ n ≤ 0xFFFFFFFFFFFFFFFF ∧ p.Holds n) := by
    intro q hlow hhigh hq
    constructor
    · intro h
      cases h
      exact ⟨hlow, hhigh, hq⟩
    · rintro ⟨-, -, hp⟩
      rw [hp.eq hq]
  unfold integerParam
  split
  · next hn => exact hbound (by omega) (by omega) (Param.holds_integer (by omega) (by omega))
  · next hn =>
    split
    · next hsigned =>
      exact hbound (by omega) (by omega) (Param.holds_unsigned (by omega) (by omega))
    · constructor
      · intro h
        cases h
      · rintro ⟨hlow, hhigh, -⟩
        omega

theorem toInteger_eq_ok_iff {v : Value} {n : Int} :
    v.toInteger = .ok n ↔ v.toInteger? = some n := by
  unfold toInteger viewed
  cases v.toInteger? with
  | none => simp
  | some m => simp

end Value

/-! ## Fields -/

namespace Field

variable {f : Field} {v : Value} {p : Param}

theorem coercePresent_eq_ok_iff (hf : f.TakesIntegers) : v.coercePresent f = .ok p ↔
    ∃ n, v.toInteger? = some n ∧ f.Takes n ∧ p.Holds n := by
  have hplain : (∀ n, f.Takes n ↔ -0x8000000000000000 ≤ n ∧ n ≤ 0xFFFFFFFFFFFFFFFF) →
      f.type = .integer ∨ f.type = .bigInt → (v.coerceTo f.type = .ok p ↔
        ∃ n, v.toInteger? = some n ∧ f.Takes n ∧ p.Holds n) := by
    intro htakes htype
    have hcoerce : v.coerceTo f.type = (do Value.integerParam (← v.toInteger)) := by
      rcases htype with htype | htype <;> rw [htype] <;> rfl
    rw [hcoerce, bind_eq_ok]
    refine exists_congr fun n => and_congr Value.toInteger_eq_ok_iff ?_
    rw [htakes, Value.integerParam_eq_ok_iff, and_assoc]
  have hchecked : ∀ {c : Int → Prop} [∀ n, Decidable (c n)] {e : Int → Misfit},
      (∀ n, f.Takes n ↔ ¬c n ∧ -0x8000000000000000 ≤ n ∧ n ≤ 0xFFFFFFFFFFFFFFFF) →
      ((do
          let n ← v.toInteger
          if c n then .error (e n) else Value.integerParam n) = .ok p ↔
        ∃ n, v.toInteger? = some n ∧ f.Takes n ∧ p.Holds n) := by
    intro c _ e htakes
    rw [bind_eq_ok]
    refine exists_congr fun n => and_congr Value.toInteger_eq_ok_iff ?_
    rw [htakes]
    by_cases hc : c n
    · simp [hc]
    · simp [hc, Value.integerParam_eq_ok_iff, and_assoc]
  have hsize : UInt32.size = 0x100000000 := by decide
  unfold Value.coercePresent
  unfold TakesIntegers at hf
  unfold Takes at hplain hchecked ⊢
  cases hkind : f.kind with
  | multi32 =>
    simp only [hkind] at hchecked ⊢
    exact hchecked fun n => by omega
  | multi64 =>
    simp only [hkind] at hchecked ⊢
    exact hchecked fun n => by omega
  | primaryKey =>
    simp only [hkind] at hchecked ⊢
    exact hchecked fun n => by omega
  | scalar =>
    simp only [hkind] at hf hplain ⊢
    exact hplain (fun _ => trivial) hf
  | fullText =>
    simp only [hkind] at hf hplain ⊢
    exact hplain (fun _ => trivial) hf

theorem bind_eq_ok_iff (hf : f.TakesIntegers) (hv : v ≠ .null) : f.bind v = .ok p ↔
    ∃ n, v.toInteger? = some n ∧ f.Takes n ∧ p.Holds n := by
  have hpresent : v.coerce f = v.coercePresent f := by
    cases v with
    | null => exact absurd rfl hv
    | _ => rfl
  unfold bind
  rw [mapError_eq_ok, hpresent, coercePresent_eq_ok_iff hf]

end Field

/-! ## Values that denote integers -/

namespace Value

/-- What is read of a value, other than a float, is what it denotes. -/
theorem denotes_of_toInteger? {v : Value} {n : Int} (hv : ∀ x, v ≠ .float x)
    (h : v.toInteger? = some n) : v.Denotes n := by
  cases v with
  | null => cases h
  | bool b =>
    cases h
    cases b with
    | false => exact .false
    | true => exact .true
  | int m =>
    cases h
    exact .int m
  | uint m =>
    cases h
    exact .uint m
  | float x => exact absurd rfl (hv x)
  | decimal d => exact .decimal (Decimal.toInt?_eq_some_iff.mp h)
  | text s =>
    obtain ⟨hread, -⟩ := Option.filter_eq_some_iff.mp h
    obtain ⟨before, body, after, hs, hbefore, hafter, hbody⟩ := integer?_trim_eq_some_iff.mp hread
    exact .text hs hbefore hafter hbody
  | timestamp t => cases h

/-- An integer of sixty-four bits that a value denotes is read. -/
theorem Denotes.toInteger?_eq {v : Value} {n : Int} (h : v.Denotes n)
    (hlow : -0x8000000000000000 ≤ n) (hhigh : n ≤ 0xFFFFFFFFFFFFFFFF) : v.toInteger? = some n := by
  cases h with
  | false => rfl
  | true => rfl
  | int m => rfl
  | uint m => rfl
  | decimal h => exact Decimal.toInt?_eq_some_iff.mpr h
  | text hs hbefore hafter hbody =>
    have hread := integer?_trim_eq_some_iff.mpr ⟨_, _, _, hs, hbefore, hafter, hbody⟩
    have hleast : leastInteger ≤ -0x8000000000000000 := by decide
    have hgreatest : 0xFFFFFFFFFFFFFFFF ≤ greatestInteger := by decide
    exact Option.filter_eq_some_iff.mpr
      ⟨hread, decide_eq_true ⟨Int.le_trans hleast hlow, Int.le_trans hhigh hgreatest⟩⟩

/-- A value denotes one integer at most. -/
theorem Denotes.eq {v : Value} {m n : Int} (hm : v.Denotes m) (hn : v.Denotes n) : m = n := by
  cases hm with
  | false =>
    cases hn
    rfl
  | true =>
    cases hn
    rfl
  | int k =>
    cases hn
    rfl
  | uint k =>
    cases hn
    rfl
  | decimal hm =>
    cases hn with
    | decimal hn =>
      exact Option.some.inj
        ((Decimal.toInt?_eq_some_iff.mpr hm).symm.trans (Decimal.toInt?_eq_some_iff.mpr hn))
  | text hs hbefore hafter hbody =>
    cases hn with
    | text hs' hbefore' hafter' hbody' =>
      have hm := integer?_trim_eq_some_iff.mpr ⟨_, _, _, hs, hbefore, hafter, hbody⟩
      have hn := integer?_trim_eq_some_iff.mpr ⟨_, _, _, hs', hbefore', hafter', hbody'⟩
      exact Option.some.inj (hm.symm.trans hn)

theorem Denotes.ne_null {v : Value} {n : Int} (h : v.Denotes n) : v ≠ .null := by
  rintro rfl
  cases h

theorem Denotes.ne_float {v : Value} {n : Int} (h : v.Denotes n) (x : Binary64) : v ≠ .float x := by
  rintro rfl
  cases h

end Value

namespace Field

variable {f : Field}

theorem bind_eq_ok_iff_of_denotes (hf : f.TakesIntegers) {v : Value} {n : Int} (hn : v.Denotes n)
    {p : Param} : f.bind v = .ok p ↔ f.Takes n ∧ p.Holds n := by
  rw [bind_eq_ok_iff hf hn.ne_null]
  constructor
  · rintro ⟨m, hm, htakes, hholds⟩
    obtain rfl := (Value.denotes_of_toInteger? hn.ne_float hm).eq hn
    exact ⟨htakes, hholds⟩
  · rintro ⟨htakes, hholds⟩
    obtain ⟨hlow, hhigh⟩ := htakes.bounds
    exact ⟨n, hn.toInteger?_eq hlow hhigh, htakes, hholds⟩

theorem Takes.exists_holds {n : Int} (h : f.Takes n) : ∃ p : Param, p.Holds n := by
  obtain ⟨hlow, hhigh⟩ := h.bounds
  by_cases hn : n ≤ 0x7FFFFFFFFFFFFFFF
  · exact ⟨_, Param.holds_integer hlow hn⟩
  · exact ⟨_, Param.holds_unsigned (by omega) (by omega)⟩

/-- A field that takes integers binds null as null and nothing else as null; of every other value
it makes an integer in its range.  If that value is no float, it is accepted if and only if it
denotes an integer in the range, and then that integer is bound, however the value writes it. -/
theorem bind_integers (hf : f.TakesIntegers) :
    (∀ v, f.bind v = .ok .null ↔ v = .null) ∧
      (∀ v p, v ≠ .null → f.bind v = .ok p → ∃ n, f.Takes n ∧ p.Holds n) ∧
      (∀ v, v ≠ .null → (∀ x, v ≠ .float x) →
        ((∃ p, f.bind v = .ok p) ↔ ∃ n, v.Denotes n ∧ f.Takes n)) ∧
      (∀ v n, v.Denotes n → ∀ p, f.bind v = .ok p ↔ f.Takes n ∧ p.Holds n) ∧
      ∀ v w n, v.Denotes n → w.Denotes n → ∀ p, f.bind v = .ok p ↔ f.bind w = .ok p := by
  refine ⟨fun v => ⟨fun h => ?_, ?_⟩, fun v p hv h => ?_, fun v hv hfloat => ⟨?_, ?_⟩,
    fun v n hn p => bind_eq_ok_iff_of_denotes hf hn, fun v w n hv hw p => ?_⟩
  · by_contra hv
    obtain ⟨n, -, -, hholds⟩ := (bind_eq_ok_iff hf hv).mp h
    cases hholds
  · rintro rfl
    rfl
  · obtain ⟨n, -, htakes, hholds⟩ := (bind_eq_ok_iff hf hv).mp h
    exact ⟨n, htakes, hholds⟩
  · rintro ⟨p, h⟩
    obtain ⟨n, hn, htakes, -⟩ := (bind_eq_ok_iff hf hv).mp h
    exact ⟨n, Value.denotes_of_toInteger? hfloat hn, htakes⟩
  · rintro ⟨n, hn, htakes⟩
    obtain ⟨p, hp⟩ := htakes.exists_holds
    exact ⟨p, (bind_eq_ok_iff_of_denotes hf hn).mpr ⟨htakes, hp⟩⟩
  · rw [bind_eq_ok_iff_of_denotes hf hv, bind_eq_ok_iff_of_denotes hf hw]

/-- A document id as a padded text and as a scaled decimal, the greatest one, and one below zero. -/
theorem primaryKey_integers : (primaryKey "id").TakesIntegers ∧
    (primaryKey "id").bind (.text " +018 ") = .ok (.integer 18) ∧
    (primaryKey "id").bind (.decimal ⟨1800, 2, by decide, by decide⟩) = .ok (.integer 18) ∧
    (primaryKey "id").bind (.uint 18446744073709551615) =
      .ok (.unsigned 18446744073709551615) ∧
    ∀ p, (primaryKey "id").bind (.int (-1)) ≠ .ok p := by
  have hkey : (primaryKey "id").TakesIntegers := trivial
  obtain ⟨-, -, -, hbind, hsame⟩ := bind_integers hkey
  have htext : (Value.text " +018 ").Denotes 18 :=
    .text (show _ = [' '] ++ '+' :: "018".toList ++ [' '] from rfl) (List.all_eq_true.mp rfl)
      (List.all_eq_true.mp rfl) (.plus (by decide) (List.all_eq_true.mp rfl))
  have hpadded := (hbind _ _ htext (.integer 18)).mpr ⟨⟨by decide, by decide⟩, .integer 18⟩
  refine ⟨hkey, hpadded, (hsame _ _ 18 htext (.decimal rfl) _).mp hpadded,
    (hbind _ _ (.uint _) _).mpr ⟨⟨by decide, by decide⟩, .unsigned (by decide)⟩, fun p h => ?_⟩
  obtain ⟨⟨hlow, -⟩, -⟩ := (hbind _ _ (.int (-1)) p).mp h
  exact absurd hlow (by decide)

end Field

end IndexQuery
