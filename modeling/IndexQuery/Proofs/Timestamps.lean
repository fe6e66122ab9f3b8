import IndexQuery.Proofs.Calendar
import IndexQuery.Proofs.Integers
import IndexQuery.Proofs.Legible.Text

/-!
# Timestamps read back

An instant is written with a date that the calendar has, a time of day and a fraction of the second,
each part in as many digits as are read, as long as four digits hold the year.  So the text names
the second in which the instant lies, a leap second being the one before it, and a field of seconds
binds the text as it binds the instant.

    n < powerOfTen w → takeNumber w (padded w n ++ r) = .ok (n, r)             (takeNumber_padded)
    takeDate (dateText d ++ r) = .ok (d, r)   if four digits hold the year     (takeDate_dateText)
    takeClock (clockText t ++ r) = .ok (…, r)                                (takeClock_clockText)
    read (write "+00:00" t) = .ok t.seconds                                           (read_write)
    g.bind (.text s) = g.bind (.timestamp t)   for the text of t between blanks
                                                                          (bind_written_timestamp)
-/

namespace IndexQuery

open Text Outcome

/-! ## Padded numbers -/

namespace Text

theorem isDigit_of_mem_toDigits {n : Nat} {c : Char} (h : c ∈ Nat.toDigits 10 n) :
    c.isDigit = true := Nat.isDigit_of_mem_toDigits (by decide) (by decide) h

theorem isDigit_of_mem_padded {width n : Nat} {c : Char} (h : c ∈ padded width n) :
    c.isDigit = true := by
  rcases List.mem_append.mp h with h | h
  · rw [List.eq_of_mem_replicate h]
    rfl
  · exact isDigit_of_mem_toDigits h

theorem padded_ne_nil (width n : Nat) : padded width n ≠ [] :=
  List.append_ne_nil_of_right_ne_nil _ Nat.toDigits_ne_nil

theorem length_padded {width n : Nat} (hwidth : 0 < width) (h : n < powerOfTen width) :
    (padded width n).length = width := by
  have hle := (Nat.length_toDigits_le_iff (by decide) hwidth).mpr h
  simp only [padded, List.length_append, List.length_replicate]
  omega

/-- A padded number is a run of digits that stops in front of anything else. -/
theorem dropDigits_padded (width n : Nat) {r : List Char} (hr : Stops Char.isDigit r) :
    dropDigits (padded width n ++ r) = r :=
  dropWhile_run (fun _ hc => isDigit_of_mem_padded hc) hr

end Text

namespace Rfc3339

/-! ## Parts of a timestamp -/

theorem takeChar_cons {p : Char → Bool} {c : Char} (h : p c = true) (r : List Char) :
    takeChar p (c :: r) = .ok r := if_pos h

theorem takeNumber_padded {width n : Nat} (hwidth : 0 < width) (h : n < powerOfTen width)
    (r : List Char) : takeNumber width (padded width n ++ r) = .ok (n, r) := by
  have hlength := length_padded hwidth h
  have hle := Nat.le_of_eq hlength.symm
  have hge := Nat.le_of_eq hlength
  have htake : (padded width n ++ r).take width = padded width n := by
    rw [List.take_append_of_le_length hle, List.take_of_length_le hge]
  have hdrop : (padded width n ++ r).drop width = r := by
    rw [List.drop_append_of_le_length hle, List.drop_of_length_le hge,
      List.nil_append]
  have hdigits : (padded width n).all Char.isDigit = true :=
    List.all_eq_true.mpr fun c hc => isDigit_of_mem_padded hc
  unfold takeNumber
  dsimp only
  rw [htake, hdrop, digitsValue_padded, if_pos ⟨hlength, hdigits⟩]

theorem takeDate_text {d : Date} (hvalid : d.isValid = true) (hyear : 0 ≤ d.year ∧ d.year ≤ 9999)
    (r : List Char) :
    takeDate (yearText d.year ++ '-' :: (padded 2 d.month ++ '-' :: (padded 2 d.day ++ r))) =
      .ok (d, r) := by
  obtain ⟨year, month, day⟩ := d
  have hy : year.toNat < powerOfTen 4 := by show _ < 10000; dsimp only at hyear; omega
  obtain ⟨hmonth, hday⟩ := Date.bounds_of_isValid hvalid
  have hm : month < powerOfTen 2 := by show _ < 100; dsimp only at hmonth; omega
  have hd : day < powerOfTen 2 := by show _ < 100; dsimp only at hday; omega
  have hnat : ((year.toNat : Nat) : Int) = year := Int.toNat_of_nonneg hyear.1
  unfold takeDate yearText
  rw [if_pos hyear]
  refine bind_eq_ok.mpr ⟨_, takeNumber_padded (by decide) hy _, ?_⟩
  refine bind_eq_ok.mpr ⟨_, takeChar_cons rfl _, ?_⟩
  refine bind_eq_ok.mpr ⟨_, takeNumber_padded (by decide) hm _, ?_⟩
  refine bind_eq_ok.mpr ⟨_, takeChar_cons rfl _, ?_⟩
  refine bind_eq_ok.mpr ⟨_, takeNumber_padded (by decide) hd _, ?_⟩
  dsimp only
  rw [hnat, if_pos hvalid]

theorem skipFraction_point {width n : Nat} {r : List Char} (hr : Stops Char.isDigit r) :
    skipFraction ('.' :: (padded width n ++ r)) = .ok r := by
  have hdrop := dropDigits_padded width n hr
  cases hpadded : padded width n with
  | nil => exact absurd hpadded (padded_ne_nil width n)
  | cons c ds =>
    have hc : c.isDigit = true := isDigit_of_mem_padded (hpadded ▸ List.mem_cons_self)
    rw [hpadded] at hdrop
    show (if c.isDigit then Except.ok (dropDigits (c :: ds ++ r)) else _) = _
    rw [if_pos hc, hdrop]

/-- A fraction of any length is skipped, and one of zero is not written. -/
theorem skipFraction_fractionText (nanos : Nat) {r : List Char}
    (hr : Stops (fun c => c.isDigit || c == '.') r) :
    skipFraction (fractionText nanos ++ r) = .ok r := by
  have hdigits : Stops Char.isDigit r := hr.imp fun c hc => by simp [hc]
  unfold fractionText
  split
  · cases r with
    | nil => rfl
    | cons c r =>
      have hc : c ≠ '.' := by
        rintro rfl
        exact absurd (stops_cons.mp hr) (by decide)
      show skipFraction (c :: r) = _
      unfold skipFraction
      split
      · next h => exact absurd (List.cons.inj h).1 hc
      · rfl
  · split
    · exact skipFraction_point hdigits
    · split
      · exact skipFraction_point hdigits
      · exact skipFraction_point hdigits

theorem takeClock_text {c : Clock} (hour : c.hour < 24) (minute : c.minute < 60)
    (second : c.second ≤ 60) (nanos : Nat) {r : List Char}
    (hr : Stops (fun c => c.isDigit || c == '.') r) :
    takeClock (padded 2 c.hour ++ ':' :: (padded 2 c.minute ++ ':' :: (padded 2 c.second ++
      (fractionText nanos ++ r)))) = .ok (⟨c.hour, c.minute, min c.second 59⟩, r) := by
  have hh : c.hour < powerOfTen 2 := by show _ < 100; omega
  have hm : c.minute < powerOfTen 2 := by show _ < 100; omega
  have hs : c.second < powerOfTen 2 := by show _ < 100; omega
  unfold takeClock
  refine bind_eq_ok.mpr ⟨_, takeNumber_padded (by decide) hh _, ?_⟩
  refine bind_eq_ok.mpr ⟨_, takeChar_cons rfl _, ?_⟩
  refine bind_eq_ok.mpr ⟨_, takeNumber_padded (by decide) hm _, ?_⟩
  refine bind_eq_ok.mpr ⟨_, takeChar_cons rfl _, ?_⟩
  refine bind_eq_ok.mpr ⟨_, takeNumber_padded (by decide) hs _, ?_⟩
  refine bind_eq_ok.mpr ⟨_, skipFraction_fractionText nanos hr, ?_⟩
  exact if_pos ⟨hour, minute, second⟩

end Rfc3339

/-! ## The second of an instant -/

namespace Instant

theorem isValid_date (t : Instant) : t.date.isValid = true := Date.isValid_ofDayNumber _

theorem clock_bounds (t : Instant) :
    t.clock.hour < 24 ∧ t.clock.minute < 60 ∧ t.clock.second ≤ 60 := by
  unfold clock
  dsimp only
  refine ⟨by omega, by omega, ?_⟩
  split <;> omega

/-- Date and time of day give the second; a leap second gives the one before it, which is the last
of its minute. -/
theorem seconds_of_parts (t : Instant) :
    86400 * t.date.dayNumber + 3600 * t.clock.hour + 60 * t.clock.minute +
      (min t.clock.second 59 : Nat) = t.seconds.toInt := by
  have hday : t.date.dayNumber = t.seconds.toInt / 86400 := Date.dayNumber_ofDayNumber _
  have hleap := t.leap
  rw [hday]
  unfold clock isLeap
  dsimp only
  by_cases h : nanosPerSecond ≤ t.nanos
  · have hlast := hleap h
    rw [if_pos (decide_eq_true h)]
    omega
  · rw [if_neg (by simpa using h)]
    omega

end Instant

namespace Rfc3339

/-! ## Whole timestamps -/

theorem length_le_byteLength (cs : List Char) : cs.length ≤ byteLength cs := by
  induction cs with
  | nil => exact Nat.le_refl 0
  | cons c r ih =>
    have hc := c.utf8Size_pos
    rw [List.length_cons, byteLength]
    omega

theorem write_eq (zone : List Char) (t : Instant) : write zone t =
    yearText t.date.year ++ '-' :: (padded 2 t.date.month ++ '-' :: (padded 2 t.date.day ++
      'T' :: (padded 2 t.clock.hour ++ ':' :: (padded 2 t.clock.minute ++
        ':' :: (padded 2 t.clock.second ++ (fractionText t.subsecond ++ zone)))))) := by
  simp [write]

/-- The date and the time of day take nineteen characters, and more with a zone. -/
theorem le_byteLength_write {t : Instant} (hyear : 0 ≤ t.date.year ∧ t.date.year ≤ 9999)
    (zone : List Char) : 19 ≤ byteLength (write zone t) := by
  obtain ⟨hhour, hminute, hsecond⟩ := t.clock_bounds
  obtain ⟨hmonth, hday⟩ := Date.bounds_of_isValid t.isValid_date
  have hpair : ∀ {n : Nat}, n < 100 → (padded 2 n).length = 2 :=
    fun h => length_padded (by decide) h
  have hyears : (padded 4 t.date.year.toNat).length = 4 :=
    length_padded (by decide) (show _ < 10000 by omega)
  have hlength : 19 ≤ (write zone t).length := by
    rw [write_eq, yearText, if_pos hyear]
    simp only [List.length_append, List.length_cons, hyears, hpair (n := t.date.month) (by omega),
      hpair (n := t.date.day) (by omega), hpair (n := t.clock.hour) (by omega),
      hpair (n := t.clock.minute) (by omega), hpair (n := t.clock.second) (by omega)]
    omega
  exact Nat.le_trans hlength (length_le_byteLength _)

theorem read_write {t : Instant} (hyear : 0 ≤ t.date.year ∧ t.date.year ≤ 9999) :
    read (write "+00:00".toList t) = .ok t.seconds.toInt := by
  obtain ⟨hhour, hminute, hsecond⟩ := t.clock_bounds
  have hlong := le_byteLength_write hyear "+00:00".toList
  have hdate := takeDate_text t.isValid_date hyear
  have hclock := takeClock_text hhour hminute hsecond t.subsecond (r := "+00:00".toList)
    (stops_cons.mpr rfl)
  unfold read
  rw [if_neg (Nat.not_lt.mpr hlong), write_eq]
  refine bind_eq_ok.mpr ⟨_, hdate _, ?_⟩
  refine bind_eq_ok.mpr ⟨_, takeChar_cons rfl _, ?_⟩
  refine bind_eq_ok.mpr ⟨_, hclock, ?_⟩
  refine bind_eq_ok.mpr ⟨_, show takeZone "+00:00".toList = .ok (0, []) from rfl, ?_⟩
  show Except.ok _ = Except.ok _
  refine congrArg Except.ok ?_
  rw [Int.sub_zero]
  exact t.seconds_of_parts

/-- A written timestamp neither begins nor ends with a blank. -/
theorem trim_write {t : Instant} (hyear : 0 ≤ t.date.year ∧ t.date.year ≤ 9999)
    {before after : List Char} (hbefore : ∀ c ∈ before, isBlank c = true)
    (hafter : ∀ c ∈ after, isBlank c = true) :
    trim (before ++ write "+00:00".toList t ++ after) = write "+00:00".toList t := by
  have hhead : ∀ c ∈ (write "+00:00".toList t).head?, isBlank c = false := by
    intro c hc
    rw [write_eq, yearText, if_pos hyear, List.head?_append_of_ne_nil _ (padded_ne_nil _ _)] at hc
    exact isBlank_of_isDigit (isDigit_of_mem_padded (List.mem_of_mem_head? hc))
  have hlast : ∀ c ∈ (write "+00:00".toList t).getLast?, isBlank c = false := by
    intro c hc
    rw [write, List.getLast?_append] at hc
    cases hc
    decide
  have hne : write "+00:00".toList t ≠ [] := by
    rw [write]
    exact List.append_ne_nil_of_right_ne_nil _ (by decide)
  exact trim_append hbefore hafter hne hhead hlast

end Rfc3339

/-! ## Fields of text and of seconds -/

theorem Value.toSeconds_text {s : String} {n : Int} (h : Rfc3339.read (trim s.toList) = .ok n) :
    (Value.text s).toSeconds = .ok (.ofInt n) := by
  simp only [toSeconds, h]

namespace Field

/-- Fields that bring every value to the given type. -/
def IsAttribute (f : Field) (type : AttrType) : Prop :=
  (f.kind = .scalar ∨ f.kind = .fullText) ∧ f.type = type

instance (f : Field) (type : AttrType) : Decidable (f.IsAttribute type) :=
  inferInstanceAs (Decidable ((f.kind = .scalar ∨ f.kind = .fullText) ∧ f.type = type))

variable {f g : Field}

theorem bind_attribute {type : AttrType} (hf : f.IsAttribute type) (v : Value) (hv : v ≠ .null) :
    f.bind v = (v.coerceTo type).mapError (Misfit.toError f) := by
  have hpresent : v.coercePresent f = v.coerceTo type := by
    obtain ⟨hkind, htype⟩ := hf
    unfold Value.coercePresent
    rcases hkind with hkind | hkind <;> rw [hkind, htype]
  have hcoerce : v.coerce f = v.coercePresent f := by
    cases v with
    | null => exact absurd rfl hv
    | _ => rfl
  unfold bind
  rw [hcoerce, hpresent]

/-- The text that a field of text binds for an instant of a year with four digits is accepted by a
field of seconds, with any blanks around it, and bound as the second that the field binds for the
instant itself. -/
theorem bind_written_timestamp (hf : f.IsAttribute .string) (hg : g.IsAttribute .timestamp)
    {t : Instant} (hyear : 0 ≤ t.date.year ∧ t.date.year ≤ 9999) :
    ∃ s, f.bind (.timestamp t) = .ok (.string s) ∧
      g.bind (.timestamp t) = .ok (.integer t.seconds) ∧
      ∀ before after : List Char, (∀ c ∈ before, isBlank c = true) →
        (∀ c ∈ after, isBlank c = true) →
        g.bind (.text (String.ofList (before ++ s.toList ++ after))) =
          .ok (.integer t.seconds) := by
  refine ⟨_, bind_attribute hf _ nofun, bind_attribute hg _ nofun, ?_⟩
  intro before after hbefore hafter
  have hread : Rfc3339.read (trim (String.ofList
      (before ++ (Value.timestamp t).toText.toList ++ after)).toList) = .ok t.seconds.toInt := by
    simp only [Value.toText, String.toList_ofList, Rfc3339.trim_write hyear hbefore hafter,
      Rfc3339.read_write hyear]
  refine (bind_attribute hg (.text _) nofun).trans (mapError_eq_ok.mpr ?_)
  refine map_eq_ok.mpr ⟨_, Value.toSeconds_text hread, ?_⟩
  rw [Int64.ofInt_toInt]

/-- The middle of the leap second at the end of 1969. -/
def lastOf1969 : Instant := ⟨-1, 1500000000, by decide, by decide⟩

theorem lastOf1969_read_back :
    (scalar "note" .string).IsAttribute .string ∧
    (scalar "seen" .timestamp).IsAttribute .timestamp ∧
    (0 ≤ lastOf1969.date.year ∧ lastOf1969.date.year ≤ 9999) ∧
    (scalar "note" .string).bind (.timestamp lastOf1969) =
      .ok (.string "1969-12-31T23:59:60.500+00:00") ∧
    (scalar "seen" .timestamp).bind (.text "\u2003 1969-12-31T23:59:60.500+00:00\n") =
      .ok (.integer (-1)) := by
  have hf : (scalar "note" .string).IsAttribute .string := by decide
  have hg : (scalar "seen" .timestamp).IsAttribute .timestamp := by decide
  have hyear : 0 ≤ lastOf1969.date.year ∧ lastOf1969.date.year ≤ 9999 := by decide
  obtain ⟨s, hs, -, hback⟩ := bind_written_timestamp hf hg hyear
  have htext : (scalar "note" .string).bind (.timestamp lastOf1969) =
      .ok (.string "1969-12-31T23:59:60.500+00:00") := by decide
  rw [htext] at hs
  cases hs
  have hbefore : ['\u2003', ' '].all isBlank = true := by decide
  have hafter : ['\n'].all isBlank = true := by decide
  have hblanks := hback ['\u2003', ' '] ['\n'] (List.all_eq_true.mp hbefore)
    (List.all_eq_true.mp hafter)
  exact ⟨hf, hg, hyear, htext, hblanks⟩

end Field

end IndexQuery
