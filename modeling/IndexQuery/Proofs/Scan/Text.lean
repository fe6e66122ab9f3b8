import IndexQuery.Text.Digits
import IndexQuery.Text.Identifier
import IndexQuery.Text.Literal

/-!
# Texts that leave a reader outside literals

`Scans cs n`: a reader who starts `cs` outside every literal ends there, having found `n`
placeholders.  Scans of neighbouring texts add up, so the scan of a statement is put together from
those of its parts: quiet texts, which hold neither quote nor placeholder, and quoted ones.

    Scans cs m → Scans ds n → Scans (cs ++ ds) (m + n)                            (Scans.append)
    Quiet cs → Scans cs 0                                                          (Quiet.scans)
    Scans ('\'' :: escape cs ++ ['\'']) 0                                         (scans_quoted)
-/

namespace IndexQuery.Text

/-- A reader of `cs` who starts outside every literal ends there and finds `n` placeholders. -/
structure Scans (cs : List Char) (n : Nat) : Prop where
  closed : Place.outside.after cs = .outside
  count : placeholdersFrom .outside cs = n

instance (cs : List Char) (n : Nat) : Decidable (Scans cs n) :=
  decidable_of_iff (Place.outside.after cs = .outside ∧ placeholdersFrom .outside cs = n)
    ⟨fun h => ⟨h.1, h.2⟩, fun h => ⟨h.1, h.2⟩⟩

/-- No character opens a literal or stands for a parameter. -/
def Quiet (cs : List Char) : Prop := ∀ c ∈ cs, c ≠ '\'' ∧ c ≠ placeholder

instance (cs : List Char) : Decidable (Quiet cs) :=
  List.decidableBAll (fun c => c ≠ '\'' ∧ c ≠ placeholder) cs

/-! ## Scans of neighbours -/

theorem Scans.nil : Scans [] 0 := ⟨rfl, rfl⟩

theorem Scans.append {cs ds : List Char} {m n : Nat} (hc : Scans cs m) (hd : Scans ds n) :
    Scans (cs ++ ds) (m + n) := by
  constructor
  · rw [after_append, hc.closed, hd.closed]
  · rw [placeholdersFrom_append, hc.count, hc.closed, hd.count]

/-- A text without placeholders adds none. -/
theorem Scans.zero_append {cs ds : List Char} {n : Nat} (hc : Scans cs 0) (hd : Scans ds n) :
    Scans (cs ++ ds) n := by
  have h := hc.append hd
  rwa [Nat.zero_add] at h

/-- Scans of neighbouring strings. -/
theorem Scans.concat {s t : String} {m n : Nat} (hs : Scans s.toList m) (ht : Scans t.toList n) :
    Scans (s ++ t).toList (m + n) := by
  rw [String.toList_append]
  exact hs.append ht

theorem Scans.zero_concat {s t : String} {n : Nat} (hs : Scans s.toList 0)
    (ht : Scans t.toList n) : Scans (s ++ t).toList n := by
  rw [String.toList_append]
  exact hs.zero_append ht

/-- What neighbouring texts keep is kept by texts with a separator between them. -/
theorem intercalate_of_append {P : List Char → Prop} (hnil : P [])
    (happend : ∀ {cs ds}, P cs → P ds → P (cs ++ ds)) {separator : String}
    (hs : P separator.toList) {parts : List String} (hp : ∀ s ∈ parts, P s.toList) :
    P (separator.intercalate parts).toList := by
  induction parts with
  | nil => exact hnil
  | cons s parts ih =>
    have hfirst := hp s List.mem_cons_self
    cases parts with
    | nil => rwa [String.intercalate_singleton]
    | cons t parts =>
      have hrest := ih fun u hu => hp u (List.mem_cons_of_mem s hu)
      rw [String.intercalate_cons_cons, String.toList_append, String.toList_append]
      exact happend (happend hfirst hs) hrest

theorem scans_intercalate {separator : String} (hs : Scans separator.toList 0)
    {parts : List String} (hp : ∀ s ∈ parts, Scans s.toList 0) :
    Scans (separator.intercalate parts).toList 0 :=
  intercalate_of_append (P := fun cs => Scans cs 0) Scans.nil Scans.zero_append hs hp

/-! ## Quiet texts -/

theorem Quiet.scans {cs : List Char} (h : Quiet cs) : Scans cs 0 := by
  induction cs with
  | nil => exact Scans.nil
  | cons c r ih =>
    obtain ⟨hq, hp⟩ := h c List.mem_cons_self
    have hr := ih fun d hd => h d (List.mem_cons_of_mem c hd)
    have hn : Place.outside.next c = .outside := if_neg hq
    constructor
    · rw [after_cons, hn, hr.closed]
    · rw [placeholdersFrom, hn, hr.count, if_neg fun h => hp h.2]

theorem Quiet.append {cs ds : List Char} (hc : Quiet cs) (hd : Quiet ds) : Quiet (cs ++ ds) := by
  intro c h
  rcases List.mem_append.mp h with h | h
  · exact hc c h
  · exact hd c h

theorem Quiet.concat {s t : String} (hs : Quiet s.toList) (ht : Quiet t.toList) :
    Quiet (s ++ t).toList := by
  rw [String.toList_append]
  exact hs.append ht

theorem quiet_intercalate {separator : String} (hs : Quiet separator.toList)
    {parts : List String} (hp : ∀ s ∈ parts, Quiet s.toList) :
    Quiet (separator.intercalate parts).toList :=
  intercalate_of_append (P := Quiet) nofun Quiet.append hs hp

theorem quiet_of_isDigit {cs : List Char} (h : ∀ c ∈ cs, c.isDigit = true) : Quiet cs := by
  intro c hc
  have := h c hc
  constructor
  · rintro rfl
    exact absurd this (by decide)
  · rintro rfl
    exact absurd this (by decide)

theorem isTail_of_isHead {c : Char} (h : Identifier.isHead c = true) :
    Identifier.isTail c = true := by
  simp [Identifier.isTail, h]

/-- An identifier has no other characters than letters, digits and underscores. -/
theorem isTail_of_mem {s : String} (h : isIdentifier s = true) {c : Char} (hc : c ∈ s.toList) :
    Identifier.isTail c = true := by
  obtain ⟨d, r, hs, hd, hr⟩ := isIdentifier_eq_true_iff.mp h
  rw [hs] at hc
  rcases List.mem_cons.mp hc with rfl | hc
  · exact isTail_of_isHead hd
  · exact hr c hc

theorem quiet_identifier {s : String} (h : isIdentifier s = true) : Quiet s.toList := by
  intro c hc
  have := isTail_of_mem h hc
  constructor
  · rintro rfl
    exact absurd this (by decide)
  · rintro rfl
    exact absurd this (by decide)

theorem quiet_toDigits (n : Nat) : Quiet (Nat.toDigits 10 n) :=
  quiet_of_isDigit fun _ hc => Nat.isDigit_of_mem_toDigits (by decide) (by decide) hc

theorem quiet_decimal (n : Nat) : Quiet (decimal n).toList := by
  rw [decimal, String.toList_ofList]
  exact quiet_toDigits n

theorem quiet_signedDecimal (n : Int) : Quiet (signedDecimal n).toList := by
  have hminus : Quiet "-".toList := by decide
  unfold signedDecimal
  split
  · rw [String.toList_append]
    exact hminus.append (quiet_decimal _)
  · exact quiet_decimal _

/-! ## Quoted texts -/

theorem placeholdersFrom_escape (cs : List Char) : placeholdersFrom .literal (escape cs) = 0 := by
  induction cs with
  | nil => rfl
  | cons c r ih =>
    by_cases h : needsEscape c = true
    · have hn : (Place.literal.next '\\').next c = .literal := rfl
      simp only [escape, if_pos h, placeholdersFrom, hn, ih]
      simp [Place.next]
    · simp only [escape, if_neg h, placeholdersFrom, next_literal h, ih]
      simp

theorem scans_quoted (cs : List Char) : Scans ('\'' :: escape cs ++ ['\'']) 0 := by
  have hopen : Place.outside.next '\'' = .literal := rfl
  constructor
  · rw [List.cons_append, after_cons, hopen, after_append, after_escape]
    rfl
  · rw [List.cons_append, placeholdersFrom, hopen, placeholdersFrom_append,
      placeholdersFrom_escape, after_escape]
    rfl

end IndexQuery.Text
