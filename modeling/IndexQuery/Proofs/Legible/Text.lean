import IndexQuery.Proofs.Scan.Text

/-!
# Texts that tell what they write

A text and what stands behind it can be told apart if something marks the end of the text: digits
end before anything but a digit, a name before anything but a letter, a digit or an underscore, and
a quoted text at the first quote without a backslash.  Names with values in a row are told one by
one, if the values are legible in front of the commas between them.

    as ++ r = bs ++ t → as = bs ∧ r = t   for runs of one kind that stop there  (run_append_inj)
    Nat.toDigits 10 m ++ r = Nat.toDigits 10 n ++ t → m = n ∧ r = t        (toDigits_append_inj)
    escape cs ++ '\'' :: r = escape ds ++ '\'' :: t → cs = ds ∧ r = t        (escape_append_inj)
    Legible valid Char.isDigit text → (assignments text es).toList ++ r =
      (assignments text fs).toList ++ t → es = fs ∧ r = t               (assignments_append_inj)
-/

namespace IndexQuery.Text

/-! ## Algorithm -/

/-- No run of characters of a kind goes on into a text. -/
def Stops (p : Char → Bool) (r : List Char) : Prop := ∀ c ∈ r.head?, p c = false

/-- The text of a valid value tells the value and where it ends, in front of anything that stops a
run of the given characters. -/
def Legible {α : Type} (valid : α → Prop) (p : Char → Bool) (text : α → List Char) : Prop :=
  ∀ {a b : α} {r t : List Char}, valid a → valid b → Stops p r → Stops p t →
    text a ++ r = text b ++ t → a = b ∧ r = t

/-- Names with values, with commas between them. -/
def assignments {α : Type} (text : α → String) (es : List (String × α)) : String :=
  ", ".intercalate (es.map fun e => e.1 ++ "=" ++ text e.2)

/-- What stands behind the value of an assignment before others. -/
def furtherText {α : Type} (text : α → String) (es : List (String × α)) : List Char :=
  if es = [] then [] else ',' :: ' ' :: (assignments text es).toList

/-- A character of a name, or a comma. -/
def isTailOrComma (c : Char) : Bool := Identifier.isTail c || c == ','

/-! ## Runs of one kind -/

theorem Stops.nil (p : Char → Bool) : Stops p [] := nofun

theorem stops_cons {p : Char → Bool} {c : Char} {r : List Char} :
    Stops p (c :: r) ↔ p c = false := by
  simp [Stops]

theorem Stops.imp {p q : Char → Bool} {r : List Char} (h : Stops p r)
    (hqp : ∀ c, q c = true → p c = true) : Stops q r := by
  intro c hc
  have hp := h c hc
  cases hq : q c with
  | false => rfl
  | true =>
    rw [hqp c hq] at hp
    cases hp

/-- A run that stops in front of a text is all that is taken of its kind. -/
theorem takeWhile_run {p : Char → Bool} {cs r : List Char} (hcs : ∀ c ∈ cs, p c = true)
    (hr : Stops p r) : (cs ++ r).takeWhile p = cs := by
  have hrest : r.takeWhile p = [] := by
    cases r with
    | nil => rfl
    | cons c r => rw [List.takeWhile_cons, stops_cons.mp hr, if_neg Bool.false_ne_true]
  rw [List.takeWhile_append_of_pos hcs, hrest, List.append_nil]

theorem dropWhile_run {p : Char → Bool} {cs r : List Char} (hcs : ∀ c ∈ cs, p c = true)
    (hr : Stops p r) : (cs ++ r).dropWhile p = r := by
  rw [List.dropWhile_append_of_pos hcs]
  cases r with
  | nil => rfl
  | cons c r => rw [List.dropWhile_cons, stops_cons.mp hr, if_neg Bool.false_ne_true]

theorem run_append_inj {p : Char → Bool} {as bs r t : List Char} (ha : ∀ c ∈ as, p c = true)
    (hb : ∀ c ∈ bs, p c = true) (hr : Stops p r) (ht : Stops p t) (h : as ++ r = bs ++ t) :
    as = bs ∧ r = t := by
  have heq : as = bs := by rw [← takeWhile_run ha hr, h, takeWhile_run hb ht]
  subst heq
  exact ⟨rfl, List.append_cancel_left h⟩

/-- Digits with something else behind them are told from what is behind them. -/
theorem toDigits_append_inj {m n : Nat} {r t : List Char} (hr : Stops Char.isDigit r)
    (ht : Stops Char.isDigit t) (h : Nat.toDigits 10 m ++ r = Nat.toDigits 10 n ++ t) :
    m = n ∧ r = t := by
  have hdigits : ∀ k, ∀ c ∈ Nat.toDigits 10 k, c.isDigit = true :=
    fun _ _ hc => Nat.isDigit_of_mem_toDigits (by decide) (by decide) hc
  obtain ⟨hmn, hrest⟩ := run_append_inj (hdigits m) (hdigits n) hr ht h
  exact ⟨by rw [← digitsValue_toDigits m, hmn, digitsValue_toDigits], hrest⟩

/-- The head of a number is a digit. -/
theorem exists_toDigits_eq_cons (n : Nat) :
    ∃ c r, Nat.toDigits 10 n = c :: r ∧ c.isDigit = true := by
  cases h : Nat.toDigits 10 n with
  | nil => exact absurd h Nat.toDigits_ne_nil
  | cons c r =>
    have hc : c ∈ Nat.toDigits 10 n := h ▸ List.mem_cons_self
    exact ⟨c, r, rfl, Nat.isDigit_of_mem_toDigits (by decide) (by decide) hc⟩

theorem toList_signedDecimal (n : Int) : (signedDecimal n).toList =
    if n < 0 then '-' :: Nat.toDigits 10 n.natAbs else Nat.toDigits 10 n.natAbs := by
  unfold signedDecimal
  split <;> simp [decimal]

theorem signedDecimal_append_inj {m n : Int} {r t : List Char} (hr : Stops Char.isDigit r)
    (ht : Stops Char.isDigit t)
    (h : (signedDecimal m).toList ++ r = (signedDecimal n).toList ++ t) : m = n ∧ r = t := by
  -- a sign is no digit, so both numbers have one or neither
  have hsign : ∀ {k l : Nat} {s u : List Char},
      '-' :: Nat.toDigits 10 k ++ s ≠ Nat.toDigits 10 l ++ u := by
    intro k l s u heq
    obtain ⟨c, v, hl, hc⟩ := exists_toDigits_eq_cons l
    rw [hl] at heq
    rw [← (List.cons.inj heq).1] at hc
    cases hc
  rw [toList_signedDecimal, toList_signedDecimal] at h
  split at h
  · split at h
    · obtain ⟨habs, hrest⟩ := toDigits_append_inj hr ht (List.cons.inj h).2
      exact ⟨by omega, hrest⟩
    · exact absurd h hsign
  · split at h
    · exact absurd h.symm hsign
    · obtain ⟨habs, hrest⟩ := toDigits_append_inj hr ht h
      exact ⟨by omega, hrest⟩

/-! ## Quoted texts -/

theorem escape_cons_append_inj {c d : Char} {cs ds r t : List Char}
    (h : escape (c :: cs) ++ r = escape (d :: ds) ++ t) :
    c = d ∧ escape cs ++ r = escape ds ++ t := by
  have hplain : ∀ {e : Char}, ¬needsEscape e = true → '\\' ≠ e := fun he heq => he (heq ▸ rfl)
  unfold escape at h
  split at h
  · split at h
    · exact List.cons.inj (List.cons.inj h).2
    · next hd => exact absurd (List.cons.inj h).1 (hplain hd)
  · next hc =>
    split at h
    · exact absurd (List.cons.inj h).1.symm (hplain hc)
    · exact List.cons.inj h

/-- No character of an escaped text is read as the quote that ends it. -/
theorem quote_ne_escape_cons {c : Char} {cs r t : List Char} :
    '\'' :: r ≠ escape (c :: cs) ++ t := by
  intro h
  unfold escape at h
  split at h
  · exact absurd (List.cons.inj h).1 (by decide)
  · next hc => exact hc ((List.cons.inj h).1 ▸ rfl)

/-- A quoted text ends at the first quote without a backslash. -/
theorem escape_append_inj {cs ds r t : List Char}
    (h : escape cs ++ '\'' :: r = escape ds ++ '\'' :: t) : cs = ds ∧ r = t := by
  induction cs generalizing ds with
  | nil =>
    cases ds with
    | nil => exact ⟨rfl, (List.cons.inj h).2⟩
    | cons d ds => exact absurd h quote_ne_escape_cons
  | cons c cs ih =>
    cases ds with
    | nil => exact absurd h.symm quote_ne_escape_cons
    | cons d ds =>
      obtain ⟨rfl, hrest⟩ := escape_cons_append_inj h
      obtain ⟨rfl, htail⟩ := ih hrest
      exact ⟨rfl, htail⟩

/-! ## Rows of assignments -/

section

variable {α : Type} {text : α → String}

theorem toList_assignments_cons (e : String × α) (es : List (String × α)) :
    (assignments text (e :: es)).toList =
      e.1.toList ++ '=' :: ((text e.2).toList ++ furtherText text es) := by
  unfold assignments furtherText
  cases es with
  | nil => simp
  | cons f es => simp [String.intercalate_cons_cons, assignments]

theorem stops_furtherText {es : List (String × α)} {r : List Char}
    (hr : Stops isTailOrComma r) : Stops Char.isDigit (furtherText text es ++ r) := by
  unfold furtherText
  split
  · exact hr.imp fun c hc => by simp [isTailOrComma, Identifier.isTail, hc]
  · exact stops_cons.mpr rfl

/-- Assignments begin with the head of a name. -/
theorem not_stops_assignments {e : String × α} (he : isIdentifier e.1 = true)
    (es : List (String × α)) (r : List Char) :
    ¬Stops isTailOrComma ((assignments text (e :: es)).toList ++ r) := by
  obtain ⟨c, s, hname, hc, -⟩ := isIdentifier_eq_true_iff.mp he
  rw [toList_assignments_cons, hname, List.cons_append, List.cons_append, stops_cons]
  simp [isTailOrComma, isTail_of_isHead hc]

theorem furtherText_append_inj {es fs : List (String × α)} {r t : List Char}
    (hr : Stops isTailOrComma r) (ht : Stops isTailOrComma t)
    (h : furtherText text es ++ r = furtherText text fs ++ t) :
    (assignments text es).toList ++ r = (assignments text fs).toList ++ t := by
  have hcomma : ∀ {s : List Char}, ¬Stops isTailOrComma (',' :: s) := by
    intro s hs
    cases stops_cons.mp hs
  cases es with
  | nil =>
    have hrest : r = furtherText text fs ++ t := h
    cases fs with
    | nil => exact hrest
    | cons f fs => exact absurd (hrest ▸ hr) hcomma
  | cons e es =>
    cases fs with
    | nil =>
      have hrest : furtherText text (e :: es) ++ r = t := h
      exact absurd (hrest ▸ ht) hcomma
    | cons f fs => exact (List.cons.inj (List.cons.inj h).2).2

theorem assignments_append_inj {valid : α → Prop}
    (hlegible : Legible valid Char.isDigit fun a => (text a).toList) {es fs : List (String × α)}
    (he : ∀ e ∈ es, isIdentifier e.1 = true ∧ valid e.2)
    (hf : ∀ f ∈ fs, isIdentifier f.1 = true ∧ valid f.2) {r t : List Char}
    (hr : Stops isTailOrComma r) (ht : Stops isTailOrComma t)
    (h : (assignments text es).toList ++ r = (assignments text fs).toList ++ t) :
    es = fs ∧ r = t := by
  induction es generalizing fs with
  | nil =>
    cases fs with
    | nil => exact ⟨rfl, h⟩
    | cons f fs =>
      have hrest : r = (assignments text (f :: fs)).toList ++ t := h
      exact absurd (hrest ▸ hr) (not_stops_assignments (hf f List.mem_cons_self).1 fs t)
  | cons e es ih =>
    obtain ⟨hname, hvalue⟩ := he e List.mem_cons_self
    cases fs with
    | nil =>
      have hrest : (assignments text (e :: es)).toList ++ r = t := h
      exact absurd (hrest ▸ ht) (not_stops_assignments hname es r)
    | cons f fs =>
      obtain ⟨hname', hvalue'⟩ := hf f List.mem_cons_self
      have hequals : ∀ s : List Char, Stops Identifier.isTail ('=' :: s) :=
        fun s => stops_cons.mpr rfl
      rw [toList_assignments_cons, toList_assignments_cons, List.append_assoc, List.append_assoc,
        List.cons_append, List.cons_append] at h
      obtain ⟨hnames, hrest⟩ := run_append_inj (fun c => isTail_of_mem hname)
        (fun c => isTail_of_mem hname') (hequals _) (hequals _) h
      have hvalues := (List.cons.inj hrest).2
      rw [List.append_assoc, List.append_assoc] at hvalues
      obtain ⟨heq, hfurther⟩ := hlegible hvalue hvalue' (stops_furtherText hr)
        (stops_furtherText ht) hvalues
      obtain ⟨rfl, hbehind⟩ := ih (fun g hg => he g (List.mem_cons_of_mem e hg))
        (fun g hg => hf g (List.mem_cons_of_mem f hg)) (furtherText_append_inj hr ht hfurther)
      exact ⟨congrArg (· :: es) (Prod.ext (String.toList_inj.mp hnames) heq), hbehind⟩

end

end IndexQuery.Text
