import IndexQuery.Json.Reader
import IndexQuery.Json.Writer
import IndexQuery.Proofs.Legible.Text

/-!
# Documents read back

A document whose strings are texts and whose numbers are integers is read back from its text as it
was written.  A character of a string is written as itself or as an escape that names it, so that
the first quote without a backslash ends the string; an integer ends in front of anything that is
no part of a number; and of the values in an array or an object each ends in front of a comma or a
bracket.

    readString (s.toList.flatMap writeChar ++ '"' :: r) = some (some s, r)  (readString_writeChar)
    readNumber ((Numeral.ofInt n).text ++ r) = some (Numeral.ofInt n, r)        (readNumber_ofInt)
    readValue fuel (v.write ++ r) = some (v, r)   if the fuel is twice the length
                                                                              (readValue_write)
    ofText? v.toText = some v                                                  (ofText?_toText)
-/

namespace IndexQuery.Json

open Text

/-! ## Algorithm -/

/-- A member whose name is a text. -/
def memberOf (m : String × Json) : Option String × Json := (some m.1, m.2)

/-- Values that are told by their text: every string is a text, and every number an integer. -/
inductive Written : Json → Prop where
  | null : Written .null
  | bool (b : Bool) : Written (.bool b)
  | integer (n : Int) : Written (.number (.ofInt n))
  | string (s : String) : Written (.string (some s))
  | array {vs : List Json} (h : ∀ v ∈ vs, Written v) : Written (.array vs)
  | object {ms : List (String × Json)} (h : ∀ m ∈ ms, Written m.2) :
    Written (.object (ms.map memberOf))

/-- A character that a number may go on with. -/
def isNumberTail (c : Char) : Bool := c.isDigit || c == '.' || c == 'e' || c == 'E'

/-! ## Strings -/

/-- A character is written behind a backslash by a letter that names it, by its number, or as
itself. -/
theorem writeChar_cases (c : Char) :
    (∃ e, e ≠ 'u' ∧ shortEscape? e = some c ∧ writeChar c = ['\\', e]) ∨
    (c.toNat < 0x20 ∧
      writeChar c = ['\\', 'u', '0', '0', hexDigit (c.toNat / 16), hexDigit c.toNat]) ∨
    (c ≠ '"' ∧ c ≠ '\\' ∧ ¬ c.toNat < 0x20 ∧ writeChar c = [c]) := by
  have hshort : ∀ e d : Char, c = d → e ≠ 'u' → shortEscape? e = some d →
      writeChar d = ['\\', e] → ∃ e, e ≠ 'u' ∧ shortEscape? e = some c ∧ writeChar c = ['\\', e] :=
    fun e d hc hu he hw => ⟨e, hu, hc ▸ he, hc ▸ hw⟩
  by_cases h1 : c = '"'
  · exact .inl (hshort '"' '"' h1 (by decide) rfl rfl)
  by_cases h2 : c = '\\'
  · exact .inl (hshort '\\' '\\' h2 (by decide) rfl rfl)
  by_cases h3 : c = '\x08'
  · exact .inl (hshort 'b' _ h3 (by decide) rfl rfl)
  by_cases h4 : c = '\x0c'
  · exact .inl (hshort 'f' _ h4 (by decide) rfl rfl)
  by_cases h5 : c = '\n'
  · exact .inl (hshort 'n' _ h5 (by decide) rfl rfl)
  by_cases h6 : c = '\r'
  · exact .inl (hshort 'r' _ h6 (by decide) rfl rfl)
  by_cases h7 : c = '\t'
  · exact .inl (hshort 't' _ h7 (by decide) rfl rfl)
  by_cases h8 : c.toNat < 0x20
  · exact .inr (.inl ⟨h8, by simp [writeChar, h1, h2, h3, h4, h5, h6, h7, h8]⟩)
  · exact .inr (.inr ⟨h1, h2, h8, by simp [writeChar, h1, h2, h3, h4, h5, h6, h7, h8]⟩)

theorem codeUnit?_hexDigit : ∀ n < 0x20,
    codeUnit? '0' '0' (hexDigit (n / 16)) (hexDigit n) = some n := by decide

section

variable {r t : List Char} {items : List StringItem}

theorem readItems_shortEscape {e c : Char} (hu : e ≠ 'u') (he : shortEscape? e = some c)
    (hr : readItems r = some (items, t)) :
    readItems ('\\' :: e :: r) = some (.char c :: items, t) := by
  rw [readItems, he, hr]
  · rfl
  · simp [hu]

theorem readItems_codeUnit {a b c d : Char} {n : Nat} (hn : codeUnit? a b c d = some n)
    (hr : readItems r = some (items, t)) :
    readItems ('\\' :: 'u' :: a :: b :: c :: d :: r) = some (.codeUnit n :: items, t) := by
  rw [readItems, hn, hr]
  rfl

theorem readItems_plain {c : Char} (hquote : c ≠ '"') (hescape : c ≠ '\\')
    (hcontrol : ¬ c.toNat < 0x20) (hr : readItems r = some (items, t)) :
    readItems (c :: r) = some (.char c :: items, t) := by
  rw [readItems, if_neg (by simp [hcontrol, hescape]), hr]
  · rfl
  · exact hquote
  · simp [hescape]
  · simp [hescape]

end

/-- What is written for a character is read as one item that names it. -/
theorem exists_readItems_writeChar (c : Char) : ∃ item,
    (∀ r t items, readItems r = some (items, t) →
      readItems (writeChar c ++ r) = some (item :: items, t)) ∧
    ∀ items, textOf? (item :: items) = (textOf? items).map (c :: ·) := by
  rcases writeChar_cases c with ⟨e, hu, he, hw⟩ | ⟨hcontrol, hw⟩ | ⟨hquote, hescape, hcontrol, hw⟩
  · exact ⟨.char c, fun r t items hr => hw ▸ readItems_shortEscape hu he hr, fun _ => rfl⟩
  · have hunit := codeUnit?_hexDigit c.toNat hcontrol
    refine ⟨.codeUnit c.toNat, fun r t items hr => hw ▸ readItems_codeUnit hunit hr, ?_⟩
    intro items
    have hlow : isLowSurrogate c.toNat = false := by simp [isLowSurrogate]; omega
    have hhigh : isHighSurrogate c.toNat = false := by simp [isHighSurrogate]; omega
    rw [textOf?.eq_def]
    simp [hlow, hhigh]
  · exact ⟨.char c, fun r t items hr => hw ▸ readItems_plain hquote hescape hcontrol hr,
      fun _ => rfl⟩

theorem exists_readItems_flatMap (cs r : List Char) : ∃ items,
    readItems (cs.flatMap writeChar ++ '"' :: r) = some (items, r) ∧ textOf? items = some cs := by
  induction cs with
  | nil => exact ⟨[], rfl, rfl⟩
  | cons c cs ih =>
    obtain ⟨items, hitems, htext⟩ := ih
    obtain ⟨item, hread, hname⟩ := exists_readItems_writeChar c
    refine ⟨item :: items, ?_, ?_⟩
    · rw [List.flatMap_cons, List.append_assoc]
      exact hread _ _ _ hitems
    · rw [hname, htext]
      rfl

theorem readString_writeChar (s : String) (r : List Char) :
    readString (s.toList.flatMap writeChar ++ '"' :: r) = some (some s, r) := by
  obtain ⟨items, hitems, htext⟩ := exists_readItems_flatMap s.toList r
  unfold readString
  rw [hitems, Option.map_some]
  dsimp only
  rw [htext, Option.map_some, String.ofList_toList]

/-! ## Numbers -/

/-- A number of more than one digit begins with another digit than zero. -/
theorem head?_toDigits_ne_zero {n : Nat} (h : 0 < n) : (Nat.toDigits 10 n).head? ≠ some '0' := by
  induction n using Nat.strongRecOn with
  | ind n ih =>
    by_cases hlt : n < 10
    · rw [Nat.toDigits_of_lt_base hlt]
      intro hzero
      have := Nat.digitChar_eq_zero.mp (Option.some.inj hzero)
      omega
    · have hrest := ih (n / 10) (by omega) (by omega)
      obtain ⟨c, r, hdigits, -⟩ := exists_toDigits_eq_cons (n / 10)
      rw [Nat.toDigits_of_base_le (by decide) (by omega), hdigits]
      rw [hdigits] at hrest
      exact hrest

theorem not_leadingZero_toDigits (n : Nat) :
    ¬ (Nat.toDigits 10 n = [] ∨
      ((Nat.toDigits 10 n).head? = some '0' ∧ 1 < (Nat.toDigits 10 n).length)) := by
  rintro (hnil | ⟨hhead, hlength⟩)
  · exact Nat.toDigits_ne_nil hnil
  · by_cases h : 0 < n
    · exact head?_toDigits_ne_zero h hhead
    · obtain rfl : n = 0 := by omega
      exact absurd hlength (by decide)

theorem takeExponent_of_stops {r : List Char} (hr : Stops isNumberTail r) :
    Numeral.takeExponent r = some (none, r) := by
  cases r with
  | nil => rfl
  | cons c r =>
    have hc := stops_cons.mp hr
    simp only [isNumberTail, Bool.or_eq_false_iff, beq_eq_false_iff_ne] at hc
    exact if_neg (by simp [hc.1.2, hc.2])

theorem readNumber_digits (negative : Bool) {ds r : List Char}
    (hds : ∀ c ∈ ds, c.isDigit = true)
    (hzero : ¬ (ds = [] ∨ (ds.head? = some '0' ∧ 1 < ds.length))) (hr : Stops isNumberTail r) :
    readNumber ((if negative then ['-'] else []) ++ ds ++ r) =
      some (⟨negative, ds, [], none⟩, r) := by
  have hstops : Stops Char.isDigit r := hr.imp fun c hc => by simp [isNumberTail, hc]
  have htake : takeDigits (ds ++ r) = ds := takeWhile_run hds hstops
  have hdrop : dropDigits (ds ++ r) = r := dropWhile_run hds hstops
  unfold readNumber
  split
  next sign unsigned h =>
    have hsign : sign = negative ∧ unsigned = ds ++ r := by
      cases negative with
      | true =>
        cases h
        exact ⟨rfl, rfl⟩
      | false =>
        cases ds with
        | nil => exact absurd (.inl rfl) hzero
        | cons d ds =>
          split at h
          · next heq =>
            cases (List.cons.inj heq).1
            exact absurd (hds '-' List.mem_cons_self) (by decide)
          · cases h
            exact ⟨rfl, rfl⟩
    obtain ⟨rfl, rfl⟩ := hsign
    dsimp only
    rw [htake, hdrop, if_neg hzero]
    split
    · exact absurd (stops_cons.mp hr) (by decide)
    · show (Numeral.takeExponent r >>= fun _ => _) = _
      rw [takeExponent_of_stops hr]
      rfl

theorem readNumber_ofInt (n : Int) {r : List Char} (hr : Stops isNumberTail r) :
    readNumber ((Numeral.ofInt n).text ++ r) = some (Numeral.ofInt n, r) := by
  have hdigits : ∀ c ∈ Nat.toDigits 10 n.natAbs, c.isDigit = true :=
    fun c hc => Nat.isDigit_of_mem_toDigits (by decide) (by decide) hc
  have htext := Numeral.text_of_whole (decide (n < 0)) (Nat.toDigits 10 n.natAbs)
  rw [Numeral.ofInt, htext]
  exact readNumber_digits _ hdigits (not_leadingZero_toDigits _) hr

/-! ## Values -/

/-- The text of a value is read as that value in front of anything that no number goes on with, with
twice its length as fuel. -/
def ReadsBack (v : Json) : Prop :=
  ∀ fuel r, 2 * v.write.length ≤ fuel → Stops isNumberTail r →
    readValue fuel (v.write ++ r) = some (v, r)

theorem skipBlanks_cons {c : Char} (h : isBlank c = false) (r : List Char) :
    skipBlanks (c :: r) = c :: r := by
  unfold skipBlanks
  rw [List.dropWhile_cons, h, if_neg Bool.false_ne_true]

/-- An integer begins with a sign or a digit, so with no character that is neither. -/
theorem exists_text_ofInt_eq_cons (n : Int) : ∃ c cs, (Numeral.ofInt n).text = c :: cs ∧
    ∀ d : Char, d ≠ '-' → d.isDigit = false → c ≠ d := by
  obtain ⟨c, cs, hdigits, hc⟩ := exists_toDigits_eq_cons n.natAbs
  have htext := Numeral.text_of_whole (decide (n < 0)) (Nat.toDigits 10 n.natAbs)
  rw [Numeral.ofInt, htext, hdigits]
  by_cases h : n < 0
  · refine ⟨'-', c :: cs, by simp [h], fun d hminus _ => hminus.symm⟩
  · refine ⟨c, cs, by simp [h], ?_⟩
    rintro d - hdigit rfl
    rw [hc] at hdigit
    cases hdigit

/-- No value begins with a blank or with the bracket that closes an array. -/
theorem exists_write_eq_cons {v : Json} (h : v.Written) :
    ∃ c cs, v.write = c :: cs ∧ isBlank c = false ∧ c ≠ ']' := by
  cases h with
  | null => exact ⟨'n', _, rfl, rfl, by decide⟩
  | bool b =>
    cases b with
    | true => exact ⟨'t', _, rfl, rfl, by decide⟩
    | false => exact ⟨'f', _, rfl, rfl, by decide⟩
  | integer n =>
    obtain ⟨c, cs, htext, hne⟩ := exists_text_ofInt_eq_cons n
    have hblank : isBlank c = false := by
      simp [isBlank, hne ' ' (by decide) rfl, hne '\t' (by decide) rfl, hne '\n' (by decide) rfl,
        hne '\r' (by decide) rfl]
    exact ⟨c, cs, htext, hblank, hne ']' (by decide) rfl⟩
  | string s => exact ⟨'"', _, rfl, rfl, by decide⟩
  | array _ => exact ⟨'[', _, rfl, rfl, by decide⟩
  | object _ => exact ⟨'\x7b', _, rfl, rfl, by decide⟩

/-- A value that is no array and no object is read at once. -/
theorem readValue_scalar {c : Char} {cs r : List Char} {v : Json} (fuel : Nat)
    (hblank : isBlank c = false) (harray : c ≠ '[') (hobject : c ≠ '\x7b')
    (h : readScalar (c :: cs) = some (v, r)) : readValue (fuel + 1) (c :: cs) = some (v, r) := by
  rw [readValue, skipBlanks_cons hblank]
  split
  · next h' => exact absurd (List.cons.inj h').1 harray
  · next h' => exact absurd (List.cons.inj h').1 hobject
  · exact h

theorem readsBack_null : ReadsBack .null := by
  intro fuel r hfuel _
  cases fuel with
  | zero => exact absurd hfuel (by decide)
  | succ fuel => exact readValue_scalar fuel rfl (by decide) (by decide) rfl

theorem readsBack_bool (b : Bool) : ReadsBack (.bool b) := by
  intro fuel r hfuel _
  cases fuel with
  | zero => cases b <;> exact absurd hfuel (by decide)
  | succ fuel => cases b <;> exact readValue_scalar fuel rfl (by decide) (by decide) rfl

theorem readsBack_string (s : String) : ReadsBack (.string (some s)) := by
  intro fuel r hfuel _
  have hwrite : (Json.string (some s)).write ++ r =
      '"' :: (s.toList.flatMap writeChar ++ '"' :: r) := by
    simp [write, writeString]
  cases fuel with
  | zero => simp [write, writeString] at hfuel
  | succ fuel =>
    rw [hwrite]
    refine readValue_scalar fuel rfl (by decide) (by decide) ?_
    show (readString _).map _ = _
    rw [readString_writeChar]
    rfl

theorem readsBack_integer (n : Int) : ReadsBack (.number (.ofInt n)) := by
  intro fuel r hfuel hr
  obtain ⟨c, cs, hwrite, hblank, -⟩ := exists_write_eq_cons (.integer n)
  obtain ⟨d, ds, htext, hne⟩ := exists_text_ofInt_eq_cons n
  cases hwrite.symm.trans htext
  cases fuel with
  | zero => simp [hwrite] at hfuel
  | succ fuel =>
    have hread : readScalar (c :: (cs ++ r)) = some (.number (.ofInt n), r) := by
      unfold readScalar
      split
      · next h => exact absurd (List.cons.inj h).1 (hne 'n' (by decide) rfl)
      · next h => exact absurd (List.cons.inj h).1 (hne 't' (by decide) rfl)
      · next h => exact absurd (List.cons.inj h).1 (hne 'f' (by decide) rfl)
      · next h => exact absurd (List.cons.inj h).1 (hne '"' (by decide) rfl)
      · rw [← List.cons_append, ← htext, readNumber_ofInt n hr]
        rfl
    rw [hwrite]
    exact readValue_scalar fuel hblank (hne '[' (by decide) rfl) (hne '\x7b' (by decide) rfl) hread

/-! ## Values of values -/

theorem writeElements_cons_cons (v w : Json) (vs : List Json) :
    writeElements (v :: w :: vs) = v.write ++ ',' :: writeElements (w :: vs) := rfl

theorem writeString_append (s : String) (r : List Char) :
    writeString s ++ r = '"' :: (s.toList.flatMap writeChar ++ '"' :: r) := by
  simp [writeString]

theorem writeMembers_singleton (m : String × Json) :
    writeMembers [memberOf m] = writeString m.1 ++ ':' :: m.2.write := rfl

theorem writeMembers_cons_cons (m n : String × Json) (ms : List (String × Json)) :
    writeMembers ((m :: n :: ms).map memberOf) =
      writeString m.1 ++ ':' :: (m.2.write ++ ',' :: writeMembers ((n :: ms).map memberOf)) := by
  show (writeString m.1 ++ ':' :: m.2.write) ++ ',' :: writeMembers ((n :: ms).map memberOf) = _
  rw [List.append_assoc, List.cons_append]

/-- The elements of an array begin as the first of them does. -/
theorem exists_writeElements_eq_cons {v : Json} (hv : v.Written) (vs : List Json) :
    ∃ c cs, writeElements (v :: vs) = c :: cs ∧ isBlank c = false ∧ c ≠ ']' := by
  obtain ⟨c, cs, hwrite, hblank, hne⟩ := exists_write_eq_cons hv
  cases vs with
  | nil => exact ⟨c, cs, hwrite, hblank, hne⟩
  | cons w vs =>
    refine ⟨c, cs ++ ',' :: writeElements (w :: vs), ?_, hblank, hne⟩
    rw [writeElements_cons_cons, hwrite, List.cons_append]

/-- The members of an object begin with the quote of a name. -/
theorem exists_writeMembers_eq_cons (m : String × Json) (ms : List (String × Json)) :
    ∃ cs, writeMembers ((m :: ms).map memberOf) = '"' :: cs := by
  cases ms with
  | nil => exact ⟨_, rfl⟩
  | cons n ms => exact ⟨_, rfl⟩

theorem readElements_write {vs : List Json} (hne : vs ≠ []) (hvs : ∀ v ∈ vs, v.ReadsBack)
    {fuel : Nat} (hfuel : 2 * (writeElements vs).length + 1 ≤ fuel) (r : List Char) :
    readElements fuel (writeElements vs ++ ']' :: r) = some (vs, r) := by
  -- Every element spends one unit of fuel and writes at least one character, so twice the
  -- length left covers the rest of the elements and the value read at each of them.
  induction vs generalizing fuel with
  | nil => exact absurd rfl hne
  | cons v vs ih =>
    cases fuel with
    | zero => omega
    | succ fuel =>
      have hv := hvs v List.mem_cons_self
      cases vs with
      | nil =>
        rw [writeElements] at hfuel ⊢
        rw [readElements, hv fuel _ (by omega) (stops_cons.mpr rfl)]
        rfl
      | cons w vs =>
        rw [writeElements_cons_cons, List.length_append, List.length_cons] at hfuel
        have hlength : 2 * (writeElements (w :: vs)).length + 1 ≤ fuel := by omega
        have hrest := ih (List.cons_ne_nil w vs) (fun u hu => hvs u (List.mem_cons_of_mem v hu))
          hlength
        rw [writeElements_cons_cons, List.append_assoc, List.cons_append, readElements,
          hv fuel _ (by omega) (stops_cons.mpr rfl)]
        show (readElements fuel _ >>= fun _ => _) = _
        rw [hrest]
        rfl

theorem readMembers_write {ms : List (String × Json)} (hne : ms ≠ [])
    (hms : ∀ m ∈ ms, m.2.ReadsBack) {fuel : Nat}
    (hfuel : 2 * (writeMembers (ms.map memberOf)).length + 1 ≤ fuel) (r : List Char) :
    readMembers fuel (writeMembers (ms.map memberOf) ++ '\x7d' :: r) =
      some (ms.map memberOf, r) := by
  -- As for elements: the name and the colon before a value only add to the length left.
  induction ms generalizing fuel with
  | nil => exact absurd rfl hne
  | cons m ms ih =>
    cases fuel with
    | zero => omega
    | succ fuel =>
      have hm := hms m List.mem_cons_self
      have hquote : isBlank '"' = false := rfl
      cases ms with
      | nil =>
        rw [List.map_singleton, writeMembers_singleton, List.length_append, List.length_cons]
          at hfuel
        rw [List.map_singleton, writeMembers_singleton, List.append_assoc, writeString_append,
          readMembers, skipBlanks_cons hquote]
        show (readString _ >>= fun _ => _) = _
        rw [readString_writeChar]
        show (readValue fuel (m.2.write ++ '\x7d' :: r) >>= fun _ => _) = _
        rw [hm fuel _ (by omega) (stops_cons.mpr rfl)]
        rfl
      | cons n ms =>
        rw [writeMembers_cons_cons, List.length_append, List.length_cons, List.length_append,
          List.length_cons] at hfuel
        have hlength : 2 * (writeMembers ((n :: ms).map memberOf)).length + 1 ≤ fuel := by omega
        have hrest := ih (List.cons_ne_nil n ms) (fun k hk => hms k (List.mem_cons_of_mem m hk))
          hlength
        rw [writeMembers_cons_cons, List.append_assoc, writeString_append, readMembers,
          skipBlanks_cons hquote]
        show (readString _ >>= fun _ => _) = _
        rw [readString_writeChar]
        show (readValue fuel ((m.2.write ++ ',' :: writeMembers ((n :: ms).map memberOf)) ++ _) >>=
          fun _ => _) = _
        rw [List.append_assoc, List.cons_append, hm fuel _ (by omega) (stops_cons.mpr rfl)]
        show (readMembers fuel _ >>= fun _ => _) = _
        rw [hrest]
        rfl

theorem readValue_elements {fuel : Nat} {c : Char} {cs r : List Char} {vs : List Json}
    (hblank : isBlank c = false) (hne : c ≠ ']')
    (h : readElements fuel (c :: cs) = some (vs, r)) :
    readValue (fuel + 1) ('[' :: c :: cs) = some (.array vs, r) := by
  have hopen : isBlank '[' = false := rfl
  rw [readValue, skipBlanks_cons hopen]
  split
  · next heq =>
    cases heq
    rw [skipBlanks_cons hblank]
    split
    · next h => exact absurd (List.cons.inj h).1 hne
    · rw [h]
      rfl
  · next heq => exact absurd (List.cons.inj heq).1 (by decide)
  · next hne _ => exact absurd rfl (hne _)

theorem readValue_members {fuel : Nat} {cs r : List Char} {ms : List (Option String × Json)}
    (h : readMembers fuel ('"' :: cs) = some (ms, r)) :
    readValue (fuel + 1) ('\x7b' :: '"' :: cs) = some (.object ms, r) := by
  have hopen : isBlank '\x7b' = false := rfl
  have hquote : isBlank '"' = false := rfl
  rw [readValue, skipBlanks_cons hopen]
  split
  · next heq => exact absurd (List.cons.inj heq).1 (by decide)
  · next heq =>
    cases heq
    rw [skipBlanks_cons hquote]
    show (readMembers fuel ('"' :: cs)).map _ = _
    rw [h]
    rfl
  · next hne => exact absurd rfl (hne _)

theorem readsBack_array {vs : List Json} (hwritten : ∀ v ∈ vs, v.Written)
    (hvs : ∀ v ∈ vs, v.ReadsBack) : ReadsBack (.array vs) := by
  intro fuel r hfuel _
  have hwrite : (Json.array vs).write = '[' :: (writeElements vs ++ [']']) := rfl
  rw [hwrite, List.length_cons, List.length_append, List.length_singleton] at hfuel
  rw [hwrite, List.cons_append, List.append_assoc, List.singleton_append]
  cases fuel with
  | zero => omega
  | succ fuel =>
    cases vs with
    | nil => rfl
    | cons v vs =>
      have hlength : 2 * (writeElements (v :: vs)).length + 1 ≤ fuel := by omega
      have helements := readElements_write (List.cons_ne_nil v vs) hvs hlength r
      obtain ⟨c, cs, hcons, hblank, hne⟩ :=
        exists_writeElements_eq_cons (hwritten v List.mem_cons_self) vs
      rw [hcons] at helements ⊢
      exact readValue_elements hblank hne helements

theorem readsBack_object {ms : List (String × Json)} (hms : ∀ m ∈ ms, m.2.ReadsBack) :
    ReadsBack (.object (ms.map memberOf)) := by
  intro fuel r hfuel _
  have hwrite : (Json.object (ms.map memberOf)).write =
      '\x7b' :: (writeMembers (ms.map memberOf) ++ ['\x7d']) := rfl
  rw [hwrite, List.length_cons, List.length_append, List.length_singleton] at hfuel
  rw [hwrite, List.cons_append, List.append_assoc, List.singleton_append]
  cases fuel with
  | zero => omega
  | succ fuel =>
    cases ms with
    | nil => rfl
    | cons m ms =>
      have hlength : 2 * (writeMembers ((m :: ms).map memberOf)).length + 1 ≤ fuel := by omega
      have hmembers := readMembers_write (List.cons_ne_nil m ms) hms hlength r
      obtain ⟨cs, hcons⟩ := exists_writeMembers_eq_cons m ms
      rw [hcons] at hmembers ⊢
      exact readValue_members hmembers

/-! ## Whole texts -/

theorem readValue_write {v : Json} (h : v.Written) : v.ReadsBack := by
  induction h with
  | null => exact readsBack_null
  | bool b => exact readsBack_bool b
  | integer n => exact readsBack_integer n
  | string s => exact readsBack_string s
  | array hvs ih => exact readsBack_array hvs ih
  | object _ ih => exact readsBack_object ih

theorem ofText?_toText {v : Json} (h : v.Written) : ofText? v.toText = some v := by
  have hread := readValue_write h (2 * v.write.length + 2) [] (by omega) (Stops.nil _)
  rw [List.append_nil] at hread
  unfold ofText? toText read
  rw [String.toList_ofList, hread]
  rfl

end IndexQuery.Json
