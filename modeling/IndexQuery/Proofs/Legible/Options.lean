import IndexQuery.Proofs.Legible.Text
import IndexQuery.Proofs.Scan.Statement

/-!
# What the text of options tells

Options stand in a statement as text and not as parameters, so everything hangs on what that text
tells.  It tells all: the names, their order and their values, but for a boolean, which is written
as the number that it stands for.  No text of an option is read as another option, or hides one,
whatever quotes, backslashes and commas it holds.

    v.asInteger.text = v.text                                                 (text_asInteger)
    Legible Readable Char.isDigit fun v => v.text.toList                         (legible_text)
    o.clause? = p.clause? ↔ o.integerEntries = p.integerEntries   if no value is a float
                                                                             (clause?_eq_iff)
-/

namespace IndexQuery

open Text Outcome

/-! ## Algorithm -/

namespace OptionValue

/-- Whether a value is a binary number. -/
def isFloat : OptionValue → Bool
  | .float _ => true
  | .bool _ | .int _ | .string _ | .weights _ => false

/-- The value, and of a boolean the number that it is written as. -/
def asInteger : OptionValue → OptionValue
  | .bool b => .int (if b then 1 else 0)
  | v => v

/-- A value that can be told from its text. -/
inductive Readable : OptionValue → Prop where
  | int (n : Int64) : Readable (.int n)
  | string (s : String) : Readable (.string s)
  | weights {ws : List (String × Int64)} (h : ∀ w ∈ ws, isIdentifier w.1 = true) :
    Readable (.weights ws)

/-- A weight as it is written. -/
def weightText (w : Int64) : String := signedDecimal w.toInt

end OptionValue

/-- The options, with booleans as the numbers that they are written as. -/
def OptionSet.integerEntries (o : OptionSet) : List (String × OptionValue) :=
  o.entries.map fun e => (e.1, e.2.asInteger)

/-! ## Values -/

namespace OptionValue

theorem text_asInteger (v : OptionValue) : v.asInteger.text = v.text := by
  cases v with
  | bool b => cases b <;> decide
  | _ => rfl

theorem toList_text_string (s : String) (r : List Char) :
    (OptionValue.string s).text.toList ++ r = '\'' :: (escape s.toList ++ '\'' :: r) := by
  simp [text, escapeText]

theorem toList_text_weights (ws : List (String × Int64)) (r : List Char) :
    (OptionValue.weights ws).text.toList ++ r =
      '(' :: ((assignments weightText ws).toList ++ ')' :: r) := by
  have htext : (OptionValue.weights ws).text = "(" ++ assignments weightText ws ++ ")" := rfl
  simp [htext]

/-- A number begins with a sign or a digit. -/
theorem signedDecimal_ne_cons {n : Int} {c : Char} {r s : List Char} (hsign : c ≠ '-')
    (hdigit : c.isDigit = false) : (signedDecimal n).toList ++ r ≠ c :: s := by
  intro h
  rw [toList_signedDecimal] at h
  split at h
  · exact hsign (List.cons.inj h).1.symm
  · obtain ⟨d, t, hd, hdig⟩ := exists_toDigits_eq_cons n.natAbs
    rw [hd] at h
    rw [(List.cons.inj h).1, hdigit] at hdig
    cases hdig

theorem legible_weight :
    Legible (fun _ => True) Char.isDigit fun w => (weightText w).toList := by
  intro v w r t _ _ hr ht h
  obtain ⟨hvw, hrest⟩ := signedDecimal_append_inj hr ht h
  exact ⟨Int64.toInt_inj.mp hvw, hrest⟩

theorem legible_text : Legible Readable Char.isDigit fun v => v.text.toList := by
  intro v w r t hv hw hr ht h
  dsimp only at h
  cases hv with
  | int m =>
    cases hw with
    | int n =>
      obtain ⟨hmn, hrest⟩ := signedDecimal_append_inj hr ht h
      exact ⟨congrArg int (Int64.toInt_inj.mp hmn), hrest⟩
    | string s =>
      rw [toList_text_string] at h
      exact absurd h (signedDecimal_ne_cons (by decide) rfl)
    | weights hws =>
      rw [toList_text_weights] at h
      exact absurd h (signedDecimal_ne_cons (by decide) rfl)
  | string s =>
    rw [toList_text_string] at h
    cases hw with
    | int n => exact absurd h.symm (signedDecimal_ne_cons (by decide) rfl)
    | string s' =>
      rw [toList_text_string] at h
      obtain ⟨hs, hrest⟩ := escape_append_inj (List.cons.inj h).2
      exact ⟨congrArg string (String.toList_inj.mp hs), hrest⟩
    | weights hws =>
      rw [toList_text_weights] at h
      exact absurd (List.cons.inj h).1 (by decide)
  | weights hvs =>
    rw [toList_text_weights] at h
    cases hw with
    | int n => exact absurd h.symm (signedDecimal_ne_cons (by decide) rfl)
    | string s =>
      rw [toList_text_string] at h
      exact absurd (List.cons.inj h).1 (by decide)
    | weights hws =>
      rw [toList_text_weights] at h
      have hclose : ∀ u : List Char, Stops isTailOrComma (')' :: u) := fun u => stops_cons.mpr rfl
      obtain ⟨hvw, hrest⟩ := assignments_append_inj legible_weight
        (fun e he => ⟨hvs e he, trivial⟩) (fun e he => ⟨hws e he, trivial⟩) (hclose r) (hclose t)
        (List.cons.inj h).2
      exact ⟨congrArg weights hvw, (List.cons.inj hrest).2⟩

/-- Every other value than a float is readable, once booleans are numbers. -/
theorem readable_asInteger {v : OptionValue} (hfloat : v.isFloat = false)
    (hnames : ∀ n ∈ v.names, isIdentifier n = true) : v.asInteger.Readable := by
  cases v with
  | bool b => exact .int _
  | int n => exact .int n
  | float x => cases hfloat
  | string s => exact .string s
  | weights ws => exact .weights fun w hw => hnames w.1 (List.mem_map_of_mem hw)

end OptionValue

/-! ## Clauses -/

namespace OptionSet

theorem clause?_integerEntries (o : OptionSet) :
    (⟨o.integerEntries⟩ : OptionSet).clause? = o.clause? := by
  have hentry : entryText ∘ (fun e : String × OptionValue => (e.1, e.2.asInteger)) = entryText :=
    funext fun e => congrArg (e.1 ++ "=" ++ ·) e.2.text_asInteger
  unfold clause? integerEntries
  rw [List.map_map, hentry, List.isEmpty_map]

theorem clause?_eq (o : OptionSet) : o.clause? =
    if o.entries = [] then none
    else some ("OPTION " ++ assignments OptionValue.text o.entries) := by
  unfold clause?
  simp only [List.isEmpty_iff]
  rfl

/-- Readable values are told from the text of all options. -/
theorem entries_eq_of_clause?_eq {o p : OptionSet}
    (ho : ∀ e ∈ o.entries, isIdentifier e.1 = true ∧ e.2.Readable)
    (hp : ∀ e ∈ p.entries, isIdentifier e.1 = true ∧ e.2.Readable) (h : o.clause? = p.clause?) :
    o.entries = p.entries := by
  rw [clause?_eq, clause?_eq] at h
  split at h
  · next hnil =>
    split at h
    · next hnil' => rw [hnil, hnil']
    · cases h
  · split at h
    · cases h
    · have htext := congrArg String.toList (Option.some.inj h)
      rw [String.toList_append, String.toList_append] at htext
      have hrow := congrArg (· ++ []) (List.append_cancel_left htext)
      exact (assignments_append_inj OptionValue.legible_text ho hp (.nil _) (.nil _) hrow).1

/-- Options without floats are told from their text, and so is that there are none, but for
booleans, which are written as numbers. -/
theorem clause?_eq_iff {os ps : List (String × OptionValue)} {o p : OptionSet}
    (ho : empty.setAll os = .ok o) (hp : empty.setAll ps = .ok p)
    (hos : ∀ w ∈ os, w.2.isFloat = false) (hps : ∀ w ∈ ps, w.2.isFloat = false) :
    o.clause? = p.clause? ↔
      o.entries.map (fun e => (e.1, e.2.asInteger)) =
        p.entries.map fun e => (e.1, e.2.asInteger) := by
  have hreadable : ∀ {ws : List (String × OptionValue)} {s : OptionSet},
      empty.setAll ws = .ok s → (∀ w ∈ ws, w.2.isFloat = false) →
      ∀ e ∈ s.integerEntries, isIdentifier e.1 = true ∧ e.2.Readable := by
    intro ws s hs hws e he
    obtain ⟨d, hd, rfl⟩ := List.mem_map.mp he
    obtain ⟨hmem, hcheck⟩ := (mem_entries_setAll hs hd).resolve_left List.not_mem_nil
    obtain ⟨hname, hnames⟩ := check_eq_ok hcheck
    exact ⟨hname, OptionValue.readable_asInteger (hws d hmem) hnames⟩
  rw [← clause?_integerEntries o, ← clause?_integerEntries p]
  constructor
  · exact entries_eq_of_clause?_eq (hreadable ho hos) (hreadable hp hps)
  · intro h
    exact congrArg (fun es => (⟨es⟩ : OptionSet).clause?) h

/-- A comment with a quote, a comma and an equals sign in it stays one option, and a flag is told
from every number but the one that it is written as. -/
theorem clause?_comment_flag :
    (⟨[("comment", .string "a', cutoff='1")]⟩ : OptionSet).clause? ≠
        (⟨[("comment", .string "a"), ("cutoff", .string "1")]⟩ : OptionSet).clause? ∧
      (⟨[("reverse_scan", .bool true), ("field_weights", .weights [("title", 9)])]⟩ :
          OptionSet).clause? =
        (⟨[("reverse_scan", .int 1), ("field_weights", .weights [("title", 9)])]⟩ :
          OptionSet).clause? := by
  constructor
  · have hiff := clause?_eq_iff
      (rfl : empty.setAll [("comment", .string "a', cutoff='1")] = .ok _)
      (rfl : empty.setAll [("comment", .string "a"), ("cutoff", .string "1")] = .ok _)
      (by decide) (by decide)
    exact fun h => absurd (hiff.mp h) (by decide)
  · exact (clause?_eq_iff
      (rfl : empty.setAll
        [("reverse_scan", .bool true), ("field_weights", .weights [("title", 9)])] = .ok _)
      (rfl : empty.setAll
        [("reverse_scan", .int 1), ("field_weights", .weights [("title", 9)])] = .ok _)
      (by decide) (by decide)).mpr (by decide)

end OptionSet

end IndexQuery
