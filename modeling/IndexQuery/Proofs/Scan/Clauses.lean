import IndexQuery.Statement
import IndexQuery.Proofs.Outcome
import IndexQuery.Proofs.Scan.Text

/-!
# Scans of the clauses around a condition

No clause but the condition holds a placeholder, and none leaves a literal open: names are
identifiers, numbers are digits, and the text of an option is quoted with its quotes escaped.

    Quiet (l.text x).toList                                             (Layout.quiet_text)
    check name value = .ok () → Scans (entryText (name, value)).toList 0      (scans_entryText)
    Scans b.selectClause.toList 0                                        (scans_selectClause)
    s ∈ b.tailClause? → Quiet s.toList                                     (quiet_tailClause)
-/

namespace IndexQuery

open Text Outcome

/-! ## Numbers -/

namespace Numeral

/-- Nothing but digits stands before and behind the point. -/
def IsDigits (n : Numeral) : Prop :=
  (∀ c ∈ n.whole, c.isDigit = true) ∧ ∀ c ∈ n.fraction, c.isDigit = true

theorem quiet_text {n : Numeral} (h : n.IsDigits) : Quiet n.text := by
  have hsign : Quiet (if n.negative then ['-'] else []) := by split <;> decide
  have hpoint : Quiet ['.'] := by decide
  have hmark : Quiet ['e'] := by decide
  have hfraction : Quiet (if n.fraction = [] then [] else '.' :: n.fraction) := by
    split
    · decide
    · exact hpoint.append (quiet_of_isDigit h.2)
  have hmantissa := (hsign.append (quiet_of_isDigit h.1)).append hfraction
  unfold text
  refine hmantissa.append ?_
  split
  · decide
  · exact hmark.append (quiet_signedDecimal _)

end Numeral

namespace Binary64.Layout

theorem isDigit_of_mem_replicate {n : Nat} {c : Char} (h : c ∈ List.replicate n '0') :
    c.isDigit = true := by
  rw [List.eq_of_mem_replicate h]
  rfl

theorem isDigits_plainNumeral (l : Layout) (negative : Bool) {ds : List Char}
    (hd : ∀ c ∈ ds, c.isDigit = true) (p : Int) : (l.plainNumeral negative ds p).IsDigits := by
  unfold plainNumeral
  split
  · constructor
    · intro c hc
      rw [List.mem_singleton.mp hc]
      rfl
    · intro c hc
      rcases List.mem_append.mp hc with hc | hc
      · exact isDigit_of_mem_replicate hc
      · exact hd c hc
  · constructor
    · intro c hc
      rcases List.mem_append.mp hc with hc | hc
      · exact hd c (List.mem_of_mem_take hc)
      · exact isDigit_of_mem_replicate hc
    · intro c hc
      dsimp only at hc
      split at hc
      · rw [List.mem_singleton.mp hc]
        rfl
      · exact hd c (List.mem_of_mem_drop hc)

theorem isDigits_numeral (l : Layout) (x : Binary64) : (l.numeral x).IsDigits := by
  have hd : ∀ n, ∀ c ∈ Nat.toDigits 10 n, c.isDigit = true :=
    fun _ _ hc => Nat.isDigit_of_mem_toDigits (by decide) (by decide) hc
  simp only [numeral]
  generalize (if x.units = 0 then (⟨0, 0⟩ : Scientific) else x.shortest l.tie) = s
  split
  · exact l.isDigits_plainNumeral x.isNegative (hd _) _
  · exact ⟨fun c hc => hd _ c (List.mem_of_mem_take hc),
      fun c hc => hd _ c (List.mem_of_mem_drop hc)⟩

theorem quiet_text (l : Layout) (x : Binary64) : Quiet (l.text x).toList := by
  unfold text
  split
  · decide
  · split
    · rw [String.toList_ofList]
      exact Numeral.quiet_text (l.isDigits_numeral x)
    · split <;> decide

end Binary64.Layout

/-! ## Options -/

namespace OptionSet

theorem check_eq_ok {name : String} {value : OptionValue} (h : check name value = .ok ()) :
    isIdentifier name = true ∧ ∀ n ∈ value.names, isIdentifier n = true := by
  unfold check at h
  split at h
  · cases h
  · next hname =>
    split at h
    · cases h
    · next hnames =>
      refine ⟨by simpa using hname, fun n hn => ?_⟩
      simpa using List.find?_eq_none.mp hnames n hn

theorem scans_weights {ws : List (String × Int64)}
    (h : ∀ n ∈ ws.map Prod.fst, isIdentifier n = true) :
    Scans (OptionValue.weights ws).text.toList 0 := by
  have hopen : Scans "(".toList 0 := by decide
  have hclose : Scans ")".toList 0 := by decide
  refine (hopen.concat (scans_intercalate (by decide) fun s hs => ?_)).concat hclose
  obtain ⟨⟨n, w⟩, hw, rfl⟩ := List.mem_map.mp hs
  have hn := quiet_identifier (h n (List.mem_map_of_mem hw))
  have heq : Scans "=".toList 0 := by decide
  exact (hn.scans.concat heq).concat (quiet_signedDecimal w.toInt).scans

theorem scans_text {name : String} {value : OptionValue} (h : check name value = .ok ()) :
    Scans value.text.toList 0 := by
  obtain ⟨-, hnames⟩ := check_eq_ok h
  cases value with
  | bool b => cases b <;> decide
  | int n => exact (quiet_signedDecimal n.toInt).scans
  | float x => exact (statementLayout.quiet_text x).scans
  | string s =>
    have htext : (OptionValue.string s).text.toList = '\'' :: escape s.toList ++ ['\''] := by
      simp [OptionValue.text, escapeText]
    rw [htext]
    exact scans_quoted s.toList
  | weights ws => exact scans_weights hnames

theorem scans_entryText {o : String × OptionValue} (h : check o.1 o.2 = .ok ()) :
    Scans (entryText o).toList 0 := by
  have hname := quiet_identifier (check_eq_ok h).1
  have heq : Scans "=".toList 0 := by decide
  exact (hname.scans.concat heq).concat (scans_text h)

end OptionSet

/-! ## Clauses -/

namespace Statement

theorem scans_trailing {clause : Option String}
    (h : ∀ s ∈ clause, Scans s.toList 0) : Scans (trailing clause).toList 0 := by
  have hblank : Scans " ".toList 0 := by decide
  cases clause with
  | none => exact Scans.nil
  | some s => exact hblank.concat (h s rfl)

end Statement

namespace OptionSet

theorem scans_clause {o : OptionSet} (h : ∀ e ∈ o.entries, check e.1 e.2 = .ok ()) :
    ∀ s ∈ o.clause?, Scans s.toList 0 := by
  intro s hs
  unfold clause? at hs
  split at hs
  · cases hs
  · cases hs
    have hword : Scans "OPTION ".toList 0 := by decide
    refine hword.concat (scans_intercalate (by decide) fun s hs => ?_)
    obtain ⟨e, he, rfl⟩ := List.mem_map.mp hs
    exact scans_entryText (h e he)

end OptionSet

namespace Select

variable {b : Select}

theorem scans_selectClause (hindex : isIdentifier b.index = true)
    (hcolumns : ∀ c ∈ b.columns, isIdentifier c = true) : Scans b.selectClause.toList 0 := by
  have hselect : Scans "SELECT ".toList 0 := by decide
  have hfrom : Scans " FROM ".toList 0 := by decide
  have hlist : Scans
      (if b.columns.isEmpty then "*" else ", ".intercalate b.columns).toList 0 := by
    split
    · decide
    · exact scans_intercalate (by decide) fun c hc => (quiet_identifier (hcolumns c hc)).scans
  exact ((hselect.concat hlist).concat hfrom).concat (quiet_identifier hindex).scans

theorem quiet_orderClause (h : ∀ t ∈ b.orderBy, isIdentifier t.column = true) :
    ∀ s ∈ b.orderClause?, Quiet s.toList := by
  intro s hs
  unfold orderClause? at hs
  split at hs
  · cases hs
  · cases hs
    have hword : Quiet "ORDER BY ".toList := by decide
    refine hword.concat (quiet_intercalate (by decide) fun s hs => ?_)
    obtain ⟨t, ht, rfl⟩ := List.mem_map.mp hs
    have hdirection : Quiet (if t.descending then " DESC" else " ASC").toList := by
      split <;> decide
    exact (quiet_identifier (h t ht)).concat hdirection

theorem quiet_limitClause : ∀ s ∈ b.limitClause?, Quiet s.toList := by
  intro s hs
  obtain ⟨n, -, rfl⟩ := Option.map_eq_some_iff.mp hs
  have hword : Quiet "LIMIT ".toList := by decide
  have hcomma : Quiet ", ".toList := by decide
  split
  · exact ((hword.concat (quiet_decimal _)).concat hcomma).concat (quiet_decimal _)
  · exact hword.concat (quiet_decimal _)

theorem quiet_tailClause (h : ∀ t ∈ b.orderBy, isIdentifier t.column = true) :
    ∀ s ∈ b.tailClause?, Quiet s.toList := by
  have horder := quiet_orderClause h
  have hlimit := quiet_limitClause (b := b)
  intro s hs
  unfold tailClause? at hs
  split at hs
  · cases hs
  · next o ho _ =>
    cases hs
    exact horder s ho
  · next l _ hl =>
    cases hs
    exact hlimit s hl
  · next o l ho hl =>
    cases hs
    have hblank : Quiet " ".toList := by decide
    exact ((horder o ho).concat hblank).concat (hlimit l hl)

theorem scans_tailClause (h : ∀ t ∈ b.orderBy, isIdentifier t.column = true) :
    ∀ s ∈ b.tailClause?, Scans s.toList 0 := fun s hs => (quiet_tailClause h s hs).scans

end Select

end IndexQuery
