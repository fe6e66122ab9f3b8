import IndexQuery.Proofs.Origin
import IndexQuery.Proofs.Scan.Text

/-!
# Scans of conditions

A fragment is balanced if its text leaves no literal open and holds one placeholder for each of its
parameters.  Comparisons of declared fields are balanced, and every way to join fragments keeps them
so, whatever the tree of a condition is.

    i.Compares g → g.Balanced                                            (balanced_of_compares)
    f.Balanced → g.Balanced → (f.and g).Balanced                                 (Balanced.and)
    KeptByJoining Balanced                                                (keptByJoining_balanced)
    f.Balanced → f.Matched                                                   (Balanced.matched)
    f.Matched → f.validate = .ok ()                                       (validate_of_matched)
-/

namespace IndexQuery

open Text Outcome

/-- The text of a fragment holds one placeholder for each parameter, all literals being closed. -/
def Fragment.Balanced (f : Fragment) : Prop := Scans f.sql.toList f.params.length

/-- A fragment has as many placeholders as parameters. -/
def Fragment.Matched (f : Fragment) : Prop := f.placeholders = f.params.length

instance (f : Fragment) : Decidable f.Matched :=
  inferInstanceAs (Decidable (f.placeholders = f.params.length))

namespace Fragment

/-- The error for a fragment with another number of placeholders than of parameters. -/
def mismatch (f : Fragment) : Error :=
  .malformedFragment f.sql f.placeholders f.params.length

theorem validate_of_matched {f : Fragment} (h : f.Matched) : f.validate = .ok () := if_pos h

theorem validate_of_not_matched {f : Fragment} (h : ¬ f.Matched) :
    f.validate = .error f.mismatch := if_neg h

/-! ## Joined fragments -/

theorem Balanced.empty : empty.Balanced := Scans.nil

theorem Balanced.matched {f : Fragment} (h : f.Balanced) : f.Matched := h.count

/-- A balanced fragment without text has no parameters. -/
theorem Balanced.params_eq_nil {f : Fragment} (h : f.Balanced) (hf : f.sql = "") :
    f.params = [] := by
  have hcount := h.count
  rw [hf] at hcount
  exact List.eq_nil_of_length_eq_zero hcount.symm

theorem Balanced.and {f g : Fragment} (hf : f.Balanced) (hg : g.Balanced) :
    (f.and g).Balanced := by
  have hword : Scans " AND ".toList 0 := by decide
  show Scans (andText f.sql g.sql).toList (f.params ++ g.params).length
  unfold andText
  split
  · next h =>
    rw [hf.params_eq_nil h]
    exact hg
  · split
    · next h =>
      rw [hg.params_eq_nil h, List.append_nil]
      exact hf
    · rw [List.length_append]
      exact (hf.concat hword).concat hg

theorem Balanced.or {f g : Fragment} (hf : f.Balanced) (hg : g.Balanced) :
    (f.or g).Balanced := by
  have hopen : Scans "(".toList 0 := by decide
  have hword : Scans ") OR (".toList 0 := by decide
  have hclose : Scans ")".toList 0 := by decide
  show Scans (orText f.sql g.sql).toList (f.params ++ g.params).length
  unfold orText
  split
  · next h =>
    rw [hf.params_eq_nil h]
    exact hg
  · split
    · next h =>
      rw [hg.params_eq_nil h, List.append_nil]
      exact hf
    · rw [List.length_append]
      exact (((hopen.zero_concat hf).concat hword).concat hg).concat hclose

theorem Balanced.parenthesize {f : Fragment} (hf : f.Balanced) : f.parenthesize.Balanced := by
  have hopen : Scans "(".toList 0 := by decide
  have hclose : Scans ")".toList 0 := by decide
  unfold Fragment.parenthesize
  split
  · exact (hopen.zero_concat hf).concat hclose
  · exact hf

theorem keptByJoining_balanced : KeptByJoining Balanced :=
  ⟨Balanced.empty, Balanced.and, Balanced.or, Balanced.parenthesize⟩

end Fragment

/-! ## Comparisons -/

theorem Fragment.scans_placeholderList (n : Nat) :
    Scans (Fragment.placeholderList n).toList n := by
  have hmark : Scans "?".toList 1 := by decide
  have hcomma : Scans ", ".toList 0 := by decide
  unfold Fragment.placeholderList
  induction n with
  | zero => exact Scans.nil
  | succ n ih =>
    cases n with
    | zero => exact hmark
    | succ n =>
      rw [List.replicate_succ, List.replicate_succ, String.intercalate_cons_cons,
        ← List.replicate_succ, Nat.add_comm (n + 1)]
      exact (hmark.concat hcomma).concat ih

theorem Settings.quiet_marker {marker : String} (h : isMarker marker = true) :
    Quiet marker.toList := by
  simp only [isMarker, Bool.and_eq_true, Bool.not_eq_true', List.any_eq_false] at h
  intro c hc
  have hspoil := h.2 c hc
  simp only [spoilsMarker, needsEscape, Bool.or_eq_true, beq_iff_eq, not_or] at hspoil
  exact ⟨hspoil.2.1, hspoil.1.2⟩

namespace Predicate

theorem scans_compareText {column : String} (hc : Quiet column.toList) (op : Operator)
    {n : Nat} (hn : op ≠ .oneOf → n = 1) :
    Scans (Condition.compareText column op n).toList n := by
  have hcolumn := hc.scans
  have hblank : Scans " ".toList 0 := by decide
  have hmark : Scans " ?".toList 1 := by decide
  have hopen : Scans " IN (".toList 0 := by decide
  have hclose : Scans ")".toList 0 := by decide
  have hsymbol : ∀ {s : String}, Scans s.toList 0 →
      Scans (column ++ " " ++ s ++ " ?").toList 1 :=
    fun h => ((hcolumn.concat hblank).concat h).zero_concat hmark
  have hlist : Scans (column ++ " IN (" ++ Fragment.placeholderList n ++ ")").toList n :=
    ((hcolumn.concat hopen).zero_concat (Fragment.scans_placeholderList n)).concat hclose
  cases op with
  | oneOf => exact hlist
  | search => exact hlist
  | exact => rw [hn (by decide)]; exact hsymbol (s := "=") (by decide)
  | greater => rw [hn (by decide)]; exact hsymbol (s := ">") (by decide)
  | greaterEqual => rw [hn (by decide)]; exact hsymbol (s := ">=") (by decide)
  | less => rw [hn (by decide)]; exact hsymbol (s := "<") (by decide)
  | lessEqual => rw [hn (by decide)]; exact hsymbol (s := "<=") (by decide)
  | notEqual => rw [hn (by decide)]; exact hsymbol (s := "<>") (by decide)

theorem scans_setComparison {column sql : String} (hc : isIdentifier column = true)
    {op : Operator} (h : setComparison? column op = some sql) : Scans sql.toList 1 := by
  have hcolumn := (quiet_identifier hc).scans
  have hwrap : ∀ {s t : String}, Scans s.toList 0 → Scans t.toList 1 →
      Scans (s ++ column ++ t).toList 1 :=
    fun hs ht => (hs.concat hcolumn).zero_concat ht
  cases op with
  | exact => cases h; exact hwrap (by decide) (by decide)
  | greater => cases h; exact hwrap (by decide) (by decide)
  | greaterEqual => cases h; exact hwrap (by decide) (by decide)
  | less => cases h; exact hwrap (by decide) (by decide)
  | lessEqual => cases h; exact hwrap (by decide) (by decide)
  | oneOf => cases h
  | search => cases h
  | notEqual => cases h

theorem quiet_inequalityColumn {marker : String} (hm : Settings.isMarker marker = true)
    {f : Field} (hname : isIdentifier f.name = true)
    (hcolumn : isIdentifier f.storageColumn = true) :
    Quiet (inequalityColumn marker f).toList := by
  unfold inequalityColumn
  split
  · rw [String.toList_append]
    exact (Settings.quiet_marker hm).append (quiet_identifier hname)
  · exact quiet_identifier hcolumn

theorem scans_comparisonText {marker : String} (hm : Settings.isMarker marker = true) {f : Field}
    (hname : isIdentifier f.name = true) (hcolumn : isIdentifier f.storageColumn = true)
    {op : Operator} {n : Nat} (hn : op ≠ .oneOf → n = 1) {sql : String}
    (h : comparisonText? marker f op n = some sql) : Scans sql.toList n := by
  unfold comparisonText? at h
  split at h
  · split at h
    · cases h
      have hopen : Scans "IN(".toList 0 := by decide
      have hcomma : Scans ", ".toList 0 := by decide
      have hclose : Scans ")".toList 0 := by decide
      exact (((hopen.concat (quiet_identifier hcolumn).scans).concat hcomma).zero_concat
        (Fragment.scans_placeholderList n)).concat hclose
    · next hne =>
      rw [hn hne]
      exact scans_setComparison hcolumn h
  · split at h
    · cases h
      rw [hn (by decide)]
      have hsymbol : Scans " <> ?".toList 1 := by decide
      exact (quiet_inequalityColumn hm hname hcolumn).scans.zero_concat hsymbol
    · cases h
    · cases h
      exact scans_compareText (quiet_identifier hcolumn) op hn

end Predicate

theorem Index.balanced_of_compares {i : Index} (hi : i.Valid) {g : Fragment}
    (h : i.Compares g) : g.Balanced := by
  obtain ⟨p, hp, hg⟩ := h
  have hs := hi.sound
  obtain ⟨hm, -⟩ := Settings.validate_eq_ok hi.validate
  refine Predicate.scans_comparisonText hm (hs.name _ hp) (hs.column _ hp) (fun hne => ?_) hg.text
  obtain ⟨q, hq⟩ := hg.single hne
  rw [hq]
  rfl

end IndexQuery
