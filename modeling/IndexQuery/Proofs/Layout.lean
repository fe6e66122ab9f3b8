import IndexQuery.Proofs.Scan.Statement

/-!
# The layout of a statement

The condition of a statement is a row of operands with AND between them: those of the base query
first, then the fragments, then the search terms.  Operands without text are left out, and the
parameters stand in the order of the operands.

    (fs.foldl and f).sql = " AND ".intercalate (texts (f :: fs))                 (sql_foldl_and)
    joined b c = (operands b c).foldl Fragment.and .empty                      (joined_eq_foldl)
-/

namespace IndexQuery

/-! ## Algorithm -/

/-- The texts of fragments, those without text left out. -/
def Fragment.texts (fs : List Fragment) : List String := (fs.map Fragment.sql).filter (· != "")

namespace Statement

/-- The operands of the condition of a statement, in its order. -/
def operands (b : Select) (c : Clauses) : List Fragment :=
  b.conditions.map (fun d => d.toFragment.parenthesize) ++ c.fragments ++
    c.matching.queryText?.toList.map fun text => ⟨"MATCH(?)", [.string text]⟩

/-- The clause with a condition, unless there is none. -/
def whereClause (texts : List String) : String :=
  if texts = [] then "" else " WHERE " ++ " AND ".intercalate texts

end Statement

/-! ## Lemmas -/

namespace Fragment

theorem texts_cons_of_empty {f : Fragment} (h : f.sql = "") (fs : List Fragment) :
    texts (f :: fs) = texts fs := by
  simp [texts, h]

theorem texts_cons_of_ne {f : Fragment} (h : f.sql ≠ "") (fs : List Fragment) :
    texts (f :: fs) = f.sql :: texts fs := by
  simp [texts, h]

/-- Two texts with a separator between them are joined to more texts as one. -/
theorem intercalate_pair (separator s t : String) (ts : List String) :
    separator.intercalate ((s ++ separator ++ t) :: ts) = separator.intercalate (s :: t :: ts) := by
  cases ts with
  | nil =>
    rw [String.intercalate_cons_cons, String.intercalate_singleton, String.intercalate_singleton]
  | cons u us =>
    rw [String.intercalate_cons_cons, String.intercalate_cons_cons, String.intercalate_cons_cons]
    simp only [String.append_assoc]

theorem sql_foldl_and (f : Fragment) (fs : List Fragment) :
    (fs.foldl Fragment.and f).sql = " AND ".intercalate (texts (f :: fs)) := by
  induction fs generalizing f with
  | nil =>
    by_cases hf : f.sql = ""
    · rw [texts_cons_of_empty hf]
      exact hf
    · rw [texts_cons_of_ne hf]
      exact String.intercalate_singleton.symm
  | cons g fs ih =>
    rw [List.foldl_cons, ih]
    by_cases hf : f.sql = ""
    · have hand : (f.and g).sql = g.sql := if_pos hf
      rw [texts_cons_of_empty hf]
      simp only [texts, List.map_cons, hand]
    · by_cases hg : g.sql = ""
      · have hand : (f.and g).sql = f.sql := (if_neg hf).trans (if_pos hg)
        rw [texts_cons_of_ne hf, texts_cons_of_empty hg, texts_cons_of_ne (hand ▸ hf), hand]
      · have hand : (f.and g).sql = f.sql ++ " AND " ++ g.sql := (if_neg hf).trans (if_neg hg)
        have hne : (f.and g).sql ≠ "" := by simp [hand, hf]
        rw [texts_cons_of_ne hf, texts_cons_of_ne hg, texts_cons_of_ne hne, hand, intercalate_pair]

theorem params_foldl_and (f : Fragment) (fs : List Fragment) :
    (fs.foldl Fragment.and f).params = f.params ++ fs.flatMap Fragment.params := by
  induction fs generalizing f with
  | nil => exact (List.append_nil _).symm
  | cons g fs ih => rw [List.foldl_cons, ih, params_and, List.flatMap_cons, List.append_assoc]

/-- Texts that are not empty do not make the empty text. -/
theorem intercalate_texts_eq_empty_iff (fs : List Fragment) :
    " AND ".intercalate (texts fs) = "" ↔ texts fs = [] := by
  have hne : ∀ s ∈ texts fs, s ≠ "" := fun s hs => by simpa using (List.mem_filter.mp hs).2
  cases h : texts fs with
  | nil => exact ⟨fun _ => rfl, fun _ => rfl⟩
  | cons s ss =>
    have hs : s ≠ "" := hne s (h ▸ List.mem_cons_self)
    cases ss with
    | nil => simp [hs]
    | cons t ts => simp [String.intercalate_cons_cons, hs]

end Fragment

namespace Statement

variable (b : Select) (c : Clauses)

theorem joined_eq_foldl : joined b c = (operands b c).foldl Fragment.and .empty := by
  have hmatch : ∀ f : Fragment, f.and (matchFragment c.matching) =
      (c.matching.queryText?.toList.map fun text =>
        (⟨"MATCH(?)", [.string text]⟩ : Fragment)).foldl Fragment.and f := by
    intro f
    unfold matchFragment
    cases c.matching.queryText? with
    | none => exact f.and_empty
    | some text => rfl
  have hwhere : b.whereFragment =
      (b.conditions.map fun d => d.toFragment.parenthesize).foldl Fragment.and .empty := by
    unfold Select.whereFragment Fragment.conjunction
    rw [List.map_map]
    rfl
  unfold joined operands
  rw [hmatch, hwhere, List.foldl_append, List.foldl_append]

/-- The text around a condition made of the operands. -/
theorem text_joined : text b c (joined b c) =
    b.selectClause ++ whereClause (Fragment.texts (operands b c)) ++ trailing b.tailClause? ++
      trailing c.options.clause? := by
  have hsql : (joined b c).sql = " AND ".intercalate (Fragment.texts (operands b c)) := by
    rw [joined_eq_foldl, Fragment.sql_foldl_and, Fragment.texts_cons_of_empty rfl]
  have hempty := Fragment.intercalate_texts_eq_empty_iff (operands b c)
  rw [← hsql] at hempty
  unfold text whereClause Fragment.isEmpty
  rw [← hsql]
  by_cases h : (joined b c).sql = ""
  · rw [if_pos (beq_iff_eq.mpr h), if_pos (hempty.mp h)]
  · rw [if_neg (fun hb => h (beq_iff_eq.mp hb)), if_neg fun ht => h (hempty.mpr ht)]

theorem params_joined : (joined b c).params = (operands b c).flatMap Fragment.params := by
  rw [joined_eq_foldl, Fragment.params_foldl_and]
  rfl

end Statement

end IndexQuery
