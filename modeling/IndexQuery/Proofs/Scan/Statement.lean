import IndexQuery.Proofs.Scan.Clauses
import IndexQuery.Proofs.Scan.Condition

/-!
# Scans of statements

Every query that calls can reach from the query of a valid index compiles, and a reader of the whole
statement ends outside every literal, having found one placeholder for each parameter.

    condition b c = .ok (joined …)    if the fragments are balanced         (condition_eq_joined)
    i.query.applyAll cs = .ok q → ∃ s, q.compile = .ok s ∧
      Scans s.sql.toList s.params.length                               (scans_of_applyAll)
-/

namespace IndexQuery

open Text Outcome

/-! ## The condition -/

namespace Statement

/-- The whole condition of a query, no fragment being refused. -/
def joined (b : Select) (c : Clauses) : Fragment :=
  (c.fragments.foldl Fragment.and b.whereFragment).and (matchFragment c.matching)

theorem join_of_matched {f : Fragment} (h : f.Matched) (condition : Fragment) :
    join condition f = .ok (condition.and f) := by
  unfold join
  rw [Fragment.validate_of_matched h]
  rfl

theorem foldlM_join {fs : List Fragment} (h : ∀ f ∈ fs, f.Matched) (condition : Fragment) :
    fs.foldlM join condition = .ok (fs.foldl Fragment.and condition) := by
  induction fs generalizing condition with
  | nil => rfl
  | cons f fs ih =>
    rw [List.foldlM_cons, join_of_matched (h f List.mem_cons_self)]
    exact ih (fun g hg => h g (List.mem_cons_of_mem f hg)) (condition.and f)

theorem condition_of_matched {b : Select} {c : Clauses} (hb : b.whereFragment.Matched)
    (hc : ∀ f ∈ c.fragments, f.Matched) : condition b c = .ok (joined b c) := by
  unfold condition
  rw [Fragment.validate_of_matched hb, foldlM_join hc]
  rfl

theorem condition_eq_joined {b : Select} {c : Clauses} (hb : b.whereFragment.Balanced)
    (hc : ∀ f ∈ c.fragments, f.Balanced) : condition b c = .ok (joined b c) :=
  condition_of_matched hb.matched fun f hf => (hc f hf).matched

theorem balanced_matchFragment (e : MatchExpr) : (matchFragment e).Balanced := by
  unfold matchFragment
  split
  · exact Fragment.Balanced.empty
  · show Scans "MATCH(?)".toList 1
    decide

theorem balanced_joined {b : Select} {c : Clauses} (hb : b.whereFragment.Balanced)
    (hc : ∀ f ∈ c.fragments, f.Balanced) : (joined b c).Balanced :=
  (Fragment.KeptByJoining.foldl Fragment.Balanced.and hc hb).and (balanced_matchFragment c.matching)

theorem scans_text {b : Select} {c : Clauses} {f : Fragment}
    (hselect : Scans b.selectClause.toList 0) (hf : f.Balanced)
    (htail : Scans (trailing b.tailClause?).toList 0)
    (hoptions : Scans (trailing c.options.clause?).toList 0) :
    Scans (text b c f).toList f.params.length := by
  have hword : Scans " WHERE ".toList 0 := by decide
  have hwhere : Scans (if f.isEmpty then "" else " WHERE " ++ f.sql).toList f.params.length := by
    split
    · next h =>
      rw [hf.params_eq_nil (by simpa [Fragment.isEmpty] using h)]
      exact Scans.nil
    · exact hword.zero_concat hf
  exact ((hselect.zero_concat hwhere).concat htail).concat hoptions

end Statement

/-! ## Reachable queries -/

/-- Options that are set one after another are each one that was there or one that was checked. -/
theorem OptionSet.mem_entries_setAll {o o' : OptionSet} {os : List (String × OptionValue)}
    (h : o.setAll os = .ok o') {e : String × OptionValue} (he : e ∈ o'.entries) :
    e ∈ o.entries ∨ (e ∈ os ∧ check e.1 e.2 = .ok ()) := by
  unfold setAll at h
  induction os generalizing o with
  | nil =>
    cases h
    exact .inl he
  | cons d os ih =>
    obtain ⟨o₁, ho₁, h⟩ := bind_eq_ok.mp h
    obtain ⟨⟨⟩, hcheck, rfl⟩ := map_eq_ok.mp ho₁
    rcases ih h with hput | ⟨hmem, hchecked⟩
    · rcases mem_put hput with rfl | hput
      · exact .inr ⟨List.mem_cons_self, hcheck⟩
      · exact .inl hput
    · exact .inr ⟨List.mem_cons_of_mem d hmem, hchecked⟩

namespace Index

variable {i : Index}

/-- The query of a valid index asks for all columns of its schema and has its options. -/
theorem query_eq_ok (hi : i.Valid) : ∃ o, i.settings.optionSet = .ok o ∧
    i.query = .ok ⟨i, (Select.new i.schema.index i.schema.resultColumns).withLimits 0
      i.settings.defaultLimit, .ofOptions o, 0, i.settings.defaultLimit⟩ := by
  obtain ⟨-, -, -, -, o, ho⟩ := Settings.validate_eq_ok hi.validate
  refine ⟨o, ho, ?_⟩
  unfold query queryWith
  rw [ho]
  rfl

/-- The parts of a query that are decided by the updates of its calls. -/
structure Reaches (i : Index) (us : List Update) (q : Query) : Prop where
  origin : ∀ u ∈ us, u.From i
  index : q.base.index = i.schema.index
  columns : q.base.columns = i.schema.resultColumns
  conditions : q.base.conditions = us.filterMap Update.condition?
  fragments : q.clauses.fragments = us.filterMap Update.fragment?
  matching : q.clauses.matching =
    (us.filterMap Update.terms?).foldl (fun e t => e.add t.1 t.2) .empty
  orderBy : q.base.orderBy = [] ∨ .order q.base.orderBy ∈ us
  options : ∀ o ∈ q.clauses.options.entries, OptionSet.check o.1 o.2 = .ok ()

/-- Updates that come from calls reach what they decide. -/
theorem reaches_updateAll (hi : i.Valid) {q₀ : Query} (hq₀ : i.query = .ok q₀)
    {us : List Update} (hus : ∀ u ∈ us, u.From i) : i.Reaches us (q₀.updateAll us) := by
  obtain ⟨o, ho, hquery⟩ := query_eq_ok hi
  rw [hquery] at hq₀
  cases hq₀
  refine ⟨hus, (Query.columns_updateAll _ us).1, (Query.columns_updateAll _ us).2,
    Query.conditions_updateAll _ us, Query.fragments_updateAll _ us,
    Query.matching_updateAll _ us, Query.orderBy_updateAll _ us, fun e he => ?_⟩
  rcases Query.mem_entries_updateAll he with he | he
  · exact ((OptionSet.mem_entries_setAll ho he).resolve_left List.not_mem_nil).2
  · exact hus _ he

/-- The query of an index is a query on that index. -/
theorem index_of_query {q : Query} (hq : i.query = .ok q) : q.index = i := by
  obtain ⟨o, -, h⟩ := bind_eq_ok.mp hq
  cases h
  rfl

/-- Calls that succeed reach what their updates decide. -/
theorem reaches_of_applyAll (hi : i.Valid) {q₀ q : Query} (hq₀ : i.query = .ok q₀)
    {cs : List Call} (hq : q₀.applyAll cs = .ok q) :
    ∃ us, collect i.updates cs = .ok us ∧ i.Reaches us q := by
  rw [Query.applyAll_eq, index_of_query hq₀] at hq
  obtain ⟨us, hus, rfl⟩ := map_eq_ok.mp hq
  exact ⟨us, hus, reaches_updateAll hi hq₀ (from_of_collect hi hus)⟩

namespace Reaches

variable {us : List Update} {q : Query}

theorem balanced_whereFragment (hi : i.Valid) (h : i.Reaches us q) :
    q.base.whereFragment.Balanced := by
  apply Fragment.keptByJoining_balanced.conjunction
  intro f hf
  rw [h.conditions] at hf
  obtain ⟨c, hc, rfl⟩ := List.mem_map.mp hf
  obtain ⟨u, hu, huc⟩ := List.mem_filterMap.mp hc
  have hfrom := h.origin u hu
  cases u with
  | condition c' =>
    cases huc
    exact Fragment.keptByJoining_balanced.of_leaves c fun l hl =>
      balanced_of_compares hi (hfrom l hl)
  | _ => cases huc

theorem balanced_fragments (hi : i.Valid) (h : i.Reaches us q) :
    ∀ f ∈ q.clauses.fragments, f.Balanced := by
  intro f hf
  rw [h.fragments] at hf
  obtain ⟨u, hu, huf⟩ := List.mem_filterMap.mp hf
  have hfrom := h.origin u hu
  cases u with
  | fragment g =>
    cases huf
    exact balanced_of_compares hi hfrom
  | _ => cases huf

theorem compile_eq (hi : i.Valid) (h : i.Reaches us q) :
    q.compile = .ok ⟨Statement.text q.base q.clauses (Statement.joined q.base q.clauses),
      (Statement.joined q.base q.clauses).params⟩ := by
  unfold Query.compile Statement.compile
  rw [Statement.condition_eq_joined (h.balanced_whereFragment hi) (h.balanced_fragments hi)]
  rfl

theorem scans_selectClause (hi : i.Valid) (h : i.Reaches us q) :
    Scans q.base.selectClause.toList 0 := by
  have hs := hi.sound
  apply Select.scans_selectClause (h.index ▸ hs.index)
  intro c hc
  rw [h.columns] at hc
  obtain ⟨f, hf, rfl⟩ := List.mem_map.mp hc
  exact hs.column f (List.mem_filter.mp hf).1

theorem isIdentifier_orderBy (hi : i.Valid) (h : i.Reaches us q) :
    ∀ t ∈ q.base.orderBy, isIdentifier t.column = true := by
  intro t ht
  rcases h.orderBy with horder | horder
  · rw [horder] at ht
    cases ht
  · obtain ⟨f, hf, hcolumn⟩ := h.origin _ horder t ht
    rw [hcolumn]
    exact hi.sound.column f hf

theorem scans_text (hi : i.Valid) (h : i.Reaches us q) :
    Scans (Statement.text q.base q.clauses (Statement.joined q.base q.clauses)).toList
      (Statement.joined q.base q.clauses).params.length :=
  Statement.scans_text (h.scans_selectClause hi)
    (Statement.balanced_joined (h.balanced_whereFragment hi) (h.balanced_fragments hi))
    (Statement.scans_trailing (Select.scans_tailClause (h.isIdentifier_orderBy hi)))
    (Statement.scans_trailing (OptionSet.scans_clause h.options))

end Reaches

/-- The query of a valid index exists, and after any calls that succeed it compiles to a statement
with one placeholder outside literals for each parameter and no literal left open. -/
theorem scans_of_applyAll (hi : i.Valid) :
    ∃ q₀, i.query = .ok q₀ ∧ ∀ cs q, q₀.applyAll cs = .ok q →
      ∃ s, q.compile = .ok s ∧ Scans s.sql.toList s.params.length := by
  obtain ⟨o, -, hquery⟩ := query_eq_ok hi
  refine ⟨_, hquery, fun cs q hq => ?_⟩
  obtain ⟨us, -, h⟩ := reaches_of_applyAll hi hquery hq
  exact ⟨_, h.compile_eq hi, h.scans_text hi⟩

/-- Calls for a group, a marked column, search terms, an option to quote, an order and a limit. -/
def productsCalls : List Call :=
  [.filterBy (.any [.lookup "price__gt" (.scalar (.int 3)),
      .all [.lookup "tags__in" (.sequence [.int 1, .int 2]), .lookup "id" (.scalar (.int 7)),
        .any []]]),
    .notEqual [("title", .scalar (.text "it's"))], .matchField "title" ["it's", "?"],
    .options [("ranker", .string "expr('sum(a?)') \\")], .orderBy ["-price"], .take 5]

theorem products_scans : ∃ q₀ q s, products.query = .ok q₀ ∧
    q₀.applyAll productsCalls = .ok q ∧ q.compile = .ok s ∧
    Scans s.sql.toList s.params.length := by
  obtain ⟨q₀, hq₀, hrun⟩ := scans_of_applyAll products_valid
  have hq := hrun productsCalls
  cases hq₀
  obtain ⟨s, hs, hscan⟩ := hq _ rfl
  exact ⟨_, _, s, rfl, rfl, hs, hscan⟩

end Index

end IndexQuery
