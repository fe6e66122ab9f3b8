import IndexQuery.Proofs.Reading.Groups

/-!
# Flat and nested conjunctions

Lookups can be given as a list or as conjunctions that stand within one another.  From a list each
lookup goes to the part of the query that its form belongs to, comparisons to the base query and
fragments to the clauses; the conjunctions become one condition of the base query.  Both ways fail
for the same lookups with the same error, and lead to statements that say the same.

    f.Nests ls → (f.toCondition r m).map leaves = ls.mapM (lookupCondition r m)      (map_leaves)
    f.Nests ls → (f.formula i).prunedEval true v = (f.formula i).atoms.all v      (prunedEval_eq)
    f.Nests ls → i.updates (.filter ls) = (f.toCondition …).map fun c => c.leaves.map update
                                                                        (updates_filter_of_nests)
    (Filter.all fs).Nests ls → q.filter ls and q.filterBy (.all fs) fail alike or agree
                                                                         (filter_agrees_filterBy)
-/

namespace IndexQuery

open Text Outcome Token

/-- A filter joins lookups, in their order, by conjunctions that may stand within one another. -/
inductive Filter.Nests : Filter → List (String × Operand) → Prop where
  | lookup (key : String) (x : Operand) : Nests (.lookup key x) [(key, x)]
  | nil : Nests (.all []) []
  | cons {f : Filter} {fs : List Filter} {ls ms : List (String × Operand)} (h : Nests f ls)
    (hs : Nests (.all fs) ms) : Nests (.all (f :: fs)) (ls ++ ms)

/-! ## Algorithm -/

/-- The update with which a lookup adds its condition: a fragment goes to the clauses and a
comparison to the base query. -/
def Condition.update : Condition → Update
  | .raw f => .fragment f
  | c => .condition c

/-- The text of the statement of a query with the given text behind WHERE. -/
def Query.textWith (q : Query) (condition : String) : String :=
  q.base.selectClause ++ (if condition = "" then "" else " WHERE " ++ condition) ++
    Statement.trailing q.base.tailClause? ++ Statement.trailing q.clauses.options.clause?

/-! ## Conditions of nested lookups -/

namespace Filter

variable {f : Filter} {ls : List (String × Operand)}

theorem leaves_of_lookupCondition {r : Resolver} {marker key : String} {x : Operand}
    {c : Condition} (h : lookupCondition r marker key x = .ok c) : c.leaves = [c] := by
  obtain ⟨f, op, -, ⟨g, -, rfl⟩ | ⟨-, hc⟩⟩ := lookupCondition_eq_ok h
  · rw [Condition.leaves]
  · obtain ⟨ps, -, -, -, -, -, rfl⟩ := Predicate.ofLookup_eq_ok hc
    rw [Condition.leaves]

/-- The leaves of the condition of nested lookups are the conditions of the lookups, and it fails
with the error of the first lookup that fails. -/
theorem Nests.map_leaves (h : f.Nests ls) (r : Resolver) (marker : String) :
    (f.toCondition r marker).map Condition.leaves =
      ls.mapM fun l => lookupCondition r marker l.1 l.2 := by
  induction h with
  | lookup key x =>
    rw [toCondition, List.mapM_cons, List.mapM_nil]
    cases hc : lookupCondition r marker key x with
    | error e => rfl
    | ok c => exact congrArg Except.ok (leaves_of_lookupCondition hc)
  | nil =>
    rw [toCondition, toConditions, List.mapM_nil]
    exact congrArg Except.ok (Condition.leaves_all [])
  | @cons f fs ls ms _ _ ihf ihfs =>
    -- Both sides look at the members from the left, so the first error is the same.
    rw [toCondition] at ihfs
    rw [toCondition, toConditions, List.mapM_append, ← ihf, ← ihfs]
    cases f.toCondition r marker with
    | error e => rfl
    | ok c =>
      cases toConditions r marker fs with
      | error e => rfl
      | ok cs =>
        refine congrArg Except.ok ?_
        rw [Condition.leaves_all, Condition.leaves_all, List.flatMap_cons]

/-- Nested lookups hold, empty conjunctions being left out, if each of them holds. -/
theorem Nests.prunedEval_eq (h : f.Nests ls) (i : Index) (v : List Token → Bool) :
    (f.formula i).prunedEval true v = (f.formula i).atoms.all v := by
  induction h with
  | lookup key x => simp [formula, Formula.prunedEval, Formula.prune]
  | nil =>
    rw [formula, formulas]
    exact Formula.prunedEval_of_atoms_eq_nil (Formula.atoms_all []) true v
  | @cons f fs ls ms _ _ ihf ihfs =>
    rw [formula] at ihfs
    rw [formula, formulas]
    apply Formula.eq_of_eq_iff (c := true)
    have hrest := Formula.prunedEval_gather_eq_iff true (formulas i fs) v
    rw [Formula.gather, ihfs] at hrest
    have hgroup := Formula.prunedEval_gather_eq_iff true (formula i f :: formulas i fs) v
    rw [Formula.gather, List.forall_mem_cons, ← hrest, ihf] at hgroup
    rw [hgroup, Formula.atoms_all, Formula.atoms_all, List.flatMap_cons, List.all_append,
      Bool.and_eq_true]

end Filter

/-! ## Conditions one by one -/

namespace Condition

theorem searches_leaves (c : Condition) :
    (c.leaves.map update).flatMap Update.searches = [] := by
  rw [List.flatMap_map, List.flatMap_eq_nil_iff]
  intro l _
  cases l <;> rfl

/-- One by one the leaves of a condition add its comparisons. -/
theorem conjuncts_leaves (c : Condition) :
    (c.leaves.map update).flatMap Update.conjuncts = c.formula.atoms.map .atom := by
  have hlist : ∀ {cs : List Condition},
      (∀ c ∈ cs, (c.leaves.map update).flatMap Update.conjuncts = c.formula.atoms.map .atom) →
      ((cs.flatMap leaves).map update).flatMap Update.conjuncts =
        ((cs.map formula).flatMap Formula.atoms).map .atom := by
    intro cs ih
    rw [List.map_flatMap, List.flatMap_assoc, List.flatMap_map, List.map_flatMap]
    exact List.flatMap_congr ih
  induction c with
  | compare column op params => simp [leaves, update, Update.conjuncts, formula, Formula.prune]
  | raw f => simp [leaves, update, Update.conjuncts, formula]
  | all cs ih => rw [leaves_all, formula, formulas_eq_map, Formula.atoms_all, hlist ih]
  | any cs ih => rw [leaves_any, formula, formulas_eq_map, Formula.atoms_any, hlist ih]

end Condition

/-! ## Both ways to add lookups -/

namespace Index

variable {i : Index} {ls : List (String × Operand)}

/-- A lookup that is no search adds its condition. -/
theorem lookupUpdates_eq {l : String × Operand}
    (hs : ∀ f, i.resolver.resolve l.1 ≠ .ok (f, .search)) :
    i.lookupUpdates l =
      (Filter.lookupCondition i.resolver i.settings.marker l.1 l.2).map fun c => [c.update] := by
  unfold lookupUpdates Filter.lookupCondition
  cases hr : i.resolver.resolve l.1 with
  | error e => rfl
  | ok r =>
    obtain ⟨f, op⟩ := r
    have hop : op ≠ .search := fun h => hs f (h ▸ hr)
    show i.predicateUpdates ⟨f, op, l.2⟩ = Except.map _ (do
      Filter.nestedCondition ⟨f, op, l.2⟩ (← Predicate.form i.settings.marker ⟨f, op, l.2⟩))
    unfold predicateUpdates
    cases hform : Predicate.form i.settings.marker ⟨f, op, l.2⟩ with
    | error e => rfl
    | ok form =>
      rcases Predicate.form_eq_ok hform with ⟨hsearch, -⟩ | ⟨-, g, rfl, -⟩ | ⟨-, -, -, rfl⟩
      · -- The one form that a list accepts and a conjunction refuses.
        exact absurd hsearch hop
      · rfl
      · show (Condition.ofLookup f op l.2).map (fun c => [Update.condition c]) =
          (Condition.ofLookup f op l.2).map fun c => [c.update]
        cases hc : Condition.ofLookup f op l.2 with
        | error e => rfl
        | ok c =>
          obtain ⟨ps, -, -, -, -, -, rfl⟩ := Predicate.ofLookup_eq_ok hc
          rfl

/-- Lookups that are no searches add their conditions in order. -/
theorem collect_lookupUpdates (hs : ∀ l ∈ ls, ∀ f, i.resolver.resolve l.1 ≠ .ok (f, .search)) :
    collect i.lookupUpdates ls =
      (ls.mapM fun l => Filter.lookupCondition i.resolver i.settings.marker l.1 l.2).map
        (List.map Condition.update) := by
  induction ls with
  | nil => rfl
  | cons l ls ih =>
    obtain ⟨hl, hls⟩ := List.forall_mem_cons.mp hs
    rw [Query.collect_cons, lookupUpdates_eq hl, ih hls, List.mapM_cons]
    cases Filter.lookupCondition i.resolver i.settings.marker l.1 l.2 with
    | error e => rfl
    | ok c =>
      cases ls.mapM fun l => Filter.lookupCondition i.resolver i.settings.marker l.1 l.2 <;> rfl

/-- A list of lookups adds the leaves of the condition that any nesting of them adds. -/
theorem updates_filter_of_nests {f : Filter} (hn : f.Nests ls)
    (hs : ∀ l ∈ ls, ∀ f, i.resolver.resolve l.1 ≠ .ok (f, .search)) :
    i.updates (.filter ls) = (f.toCondition i.resolver i.settings.marker).map fun c =>
      c.leaves.map Condition.update := by
  show collect i.lookupUpdates ls = _
  rw [collect_lookupUpdates hs, ← hn.map_leaves]
  cases f.toCondition i.resolver i.settings.marker <;> rfl

/-! ## Statements -/

namespace Reaches

variable {us vs : List Update} {q q' : Query}

/-- If the updates of two queries add conditions that agree, and the same search terms, then the
conditions of the queries hold alike and have the same parameters up to order. -/
theorem conditions_agree (hi : i.Valid) (hr : i.Readable) (hu : i.Reaches us q)
    (hv : i.Reaches vs q')
    (hsearches : us.flatMap Update.searches = vs.flatMap Update.searches)
    (hconjuncts : (Formula.all (us.flatMap Update.conjuncts)).Agrees
      (.all (vs.flatMap Update.conjuncts))) :
    ((Statement.joined q.base q.clauses).sql = "" ↔
      (Statement.joined q'.base q'.clauses).sql = "") ∧
    (∀ v, Statement.holds (Statement.joined q.base q.clauses).sql
        (Statement.joined q.base q.clauses).params v =
      Statement.holds (Statement.joined q'.base q'.clauses).sql
        (Statement.joined q'.base q'.clauses).params v) ∧
    (Statement.joined q.base q.clauses).params.Perm
      (Statement.joined q'.base q'.clauses).params := by
  obtain ⟨hatoms, heval⟩ := hconjuncts
  rw [Formula.atoms_all, Formula.atoms_all] at hatoms
  have hu_perm := perm_statedConjuncts_updates us
  have hv_perm := perm_statedConjuncts_updates vs
  rw [hsearches] at hu_perm
  have hstated : ((statedConjuncts us).flatMap Formula.atoms).Perm
      ((statedConjuncts vs).flatMap Formula.atoms) := by
    have hu_atoms := hu_perm.flatMap_right Formula.atoms
    rw [List.flatMap_append, hatoms, ← List.flatMap_append] at hu_atoms
    exact hu_atoms.trans (hv_perm.flatMap_right Formula.atoms).symm
  refine ⟨?_, fun v => ?_, ?_⟩
  · rw [hu.sql_joined_eq_empty_iff hi hr, hv.sql_joined_eq_empty_iff hi hr]
    exact ⟨fun hnil => (hnil ▸ hstated).symm.eq_nil, fun hnil => (hnil ▸ hstated).eq_nil⟩
  · have hall := heval v
    rw [Formula.eval_all, Formula.eval_all] at hall
    rw [hu.holds_joined hi hr, hv.holds_joined hi hr, eval_all_perm hu_perm, eval_all_perm hv_perm,
      Formula.eval_all, Formula.eval_all, List.all_append, List.all_append, hall]
  · rw [hu.params_joined hi hr, hv.params_joined hi hr]
    exact hstated.flatMap_right params

end Reaches

/-- The condition of nested lookups agrees with those of the lookups. -/
theorem agrees_of_nests {f : Filter} (hn : f.Nests ls) {c : Condition}
    (hc : f.toCondition i.resolver i.settings.marker = .ok c) :
    (Formula.all ((c.leaves.map Condition.update).flatMap Update.conjuncts)).Agrees
      (.all c.formula.prune.toList) := by
  rw [c.conjuncts_leaves]
  constructor
  · rw [Formula.atoms_all, Formula.atoms_all, Formula.atoms_prune, List.flatMap_map]
    simp
  · intro v
    rw [Formula.eval_all_prune, Filter.formula_of_toCondition hc, hn.prunedEval_eq,
      Formula.eval_all, List.all_map]
    simp [Function.comp_def]

/-- The updates of one more call, behind those of calls that succeeded, reach what they decide. -/
theorem reaches_after (hi : i.Valid) {q₀ : Query} (hq₀ : i.query = .ok q₀) {cs : List Call}
    {us : List Update} (hus : collect i.updates cs = .ok us) {c : Call} {vs : List Update}
    (hvs : i.updates c = .ok vs) : i.Reaches (us ++ vs) ((q₀.updateAll us).updateAll vs) := by
  rw [← Query.updateAll_append]
  refine reaches_updateAll hi hq₀ fun u hu => ?_
  rcases List.mem_append.mp hu with hu | hu
  · exact from_of_collect hi hus u hu
  · exact from_of_updates hi hvs u hu

end Index

namespace Query

/-- One by one the leaves of a condition change nothing of a statement but its condition. -/
theorem textWith_leaves (q : Query) (c : Condition) :
    (q.updateAll (c.leaves.map Condition.update)).textWith = q.textWith := by
  generalize c.leaves = ls
  induction ls generalizing q with
  | nil => rfl
  | cons l ls ih =>
    refine (ih (q.update l.update)).trans ?_
    cases l <;> rfl

/-- The statement of a reachable query. -/
theorem compile_textWith {i : Index} (hi : i.Valid) {us : List Update} {q : Query}
    (h : i.Reaches us q) :
    q.compile = .ok ⟨q.textWith (Statement.joined q.base q.clauses).sql,
      (Statement.joined q.base q.clauses).params⟩ := by
  rw [h.compile_eq hi]
  unfold Statement.text textWith Fragment.isEmpty
  by_cases hsql : (Statement.joined q.base q.clauses).sql = ""
  · rw [if_pos hsql, if_pos (beq_iff_eq.mpr hsql)]
  · rw [if_neg hsql, if_neg fun hb => hsql (beq_iff_eq.mp hb)]

/-- After calls that succeed, the leaves of the condition of nested lookups, one by one, and the
condition itself lead to statements that agree. -/
theorem compile_of_nests {i : Index} (hi : i.Valid) (hr : i.Readable) {q₀ : Query}
    (hq₀ : i.query = .ok q₀) {cs : List Call} {us : List Update}
    (hus : collect i.updates cs = .ok us) {f : Filter} {ls : List (String × Operand)}
    (hn : f.Nests ls) {c : Condition}
    (hc : f.toCondition i.resolver i.settings.marker = .ok c)
    {d e : Call} (hd : i.updates d = .ok (c.leaves.map Condition.update))
    (he : i.updates e = .ok [.condition c]) :
    ∃ s₁ s₂ w₁ w₂, ((q₀.updateAll us).updateAll (c.leaves.map Condition.update)).compile = .ok s₁ ∧
      ((q₀.updateAll us).updateAll [.condition c]).compile = .ok s₂ ∧
      s₁.sql = (q₀.updateAll us).textWith w₁ ∧ s₂.sql = (q₀.updateAll us).textWith w₂ ∧
      (w₁ = "" ↔ w₂ = "") ∧
      (∀ v, Statement.holds w₁ s₁.params v = Statement.holds w₂ s₂.params v) ∧
      s₁.params.Perm s₂.params := by
  have hflat := Index.reaches_after hi hq₀ hus hd
  have hnested := Index.reaches_after hi hq₀ hus he
  have hsearches : (us ++ c.leaves.map Condition.update).flatMap Update.searches =
      (us ++ [Update.condition c]).flatMap Update.searches := by
    rw [List.flatMap_append, List.flatMap_append, c.searches_leaves]
    rfl
  have hconjuncts : (Formula.all
      ((us ++ c.leaves.map Condition.update).flatMap Update.conjuncts)).Agrees
      (.all ((us ++ [Update.condition c]).flatMap Update.conjuncts)) := by
    rw [List.flatMap_append, List.flatMap_append, List.flatMap_singleton]
    exact (Index.agrees_of_nests hn hc).all_append _
  obtain ⟨hempty, hholds, hparams⟩ :=
    hflat.conditions_agree hi hr hnested hsearches hconjuncts
  exact ⟨_, _, _, _, compile_textWith hi hflat, compile_textWith hi hnested,
    congrFun (textWith_leaves _ c) _, rfl, hempty, hholds, hparams⟩

/-- Lookups without a search can be given as a list or nested in conjunctions, on any query: both
calls fail with the same error, or both succeed.  On a query that calls have reached, the statements
then differ in their conditions only; these hold alike, one is absent if the other is, and they have
the same parameters up to order. -/
theorem filter_agrees_filterBy (q : Query) {fs : List Filter} {ls : List (String × Operand)}
    (hn : (Filter.all fs).Nests ls)
    (hs : ∀ l ∈ ls, ∀ f, q.index.resolver.resolve l.1 ≠ .ok (f, .search)) :
    (∃ e, q.filter ls = .error e ∧ q.filterBy (.all fs) = .error e) ∨
    ∃ q₁ q₂, q.filter ls = .ok q₁ ∧ q.filterBy (.all fs) = .ok q₂ ∧
      ∀ (i : Index) q₀ cs, i.Valid → i.Readable → i.query = .ok q₀ → q₀.applyAll cs = .ok q →
        ∃ s₁ s₂ w₁ w₂, q₁.compile = .ok s₁ ∧ q₂.compile = .ok s₂ ∧
          s₁.sql = q.textWith w₁ ∧ s₂.sql = q.textWith w₂ ∧ (w₁ = "" ↔ w₂ = "") ∧
          (∀ v, Statement.holds w₁ s₁.params v = Statement.holds w₂ s₂.params v) ∧
          s₁.params.Perm s₂.params := by
  have hflat : q.filter ls = (q.index.updates (.filter ls)).map q.updateAll :=
    q.apply_eq (.filter ls)
  have hnested : q.filterBy (.all fs) =
      (q.index.updates (.filterBy (.all fs))).map q.updateAll := q.apply_eq (.filterBy (.all fs))
  have hd := Index.updates_filter_of_nests hn hs
  have he : q.index.updates (.filterBy (.all fs)) =
      ((Filter.all fs).toCondition q.index.resolver q.index.settings.marker).map fun c =>
        [Update.condition c] := rfl
  cases hc : (Filter.all fs).toCondition q.index.resolver q.index.settings.marker with
  | error e =>
    rw [hc] at hd he
    rw [hd] at hflat
    rw [he] at hnested
    exact .inl ⟨e, hflat, hnested⟩
  | ok c =>
    rw [hc] at hd he
    rw [hd] at hflat
    rw [he] at hnested
    refine .inr ⟨_, _, hflat, hnested, fun i q₀ cs hi hr hq₀ hq => ?_⟩
    rw [applyAll_eq, Index.index_of_query hq₀] at hq
    obtain ⟨us, hus, rfl⟩ := map_eq_ok.mp hq
    rw [index_updateAll, Index.index_of_query hq₀] at hd he hc
    exact compile_of_nests hi hr hq₀ hus hn hc hd he

end Query

namespace Index

/-- Lookups of all kinds of fields, some of which become fragments. -/
def flatLookups : List (String × Operand) :=
  [("price__gte", .scalar (.int 3)), ("tags", .scalar (.int 7)),
    ("title__notequal", .scalar (.text "it's")), ("id__in", .sequence [.int 1, .int 2])]

/-- The same lookups in conjunctions within conjunctions, one of them without members. -/
def nestedLookups : List Filter :=
  [.all [.lookup "price__gte" (.scalar (.int 3)), .all []],
    .all [.all [.lookup "tags" (.scalar (.int 7)),
      .lookup "title__notequal" (.scalar (.text "it's"))]],
    .lookup "id__in" (.sequence [.int 1, .int 2])]

theorem nests_nestedLookups : (Filter.all nestedLookups).Nests flatLookups :=
  .cons (.cons (.lookup _ _) (.cons .nil .nil))
    (.cons (.cons (.cons (.lookup _ _) (.cons (.lookup _ _) .nil)) .nil)
      (.cons (.lookup _ _) .nil))

theorem products_nested : ∃ q₀ q, products.query = .ok q₀ ∧ q₀.applyAll productsCalls = .ok q ∧
    (∀ l ∈ flatLookups, ∀ f, q.index.resolver.resolve l.1 ≠ .ok (f, .search)) ∧
    ∃ q₁ q₂ s₁ s₂ w₁ w₂, q.filter flatLookups = .ok q₁ ∧
      q.filterBy (.all nestedLookups) = .ok q₂ ∧ q₁.compile = .ok s₁ ∧ q₂.compile = .ok s₂ ∧
      s₁.sql = q.textWith w₁ ∧ s₂.sql = q.textWith w₂ ∧
      (∀ v, Statement.holds w₁ s₁.params v = Statement.holds w₂ s₂.params v) ∧
      s₁.params.Perm s₂.params := by
  obtain ⟨o, ho, hquery⟩ := query_eq_ok products_valid
  cases ho
  generalize hq₀ : (⟨products, _, _, _, _⟩ : Query) = q₀ at hquery
  obtain ⟨q, hq, hindex, q', hfilter⟩ : ∃ q, q₀.applyAll productsCalls = .ok q ∧
      q.index = products ∧ ∃ q', q.filter flatLookups = .ok q' := by
    subst hq₀
    exact ⟨_, rfl, rfl, _, rfl⟩
  have hoperators : ∀ l ∈ flatLookups,
      (products.resolver.resolve l.1).toOption.map Prod.snd ≠ some .search := by decide
  have hsearch : ∀ l ∈ flatLookups, ∀ f, q.index.resolver.resolve l.1 ≠ .ok (f, .search) := by
    intro l hl f h
    rw [hindex] at h
    exact hoperators l hl (by rw [h]; rfl)
  refine ⟨q₀, q, hquery, hq, hsearch, ?_⟩
  rcases q.filter_agrees_filterBy nests_nestedLookups hsearch with ⟨e, h, -⟩ |
    ⟨q₁, q₂, h₁, h₂, hagree⟩
  · rw [h] at hfilter
    cases hfilter
  · obtain ⟨s₁, s₂, w₁, w₂, hs₁, hs₂, hw₁, hw₂, -, hholds, hparams⟩ :=
      hagree products q₀ productsCalls products_valid products_readable hquery hq
    exact ⟨q₁, q₂, s₁, s₂, w₁, w₂, h₁, h₂, hs₁, hs₂, hw₁, hw₂, hholds, hparams⟩

end Index

end IndexQuery
