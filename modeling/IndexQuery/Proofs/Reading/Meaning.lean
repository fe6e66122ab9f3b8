import IndexQuery.Proofs.Accumulation
import IndexQuery.Proofs.Reading.Condition

/-!
# What calls mean

Each call adds conditions on the rows: a comparison for each flat lookup, and a tree of comparisons
for a filter.  Search terms of all calls together are one more condition.  `Index.meaning` is their
conjunction, said from the calls alone; the updates that calls make hold exactly these conditions.

    c.formula = f.formula i    if f.toCondition gives c                 (formula_of_toCondition)
    i.updates c = .ok us → Adds us (i.conjuncts c) (i.searches c)                 (adds_updates)
-/

namespace IndexQuery

open Text Outcome Token

/-! ## Algorithm -/

/-- The comparison that a predicate is, unless it is a search. -/
def Predicate.comparison? (marker : String) (p : Predicate) : Option (List Token) :=
  match p.field.bindAll p.operand.values with
  | .error _ => none
  | .ok ps =>
    (comparisonText? marker p.field p.operator ps.length).map fun sql =>
      (⟨sql, ps⟩ : Fragment).bound

namespace Index

/-- The comparison that a resolved lookup is. -/
def comparison? (i : Index) (r : Except Error (Field × Operator)) (x : Operand) :
    Option (List Token) :=
  match r with
  | .error _ => none
  | .ok (f, op) => Predicate.comparison? i.settings.marker ⟨f, op, x⟩

/-- The condition of a flat lookup. -/
def conjunct (i : Index) (r : Except Error (Field × Operator)) (x : Operand) :
    List (Formula (List Token)) :=
  (i.comparison? r x).toList.map .atom

/-- The search that a resolved lookup is. -/
def search (r : Except Error (Field × Operator)) (x : Operand) :
    List (MatchScope × List String) :=
  match r with
  | .ok (f, .search) =>
    match Predicate.matchTerms f x with
    | .ok ts => [(.column f.storageColumn, ts)]
    | .error _ => []
  | _ => []

/-- The search for terms in a field. -/
def fieldSearch (i : Index) (b : String × List String) : List (MatchScope × List String) :=
  match i.resolver.resolveField b.1 with
  | .ok f => [(.column f.storageColumn, b.2)]
  | .error _ => []

end Index

namespace Filter

mutual

/-- The tree of comparisons that a filter is. -/
def formula (i : Index) : Filter → Formula (List Token)
  | .lookup key x => .atom ((i.comparison? (i.resolver.resolve key) x).getD [])
  | .all fs => .all (formulas i fs)
  | .any fs => .any (formulas i fs)

/-- The trees of the filters of a list. -/
def formulas (i : Index) : List Filter → List (Formula (List Token))
  | [] => []
  | f :: fs => formula i f :: formulas i fs

end

end Filter

namespace Index

/-- The conditions that a call adds; of a tree, the groups without a lookup are left out. -/
def conjuncts (i : Index) : Call → List (Formula (List Token))
  | .filter ls => ls.flatMap fun l => i.conjunct (i.resolver.resolve l.1) l.2
  | .exclude ls => ls.flatMap fun l => i.conjunct (i.resolver.resolveNegated l.1) l.2
  | .notEqual ls => ls.flatMap fun l =>
    i.conjunct ((i.resolver.resolvePlain l.1).map fun f => (f, .notEqual)) l.2
  | .filterBy (.lookup key x) => i.conjunct (i.resolver.resolve key) x
  | .filterBy group => (group.formula i).prune.toList
  | .excludeBy fs => (fs.filterMap Filter.lookup?).flatMap fun l =>
    i.conjunct (i.resolver.resolveNegated l.1) l.2
  | .matchText _ | .matchField _ _ | .matchAll _ _ | .options _ | .orderBy _ | .take _
  | .skip _ => []

/-- The search terms that a call adds. -/
def searches (i : Index) : Call → List (MatchScope × List String)
  | .filter ls => ls.flatMap fun l => search (i.resolver.resolve l.1) l.2
  | .filterBy (.lookup key x) => search (i.resolver.resolve key) x
  | .matchText ts => [(.anywhere, ts)]
  | .matchField field ts => i.fieldSearch (field, ts)
  | .matchAll free byField => (.anywhere, free) :: byField.flatMap i.fieldSearch
  | .filterBy (.all _) | .filterBy (.any _) | .exclude _ | .notEqual _ | .excludeBy _
  | .options _ | .orderBy _ | .take _ | .skip _ => []

end Index

/-- The condition that search terms are, if one of them is not empty. -/
def matchConjunct (bs : List (MatchScope × List String)) : Option (Formula (List Token)) :=
  if ∃ b ∈ bs, ∃ t ∈ b.2, t ≠ "" then
    some (.atom [.word "MATCH".toList, .opening,
      .value (.string ((MatchExpr.ofSearches bs).queryText?.getD "")), .closing])
  else none

/-- The conjunction of the conditions of all calls. -/
def Index.meaning (i : Index) (cs : List Call) : Formula (List Token) :=
  .all (cs.flatMap i.conjuncts ++ (matchConjunct (cs.flatMap i.searches)).toList)

namespace Update

/-- The condition that an update adds. -/
def conjuncts : Update → List (Formula (List Token))
  | .condition c => c.formula.prune.toList
  | .fragment f => [.atom f.bound]
  | _ => []

/-- The search terms that an update adds. -/
def searches (u : Update) : List (MatchScope × List String) := u.terms?.toList

end Update

theorem Update.flatMap_searches (us : List Update) :
    us.flatMap searches = us.filterMap terms? := by
  induction us with
  | nil => rfl
  | cons u us ih => rw [List.flatMap_cons, ih, Fragment.filterMap_cons_toList, searches]

/-! ## Lookups -/

theorem Predicate.States.comparison?_eq {marker : String} {p : Predicate} {g : Fragment}
    (h : p.States marker g) : p.comparison? marker = some g.bound := by
  unfold Predicate.comparison?
  rw [h.bound]
  dsimp only
  rw [h.text]
  rfl

theorem Predicate.comparison?_search (marker : String) (f : Field) (x : Operand) :
    comparison? marker ⟨f, .search, x⟩ = none := by
  unfold comparison?
  split
  · rfl
  · unfold comparisonText?
    split <;> rfl

namespace Index

variable {i : Index}

theorem search_of_ne {op : Operator} (h : op ≠ .search) (f : Field) (x : Operand) :
    search (.ok (f, op)) x = [] := by
  cases op with
  | search => exact absurd rfl h
  | _ => rfl

theorem formula_of_ofLookup {f : Field} {op : Operator} {x : Operand}
    (hm : f.isMultiValue = false) {c : Condition} (h : Condition.ofLookup f op x = .ok c) :
    ∃ ts, i.comparison? (.ok (f, op)) x = some ts ∧ c.formula = .atom ts := by
  have hstates : Predicate.States i.settings.marker ⟨f, op, x⟩ c.toFragment :=
    Predicate.states_of_ofLookup hm h
  obtain ⟨ps, -, -, -, -, -, rfl⟩ := Predicate.ofLookup_eq_ok h
  exact ⟨_, hstates.comparison?_eq, by rw [Condition.formula]⟩

/-- Updates add the given conditions and search terms. -/
structure Adds (us : List Update) (φs : List (Formula (List Token)))
    (bs : List (MatchScope × List String)) : Prop where
  conjuncts : us.flatMap Update.conjuncts = φs
  searches : us.flatMap Update.searches = bs

theorem Adds.append {us vs : List Update} {φs ψs : List (Formula (List Token))}
    {bs ds : List (MatchScope × List String)} (hu : Adds us φs bs) (hv : Adds vs ψs ds) :
    Adds (us ++ vs) (φs ++ ψs) (bs ++ ds) :=
  ⟨by rw [List.flatMap_append, hu.conjuncts, hv.conjuncts],
    by rw [List.flatMap_append, hu.searches, hv.searches]⟩

/-- What the members of a list add one after another. -/
theorem adds_collect {α : Type} {changes : α → Except Error (List Update)}
    {φs : α → List (Formula (List Token))} {bs : α → List (MatchScope × List String)}
    (h : ∀ {a us}, changes a = .ok us → Adds us (φs a) (bs a)) {l : List α} {us : List Update}
    (hus : collect changes l = .ok us) : Adds us (l.flatMap φs) (l.flatMap bs) := by
  induction l generalizing us with
  | nil =>
    cases hus
    exact ⟨rfl, rfl⟩
  | cons a l ih =>
    rw [Query.collect_cons] at hus
    obtain ⟨vs, hvs, hus⟩ := bind_eq_ok.mp hus
    obtain ⟨ws, hws, hus⟩ := bind_eq_ok.mp hus
    cases hus
    rw [List.flatMap_cons, List.flatMap_cons]
    exact (h hvs).append (ih hws)

/-- A predicate adds its comparison, or its search terms. -/
theorem adds_predicateUpdates {f : Field} {op : Operator} {x : Operand} {us : List Update}
    (h : i.predicateUpdates ⟨f, op, x⟩ = .ok us) :
    Adds us (i.conjunct (.ok (f, op)) x) (search (.ok (f, op)) x) := by
  obtain ⟨form, hform, h⟩ := bind_eq_ok.mp h
  rcases Predicate.form_eq_ok hform with ⟨rfl, ts, hts, rfl⟩ | ⟨hop, g, rfl, hg⟩ |
    ⟨hop, -, hm, rfl⟩
  · cases h
    have hnone := Predicate.comparison?_search i.settings.marker f x
    dsimp only at hts
    constructor
    · simp [conjunct, comparison?, hnone, Update.conjuncts]
    · simp [search, hts, Update.searches, Update.terms?]
  · cases h
    have hcomparison : i.comparison? (.ok (f, op)) x = some g.bound := hg.comparison?_eq
    constructor
    · simp [conjunct, hcomparison, Update.conjuncts]
    · simp [search_of_ne hop, Update.searches, Update.terms?]
  · obtain ⟨c, hc, rfl⟩ := map_eq_ok.mp h
    obtain ⟨ts, hts, hformula⟩ := formula_of_ofLookup hm hc (i := i)
    constructor
    · simp [conjunct, hts, Update.conjuncts, hformula, Formula.prune]
    · simp [search_of_ne hop, Update.searches, Update.terms?]

theorem adds_lookupUpdates {l : String × Operand} {us : List Update}
    (h : i.lookupUpdates l = .ok us) :
    Adds us (i.conjunct (i.resolver.resolve l.1) l.2) (search (i.resolver.resolve l.1) l.2) := by
  obtain ⟨⟨f, op⟩, hr, h⟩ := bind_eq_ok.mp h
  rw [hr]
  exact adds_predicateUpdates h

/-- No complement is a search. -/
theorem ne_search_of_resolveNegated {r : Resolver} {key : String} {f : Field} {op : Operator}
    (h : r.resolveNegated key = .ok (f, op)) : op ≠ .search := by
  obtain ⟨k, -, h⟩ := bind_eq_ok.mp h
  obtain ⟨o, ho, h⟩ := bind_eq_ok.mp h
  obtain ⟨g, -, h⟩ := bind_eq_ok.mp h
  cases h
  unfold Resolver.negatedOperator at ho
  split at ho
  · cases ho
    decide
  · split at ho
    · next hinverse =>
      cases ho
      obtain ⟨o', -, ho'⟩ := Option.bind_eq_some_iff.mp hinverse
      rintro rfl
      cases o' <;> cases ho'
    · cases ho

theorem adds_exclusionUpdates {l : String × Operand} {us : List Update}
    (h : i.exclusionUpdates l = .ok us) :
    Adds us (i.conjunct (i.resolver.resolveNegated l.1) l.2) [] := by
  obtain ⟨⟨f, op⟩, hr, h⟩ := bind_eq_ok.mp h
  obtain ⟨vs, hvs, h⟩ := bind_eq_ok.mp h
  cases h
  have hnegation : Adds [.negation] [] [] := ⟨rfl, rfl⟩
  have hadds := (adds_predicateUpdates hvs).append hnegation
  rw [search_of_ne (ne_search_of_resolveNegated hr), List.append_nil] at hadds
  rw [hr]
  exact hadds

theorem adds_inequalityUpdates {l : String × Operand} {us : List Update}
    (h : i.inequalityUpdates l = .ok us) :
    Adds us (i.conjunct ((i.resolver.resolvePlain l.1).map fun f => (f, .notEqual)) l.2) [] := by
  obtain ⟨f, hr, h⟩ := bind_eq_ok.mp h
  rw [hr]
  exact adds_predicateUpdates h

end Index

/-! ## Filters -/

namespace Filter

variable {i : Index}

theorem formulas_eq_map (fs : List Filter) : formulas i fs = fs.map (formula i) := by
  induction fs with
  | nil => rfl
  | cons f fs ih => rw [formulas, ih, List.map_cons]

theorem formula_of_lookupCondition {key : String} {x : Operand} {c : Condition}
    (h : lookupCondition i.resolver i.settings.marker key x = .ok c) :
    c.formula = (lookup key x).formula i := by
  obtain ⟨f, op, hr, ⟨g, hform, rfl⟩ | ⟨hform, hc⟩⟩ := lookupCondition_eq_ok h
  · have hcomparison : i.comparison? (.ok (f, op)) x = some g.bound :=
      (Predicate.states_of_form hform).comparison?_eq
    rw [Condition.formula, formula, hr, hcomparison]
    rfl
  · obtain ⟨-, -, -, hm⟩ := Predicate.eq_of_form_comparison hform
    obtain ⟨ts, hts, hformula⟩ := Index.formula_of_ofLookup hm hc (i := i)
    rw [hformula, formula, hr, hts]
    rfl

/-- The condition of a filter stands for the tree of its comparisons. -/
theorem formula_of_toCondition {f : Filter} {c : Condition}
    (h : f.toCondition i.resolver i.settings.marker = .ok c) : c.formula = f.formula i := by
  have hlist : ∀ {fs : List Filter} {cs : List Condition},
      (∀ f ∈ fs, ∀ {c}, f.toCondition i.resolver i.settings.marker = .ok c →
        c.formula = f.formula i) →
      fs.mapM (toCondition i.resolver i.settings.marker) = .ok cs →
      cs.map Condition.formula = fs.map (formula i) := by
    intro fs cs ih hcs
    induction fs generalizing cs with
    | nil =>
      cases hcs
      rfl
    | cons f fs ihfs =>
      obtain ⟨c, cs, hc, hrest, rfl⟩ := mapM_cons_eq_ok.mp hcs
      rw [List.map_cons, List.map_cons, ih f List.mem_cons_self hc,
        ihfs (fun g hg => ih g (List.mem_cons_of_mem f hg)) hrest]
  induction f generalizing c with
  | lookup key x => exact formula_of_lookupCondition h
  | all fs ih =>
    obtain ⟨cs, hcs, rfl⟩ := toCondition_all_eq_ok h
    rw [Condition.formula, formula, Condition.formulas_eq_map, formulas_eq_map, hlist ih hcs]
  | any fs ih =>
    obtain ⟨cs, hcs, rfl⟩ := toCondition_any_eq_ok h
    rw [Condition.formula, formula, Condition.formulas_eq_map, formulas_eq_map, hlist ih hcs]

end Filter

namespace Index

variable {i : Index}

theorem adds_filterUpdates {f : Filter} {us : List Update} (h : i.filterUpdates f = .ok us) :
    Adds us (i.conjuncts (.filterBy f)) (i.searches (.filterBy f)) := by
  have hgroup : ∀ group : Filter,
      ((group.toCondition i.resolver i.settings.marker).map fun c => [Update.condition c]) =
        .ok us → Adds us (group.formula i).prune.toList [] := by
    intro group h
    obtain ⟨c, hc, rfl⟩ := map_eq_ok.mp h
    rw [← Filter.formula_of_toCondition hc]
    exact ⟨List.append_nil _, rfl⟩
  cases f with
  | lookup key x => exact adds_lookupUpdates (l := (key, x)) h
  | all fs =>
    rw [conjuncts, searches]
    · exact hgroup (.all fs) h
    · exact fun _ _ h => Filter.noConfusion h
  | any fs =>
    rw [conjuncts, searches]
    · exact hgroup (.any fs) h
    · exact fun _ _ h => Filter.noConfusion h

/-! ## Calls -/

theorem adds_fieldTerms {b : String × List String} {u : Update} (h : i.fieldTerms b = .ok u) :
    Adds [u] [] (i.fieldSearch b) := by
  obtain ⟨f, hf, h⟩ := bind_eq_ok.mp h
  cases h
  unfold fieldSearch
  rw [hf]
  exact ⟨rfl, rfl⟩

theorem adds_allFieldTerms {byField : List (String × List String)} {us : List Update}
    (h : byField.mapM i.fieldTerms = .ok us) : Adds us [] (byField.flatMap i.fieldSearch) := by
  induction byField generalizing us with
  | nil =>
    cases h
    exact ⟨rfl, rfl⟩
  | cons b byField ih =>
    obtain ⟨u, us, hu, hus, rfl⟩ := mapM_cons_eq_ok.mp h
    exact (adds_fieldTerms hu).append (ih hus)

/-- Options add no condition and no search terms. -/
theorem adds_options {os : List (String × OptionValue)} {us : List Update}
    (h : os.mapM optionUpdate = .ok us) : Adds us [] [] := by
  induction os generalizing us with
  | nil =>
    cases h
    exact ⟨rfl, rfl⟩
  | cons o os ih =>
    obtain ⟨u, us, hu, hus, rfl⟩ := mapM_cons_eq_ok.mp h
    obtain ⟨⟨⟩, -, rfl⟩ := map_eq_ok.mp hu
    have hone : Adds [.option o.1 o.2] [] [] := ⟨rfl, rfl⟩
    exact hone.append (ih hus)

/-- A call adds the conditions and the search terms that it means. -/
theorem adds_updates {c : Call} {us : List Update} (h : i.updates c = .ok us) :
    Adds us (i.conjuncts c) (i.searches c) := by
  have hnone : ∀ {α : Type} (l : List α),
      l.flatMap (fun _ => ([] : List (MatchScope × List String))) = [] := by
    intro α l
    induction l with
    | nil => rfl
    | cons a l ih => exact ih
  cases c with
  | filter ls => exact adds_collect adds_lookupUpdates h
  | exclude ls =>
    have hadds := adds_collect adds_exclusionUpdates h
    rwa [hnone] at hadds
  | notEqual ls =>
    have hadds := adds_collect adds_inequalityUpdates h
    rwa [hnone] at hadds
  | filterBy f => exact adds_filterUpdates h
  | excludeBy fs =>
    simp only [updates] at h
    split at h
    · cases h
    · have hadds := adds_collect adds_exclusionUpdates h
      rwa [hnone] at hadds
  | matchText ts =>
    cases h
    exact ⟨rfl, rfl⟩
  | matchField field ts =>
    obtain ⟨u, hu, rfl⟩ := map_eq_ok.mp h
    exact adds_fieldTerms hu
  | matchAll free byField =>
    obtain ⟨vs, hvs, rfl⟩ := map_eq_ok.mp h
    have hfree : Adds [.terms .anywhere free] [] [(.anywhere, free)] := ⟨rfl, rfl⟩
    exact hfree.append (adds_allFieldTerms hvs)
  | options os => exact adds_options h
  | orderBy terms =>
    obtain ⟨ts, -, rfl⟩ := map_eq_ok.mp h
    exact ⟨rfl, rfl⟩
  | take count =>
    cases h
    exact ⟨rfl, rfl⟩
  | skip count =>
    cases h
    exact ⟨rfl, rfl⟩

end Index

end IndexQuery
