import IndexQuery.Proofs.Layout
import IndexQuery.Proofs.Run

/-!
# Interleaved calls

Every call changes certain parts of a query: a lookup the conditions, the fragments or the search
terms, by the form that its predicate takes, and every other call one fixed part.  A statement
depends on the order of the calls within each part only, however the calls of different parts
interleave.

    u ∈ i.effect c → u.part? = some p → p ∈ i.parts c                         (mem_parts_of_effect)
    (cs.flatMap i.effect).filterMap pick =
      ((cs.filter (i.changes p)).flatMap i.effect).filterMap pick             (filterMap_effect)
    cs.Perm ds → (∀ p, cs.filter (i.changes p) = ds.filter (i.changes p)) →
      (q₀.run cs).compile = (q₀.run ds).compile                          (compile_run_of_perm)
-/

namespace IndexQuery

open Outcome

/-- A part of a query that calls change. -/
inductive Part where
  /-- The conditions of the base query. -/
  | conditions
  | fragments
  /-- The search terms. -/
  | terms
  | options
  | order
  | limit
  | offset
  deriving DecidableEq, Repr

/-! ## Algorithm -/

namespace Index

/-- The part that a resolved lookup changes, by the form that its predicate takes. -/
def partOf? (i : Index) (r : Except Error (Field × Operator)) (x : Operand) : Option Part :=
  match r with
  | .error _ => none
  | .ok (f, op) =>
    match Predicate.form i.settings.marker ⟨f, op, x⟩ with
    | .ok (.comparison _) => some .conditions
    | .ok (.fragment _) => some .fragments
    | .ok (.search _ _) => some .terms
    | .error _ => none

/-- The parts that a call changes; a call with a single lookup changes one at most. -/
def parts (i : Index) : Call → List Part
  | .filter ls => ls.filterMap fun l => i.partOf? (i.resolver.resolve l.1) l.2
  | .exclude ls => ls.filterMap fun l => i.partOf? (i.resolver.resolveNegated l.1) l.2
  | .notEqual ls => ls.filterMap fun l =>
    i.partOf? ((i.resolver.resolvePlain l.1).map fun f => (f, .notEqual)) l.2
  | .filterBy (.lookup key x) => (i.partOf? (i.resolver.resolve key) x).toList
  | .filterBy (.all _) | .filterBy (.any _) => [.conditions]
  | .excludeBy fs => (fs.filterMap Filter.lookup?).filterMap fun l =>
    i.partOf? (i.resolver.resolveNegated l.1) l.2
  | .matchText _ | .matchField _ _ | .matchAll _ _ => [.terms]
  | .options _ => [.options]
  | .orderBy _ => [.order]
  | .take _ => [.limit]
  | .skip _ => [.offset]

/-- Whether a call changes a part. -/
def changes (i : Index) (p : Part) (c : Call) : Bool := decide (p ∈ i.parts c)

end Index

/-- Whether lookups and search terms change a part; every other part has calls of its own. -/
def Part.isCondition : Part → Bool
  | .conditions | .fragments | .terms => true
  | .options | .order | .limit | .offset => false

/-- The part that a call has for its own. -/
def Call.part? : Call → Option Part
  | .options _ => some .options
  | .orderBy _ => some .order
  | .take _ => some .limit
  | .skip _ => some .offset
  | _ => none

/-- The part that an update changes; no statement shows how many lookups were negated. -/
def Update.part? : Update → Option Part
  | .condition _ => some .conditions
  | .fragment _ => some .fragments
  | .terms _ _ => some .terms
  | .negation => none
  | .option _ _ => some .options
  | .order _ => some .order
  | .take _ => some .limit
  | .skip _ => some .offset

attribute [ext] Select OptionSet

/-! ## The parts that calls change -/

namespace Update

variable {u : Update}

theorem part_of_condition? {c : Condition} (h : u.condition? = some c) :
    u.part? = some .conditions := by
  cases u with
  | condition d => rfl
  | _ => cases h

theorem part_of_fragment? {f : Fragment} (h : u.fragment? = some f) :
    u.part? = some .fragments := by
  cases u with
  | fragment g => rfl
  | _ => cases h

theorem part_of_terms? {t : MatchScope × List String} (h : u.terms? = some t) :
    u.part? = some .terms := by
  cases u with
  | terms scope ts => rfl
  | _ => cases h

theorem part_of_option? {o : String × OptionValue} (h : u.option? = some o) :
    u.part? = some .options := by
  cases u with
  | option name value => rfl
  | _ => cases h

theorem part_of_order? {ts : List OrderTerm} (h : u.order? = some ts) :
    u.part? = some .order := by
  cases u with
  | order ts => rfl
  | _ => cases h

theorem part_of_take? {count : UInt64} (h : u.take? = some count) : u.part? = some .limit := by
  cases u with
  | take count => rfl
  | _ => cases h

theorem part_of_skip? {count : UInt64} (h : u.skip? = some count) : u.part? = some .offset := by
  cases u with
  | skip count => rfl
  | _ => cases h

end Update

namespace Index

variable {i : Index}

theorem part_of_predicateUpdates {f : Field} {op : Operator} {x : Operand} {us : List Update}
    (h : i.predicateUpdates ⟨f, op, x⟩ = .ok us) {u : Update} (hu : u ∈ us) :
    u.part? = i.partOf? (.ok (f, op)) x := by
  obtain ⟨form, hform, hus⟩ := bind_eq_ok.mp h
  simp only [partOf?, hform]
  cases form with
  | fragment g =>
    cases hus
    obtain rfl := List.mem_singleton.mp hu
    rfl
  | search scope ts =>
    cases hus
    obtain rfl := List.mem_singleton.mp hu
    rfl
  | comparison p =>
    obtain ⟨c, -, rfl⟩ := map_eq_ok.mp hus
    obtain rfl := List.mem_singleton.mp hu
    rfl

theorem part_of_lookupUpdates {l : String × Operand} {us : List Update}
    (h : i.lookupUpdates l = .ok us) {u : Update} (hu : u ∈ us) :
    u.part? = i.partOf? (i.resolver.resolve l.1) l.2 := by
  obtain ⟨⟨f, op⟩, hr, h⟩ := bind_eq_ok.mp h
  rw [hr]
  exact part_of_predicateUpdates h hu

/-- An exclusion also counts, which changes no part. -/
theorem part_of_exclusionUpdates {l : String × Operand} {us : List Update}
    (h : i.exclusionUpdates l = .ok us) {u : Update} (hu : u ∈ us) {p : Part}
    (hp : u.part? = some p) : i.partOf? (i.resolver.resolveNegated l.1) l.2 = some p := by
  obtain ⟨⟨f, op⟩, hr, h⟩ := bind_eq_ok.mp h
  obtain ⟨vs, hvs, h⟩ := bind_eq_ok.mp h
  cases h
  rw [hr]
  rcases List.mem_append.mp hu with hu | hu
  · rw [← part_of_predicateUpdates hvs hu, hp]
  · rw [List.mem_singleton.mp hu] at hp
    cases hp

theorem part_of_inequalityUpdates {l : String × Operand} {us : List Update}
    (h : i.inequalityUpdates l = .ok us) {u : Update} (hu : u ∈ us) :
    u.part? = i.partOf? ((i.resolver.resolvePlain l.1).map fun f => (f, .notEqual)) l.2 := by
  obtain ⟨f, hr, h⟩ := bind_eq_ok.mp h
  rw [hr]
  exact part_of_predicateUpdates h hu

theorem part_of_fieldTerms {b : String × List String} {u : Update} (h : i.fieldTerms b = .ok u) :
    u.part? = some .terms := by
  obtain ⟨f, -, h⟩ := bind_eq_ok.mp h
  cases h
  rfl

/-- Lookups in a row change the parts that each of them changes. -/
theorem mem_parts_of_collect {changed : String × Operand → Except Error (List Update)}
    {part : String × Operand → Option Part} {p : Part}
    (h : ∀ {l us}, changed l = .ok us → ∀ {u}, u ∈ us → u.part? = some p → part l = some p)
    {ls : List (String × Operand)} {us : List Update} (hus : collect changed ls = .ok us)
    {u : Update} (hu : u ∈ us) (hp : u.part? = some p) : p ∈ ls.filterMap part := by
  obtain ⟨l, hl, vs, hvs, hu⟩ := exists_of_mem_collect hus hu
  exact List.mem_filterMap.mpr ⟨l, hl, h hvs hu hp⟩

/-- A single update changes its own part. -/
theorem mem_parts_of_single {v u : Update} (hu : u ∈ [v]) {p q : Part} (hv : v.part? = some q)
    (hp : u.part? = some p) : p ∈ [q] := by
  obtain rfl := List.mem_singleton.mp hu
  rw [hv] at hp
  exact List.mem_singleton.mpr (Option.some.inj hp).symm

/-- A tree of filters changes the conditions of the base query. -/
theorem mem_parts_of_condition {m : Except Error Condition} {us : List Update}
    (h : (m.map fun d => [Update.condition d]) = .ok us) {u : Update} (hu : u ∈ us) {p : Part}
    (hp : u.part? = some p) : p ∈ [Part.conditions] := by
  obtain ⟨d, -, rfl⟩ := map_eq_ok.mp h
  exact mem_parts_of_single hu rfl hp

theorem mem_parts_of_updates {c : Call} {us : List Update} (h : i.updates c = .ok us)
    {u : Update} (hu : u ∈ us) {p : Part} (hp : u.part? = some p) : p ∈ i.parts c := by
  cases c with
  | filter ls =>
    exact mem_parts_of_collect (fun h _ hu hp => part_of_lookupUpdates h hu ▸ hp) h hu hp
  | exclude ls =>
    exact mem_parts_of_collect (fun h _ hu hp => part_of_exclusionUpdates h hu hp) h hu hp
  | notEqual ls =>
    exact mem_parts_of_collect (fun h _ hu hp => part_of_inequalityUpdates h hu ▸ hp) h hu hp
  | filterBy f =>
    cases f with
    | lookup key x =>
      have hpart := part_of_lookupUpdates (l := (key, x)) h hu
      rw [hp] at hpart
      exact Option.mem_toList.mpr hpart.symm
    | all fs => exact mem_parts_of_condition (m := (Filter.all fs).toCondition _ _) h hu hp
    | any fs => exact mem_parts_of_condition (m := (Filter.any fs).toCondition _ _) h hu hp
  | excludeBy fs =>
    simp only [updates] at h
    split at h
    · cases h
    · exact mem_parts_of_collect (fun h _ hu hp => part_of_exclusionUpdates h hu hp) h hu hp
  | matchText ts =>
    cases h
    exact mem_parts_of_single hu rfl hp
  | matchField field ts =>
    obtain ⟨v, hv, rfl⟩ := map_eq_ok.mp h
    exact mem_parts_of_single hu (part_of_fieldTerms hv) hp
  | matchAll free byField =>
    obtain ⟨vs, hvs, rfl⟩ := map_eq_ok.mp h
    rcases List.mem_cons.mp hu with rfl | hu
    · exact mem_parts_of_single (List.mem_singleton_self _) rfl hp
    · obtain ⟨b, -, hb⟩ := exists_of_mem_mapM hvs hu
      exact mem_parts_of_single (List.mem_singleton_self u) (part_of_fieldTerms hb) hp
  | options os =>
    obtain ⟨o, -, ho⟩ := exists_of_mem_mapM h hu
    obtain ⟨⟨⟩, -, rfl⟩ := map_eq_ok.mp ho
    exact mem_parts_of_single (List.mem_singleton_self _) rfl hp
  | orderBy terms =>
    obtain ⟨ts, -, rfl⟩ := map_eq_ok.mp h
    exact mem_parts_of_single hu rfl hp
  | take count =>
    cases h
    exact mem_parts_of_single hu rfl hp
  | skip count =>
    cases h
    exact mem_parts_of_single hu rfl hp

theorem mem_parts_of_effect {c : Call} {u : Update} (hu : u ∈ i.effect c) {p : Part}
    (hp : u.part? = some p) : p ∈ i.parts c := by
  unfold effect at hu
  split at hu
  · next us hus => exact mem_parts_of_updates hus hu hp
  · cases hu

/-! ## Calls that change one part -/

theorem isCondition_of_partOf? {r : Except Error (Field × Operator)} {x : Operand} {p : Part}
    (h : i.partOf? r x = some p) : p.isCondition = true := by
  unfold partOf? at h
  split at h
  · cases h
  · split at h <;> cases h <;> rfl

/-- Only calls that have a part for their own change it, unless it is one of the conditions. -/
theorem part?_of_mem_parts {p : Part} (hp : p.isCondition = false) {c : Call}
    (h : p ∈ i.parts c) : c.part? = some p := by
  have hlookups : ∀ {ls : List (String × Operand)} {part : String × Operand → Option Part},
      (∀ l, part l = some p → p.isCondition = true) → p ∉ ls.filterMap part := by
    intro ls part hpart hmem
    obtain ⟨l, -, hl⟩ := List.mem_filterMap.mp hmem
    rw [hpart l hl] at hp
    cases hp
  have hsingle : ∀ {p' : Part}, p ∈ [p'] → p'.isCondition = false ∧ p = p' := by
    intro p' hmem
    obtain rfl := List.mem_singleton.mp hmem
    exact ⟨hp, rfl⟩
  cases c with
  | filter ls => exact absurd h (hlookups fun _ => isCondition_of_partOf?)
  | exclude ls => exact absurd h (hlookups fun _ => isCondition_of_partOf?)
  | notEqual ls => exact absurd h (hlookups fun _ => isCondition_of_partOf?)
  | excludeBy fs => exact absurd h (hlookups fun _ => isCondition_of_partOf?)
  | filterBy f =>
    cases f with
    | lookup key x =>
      rw [isCondition_of_partOf? (Option.mem_toList.mp h)] at hp
      cases hp
    | all fs => cases (hsingle h).1
    | any fs => cases (hsingle h).1
  | matchText ts => cases (hsingle h).1
  | matchField field ts => cases (hsingle h).1
  | matchAll free byField => cases (hsingle h).1
  | options os => exact congrArg some (hsingle h).2.symm
  | orderBy terms => exact congrArg some (hsingle h).2.symm
  | take count => exact congrArg some (hsingle h).2.symm
  | skip count => exact congrArg some (hsingle h).2.symm

/-- A call changes nothing of a part that is not among its own. -/
theorem filterMap_effect_eq_nil {α : Type} {pick : Update → Option α} {p : Part}
    (hpick : ∀ {u a}, pick u = some a → u.part? = some p) {c : Call} (hc : p ∉ i.parts c) :
    (i.effect c).filterMap pick = [] := by
  apply List.filterMap_eq_nil_iff.mpr
  intro u hu
  apply Option.eq_none_iff_forall_ne_some.mpr
  intro a ha
  exact hc (mem_parts_of_effect hu (hpick ha))

/-- A part that lookups and search terms leave alone is changed by its own calls only. -/
theorem filterMap_effect_of_part? {α : Type} {pick : Update → Option α} {p : Part}
    (hpick : ∀ {u a}, pick u = some a → u.part? = some p) (hp : p.isCondition = false) {c : Call}
    (hc : c.part? ≠ some p) : (i.effect c).filterMap pick = [] :=
  filterMap_effect_eq_nil hpick fun hparts => hc (part?_of_mem_parts hp hparts)

/-- What a run changes of a part comes from the calls that change it. -/
theorem filterMap_effect {α : Type} {pick : Update → Option α} {p : Part}
    (hpick : ∀ {u a}, pick u = some a → u.part? = some p) (cs : List Call) :
    (cs.flatMap i.effect).filterMap pick =
      ((cs.filter (i.changes p)).flatMap i.effect).filterMap pick := by
  induction cs with
  | nil => rfl
  | cons c cs ih =>
    rw [List.flatMap_cons, List.filterMap_append, ih]
    by_cases hc : i.changes p c = true
    · rw [List.filter_cons_of_pos hc, List.flatMap_cons, List.filterMap_append]
    · have hparts : p ∉ i.parts c := fun hp => hc (decide_eq_true hp)
      rw [List.filter_cons_of_neg hc, filterMap_effect_eq_nil hpick hparts, List.nil_append]

/-- Runs with the same calls for each part, in the same order. -/
def SameByPart (i : Index) (cs ds : List Call) : Prop :=
  ∀ p, cs.filter (i.changes p) = ds.filter (i.changes p)

theorem SameByPart.filterMap_eq {cs ds : List Call} (h : i.SameByPart cs ds) {α : Type}
    {pick : Update → Option α} {p : Part} (hpick : ∀ {u a}, pick u = some a → u.part? = some p) :
    (cs.flatMap i.effect).filterMap pick = (ds.flatMap i.effect).filterMap pick := by
  rw [filterMap_effect hpick, h p, ← filterMap_effect hpick]

variable {q₀ : Query} {cs ds : List Call}

/-- The base query is the same after both runs. -/
theorem SameByPart.base_eq (h : i.SameByPart cs ds) (hq₀ : i.query = .ok q₀) :
    (q₀.run cs).base = (q₀.run ds).base := by
  have hconditions := h.filterMap_eq Update.part_of_condition?
  have horder := h.filterMap_eq Update.part_of_order?
  have htake := h.filterMap_eq Update.part_of_take?
  have hskip := h.filterMap_eq Update.part_of_skip?
  rw [Query.run_eq, Query.run_eq, index_of_query hq₀]
  generalize cs.flatMap i.effect = us at *
  generalize ds.flatMap i.effect = vs at *
  obtain ⟨hindex, hcolumns⟩ := q₀.columns_updateAll us
  obtain ⟨hindex', hcolumns'⟩ := q₀.columns_updateAll vs
  have hu := (paged_of_query hq₀).updateAll us
  have hv := (paged_of_query hq₀).updateAll vs
  apply Select.ext
  · rw [hindex, hindex']
  · rw [hcolumns, hcolumns']
  · rw [q₀.conditions_updateAll, q₀.conditions_updateAll, hconditions]
  · rw [q₀.last_orderBy, q₀.last_orderBy, horder]
  · rw [hu.offset, hv.offset, q₀.offset_updateAll, q₀.offset_updateAll, hskip]
  · rw [hu.limit, hv.limit, q₀.limit_updateAll, q₀.limit_updateAll, htake, hskip]

/-- What a statement shows of the clauses is the same after both runs. -/
theorem SameByPart.clauses_eq (h : i.SameByPart cs ds) (hq₀ : i.query = .ok q₀) :
    (q₀.run cs).clauses.fragments = (q₀.run ds).clauses.fragments ∧
      (q₀.run cs).clauses.matching = (q₀.run ds).clauses.matching ∧
      (q₀.run cs).clauses.options = (q₀.run ds).clauses.options := by
  have hfragments := h.filterMap_eq Update.part_of_fragment?
  have hterms := h.filterMap_eq Update.part_of_terms?
  have hoptions := h.filterMap_eq Update.part_of_option?
  rw [Query.run_eq, Query.run_eq, index_of_query hq₀]
  refine ⟨?_, ?_, ?_⟩
  · rw [q₀.fragments_updateAll, q₀.fragments_updateAll, hfragments]
  · rw [q₀.matching_updateAll, q₀.matching_updateAll, hterms]
  · apply OptionSet.ext
    rw [q₀.options_updateAll, q₀.options_updateAll, hoptions]

/-! ## Statements -/

/-- The query of a valid index exists.  Two runs from it with the same calls, in the same order for
each part, have the same calls fail for the same reasons and reach the same statement; in it the
conditions of the base query come first, then the fragments, then the search terms. -/
theorem compile_run_of_perm (hi : i.Valid) :
    ∃ q₀, i.query = .ok q₀ ∧ ∀ cs ds, cs.Perm ds → i.SameByPart cs ds →
      (q₀.report cs).Perm (q₀.report ds) ∧
      ∃ s, (q₀.run cs).compile = .ok s ∧ (q₀.run ds).compile = .ok s ∧
        s.sql = (q₀.run cs).base.selectClause ++
          Statement.whereClause
            (Fragment.texts (Statement.operands (q₀.run cs).base (q₀.run cs).clauses)) ++
          Statement.trailing (q₀.run cs).base.tailClause? ++
          Statement.trailing (q₀.run cs).clauses.options.clause? ∧
        s.params = (q₀.run cs).base.conditions.flatMap (fun d => d.toFragment.params) ++
          (q₀.run cs).clauses.fragments.flatMap Fragment.params ++
          (q₀.run cs).clauses.matching.queryText?.toList.map Param.string := by
  obtain ⟨o, -, hquery⟩ := query_eq_ok hi
  refine ⟨_, hquery, fun cs ds hperm hsame => ?_⟩
  generalize hq₀ : (⟨i, _, _, _, _⟩ : Query) = q₀ at *
  refine ⟨?_, _, (reaches_run hi hquery cs).compile_eq hi, ?_, Statement.text_joined _ _, ?_⟩
  · rw [Query.report_eq_map, Query.report_eq_map]
    exact hperm.map _
  · obtain ⟨hfragments, hmatching, hoptions⟩ := hsame.clauses_eq hquery
    rw [(reaches_run hi hquery ds).compile_eq hi, ← hsame.base_eq hquery]
    unfold Statement.text Statement.joined
    rw [hfragments, hmatching, hoptions]
  · rw [Statement.params_joined]
    unfold Statement.operands
    rw [List.flatMap_append, List.flatMap_append, List.flatMap_map]
    simp only [Fragment.params_parenthesize]
    cases (q₀.run cs).clauses.matching.queryText? <;> rfl

/-- Calls for conditions, search terms and a limit; one fails, since no field is among no values. -/
def termCalls : List Call :=
  [.take 5, .filter [("price__gte", .scalar (.int 3))], .filter [("price__in", .sequence [])],
    .matchText ["lamp"], .exclude [("price__lt", .scalar (.int 2))],
    .filter [("title__search", .scalar (.text "desk"))]]

/-- Calls for fragments, an offset, an order and an option. -/
def fragmentCalls : List Call :=
  [.filter [("tags", .scalar (.int 7))], .skip 10, .orderBy ["-price"],
    .options [("ranker", .string "bm25")], .notEqual [("title", .scalar (.text "it's"))]]

theorem products_interleaved :
    (termCalls ++ fragmentCalls).Perm (fragmentCalls ++ termCalls) ∧
      products.SameByPart (termCalls ++ fragmentCalls) (fragmentCalls ++ termCalls) ∧
      ∃ q₀ s, products.query = .ok q₀ ∧ (q₀.run (termCalls ++ fragmentCalls)).compile = .ok s ∧
        (q₀.run (fragmentCalls ++ termCalls)).compile = .ok s := by
  have hperm : (termCalls ++ fragmentCalls).Perm (fragmentCalls ++ termCalls) :=
    List.perm_append_comm
  have hsame : products.SameByPart (termCalls ++ fragmentCalls) (fragmentCalls ++ termCalls) := by
    intro p
    cases p <;> rfl
  obtain ⟨q₀, hq₀, hrun⟩ := compile_run_of_perm products_valid
  obtain ⟨-, s, hs, ht, -⟩ := hrun _ _ hperm hsame
  exact ⟨hperm, hsame, q₀, s, hq₀, hs, ht⟩

end Index

end IndexQuery
