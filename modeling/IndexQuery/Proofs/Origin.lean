import IndexQuery.Proofs.Group
import IndexQuery.Proofs.Update
import IndexQuery.Proofs.Validity

/-!
# Where updates come from

On a valid index every comparison in an update is the one of a predicate on a declared field, every
option passed its check, and rows are sorted by columns of declared fields.  `Update.From` says so,
and holds for the updates of every call and of every run.

    i.updates c = .ok us → u ∈ us → u.From i                                    (from_of_updates)
    collect i.updates cs = .ok us → u ∈ us → u.From i                           (from_of_collect)
-/

namespace IndexQuery

open Outcome

/-- A fragment compares a declared field with an operand. -/
def Index.Compares (i : Index) (g : Fragment) : Prop :=
  ∃ p : Predicate, p.field ∈ i.schema.fields ∧ p.States i.settings.marker g

/-- Every leaf of a condition compares a declared field with an operand. -/
def Index.ComparesAll (i : Index) (c : Condition) : Prop :=
  ∀ l ∈ c.leaves, i.Compares l.toFragment

/-- What the update of a successful call is made of. -/
def Update.From (i : Index) : Update → Prop
  | .condition c => i.ComparesAll c
  | .fragment g => i.Compares g
  | .option name value => OptionSet.check name value = .ok ()
  | .order ts => ∀ t ∈ ts, ∃ f ∈ i.schema.fields, t.column = f.storageColumn
  | .terms _ _ | .negation | .take _ | .skip _ => True

/-! ## Algorithm -/

theorem exists_of_mem_collect {α : Type} {changes : α → Except Error (List Update)}
    {l : List α} {us : List Update} (h : collect changes l = .ok us) {u : Update} (hu : u ∈ us) :
    ∃ a ∈ l, ∃ vs, changes a = .ok vs ∧ u ∈ vs := by
  obtain ⟨vss, hvss, rfl⟩ := map_eq_ok.mp h
  obtain ⟨vs, hvs, hu⟩ := List.mem_flatten.mp hu
  obtain ⟨a, ha, hchange⟩ := exists_of_mem_mapM hvss hvs
  exact ⟨a, ha, vs, hchange, hu⟩

namespace Index

variable {i : Index}

/-! ## Comparisons -/

/-- A comparison of the base query is its own leaf. -/
theorem comparesAll_of_ofLookup {f : Field} (hf : f ∈ i.schema.fields) {op : Operator}
    {x : Operand} (hm : f.isMultiValue = false) {c : Condition}
    (h : Condition.ofLookup f op x = .ok c) : i.ComparesAll c := by
  intro l hl
  have hstates : Predicate.States i.settings.marker ⟨f, op, x⟩ c.toFragment :=
    Predicate.states_of_ofLookup hm h
  obtain ⟨ps, -, -, -, -, -, rfl⟩ := Predicate.ofLookup_eq_ok h
  obtain rfl := List.mem_singleton.mp hl
  exact ⟨⟨f, op, x⟩, hf, hstates⟩

theorem comparesAll_of_lookupCondition (hs : i.schema.Sound) {key : String} {x : Operand}
    {c : Condition} (h : Filter.lookupCondition i.resolver i.settings.marker key x = .ok c) :
    i.ComparesAll c := by
  obtain ⟨f, op, hr, ⟨g, hform, rfl⟩ | ⟨hform, hc⟩⟩ := Filter.lookupCondition_eq_ok h
  · intro l hl
    obtain rfl := List.mem_singleton.mp hl
    exact ⟨⟨f, op, x⟩, Resolver.mem_of_resolve hs hr, Predicate.states_of_form hform⟩
  · obtain ⟨-, -, -, hm⟩ := Predicate.eq_of_form_comparison hform
    exact comparesAll_of_ofLookup (Resolver.mem_of_resolve hs hr) hm hc

theorem comparesAll_of_toCondition (hs : i.schema.Sound) {f : Filter} {c : Condition}
    (h : f.toCondition i.resolver i.settings.marker = .ok c) : i.ComparesAll c := by
  induction f generalizing c with
  | lookup key x => exact comparesAll_of_lookupCondition hs h
  | all fs ih =>
    obtain ⟨cs, hcs, rfl⟩ := Filter.toCondition_all_eq_ok h
    intro l hl
    rw [Condition.leaves_all] at hl
    obtain ⟨c, hc, hl⟩ := List.mem_flatMap.mp hl
    obtain ⟨f, hf, hfc⟩ := exists_of_mem_mapM hcs hc
    exact ih f hf hfc l hl
  | any fs ih =>
    obtain ⟨cs, hcs, rfl⟩ := Filter.toCondition_any_eq_ok h
    intro l hl
    rw [Condition.leaves_any] at hl
    obtain ⟨c, hc, hl⟩ := List.mem_flatMap.mp hl
    obtain ⟨f, hf, hfc⟩ := exists_of_mem_mapM hcs hc
    exact ih f hf hfc l hl

/-! ## Updates of lookups -/

theorem from_of_predicateUpdates {p : Predicate} (hp : p.field ∈ i.schema.fields)
    {us : List Update} (h : i.predicateUpdates p = .ok us) : ∀ u ∈ us, u.From i := by
  obtain ⟨form, hform, hus⟩ := bind_eq_ok.mp h
  intro u hu
  cases form with
  | fragment g =>
    cases hus
    obtain rfl := List.mem_singleton.mp hu
    exact ⟨p, hp, Predicate.states_of_form hform⟩
  | search scope ts =>
    cases hus
    obtain rfl := List.mem_singleton.mp hu
    trivial
  | comparison p' =>
    obtain ⟨rfl, -, -, hm⟩ := Predicate.eq_of_form_comparison hform
    obtain ⟨c, hc, rfl⟩ := map_eq_ok.mp hus
    obtain rfl := List.mem_singleton.mp hu
    exact comparesAll_of_ofLookup hp hm hc

theorem from_of_lookupUpdates (hs : i.schema.Sound) {l : String × Operand} {us : List Update}
    (h : i.lookupUpdates l = .ok us) : ∀ u ∈ us, u.From i := by
  obtain ⟨⟨f, op⟩, hr, h⟩ := bind_eq_ok.mp h
  exact from_of_predicateUpdates (Resolver.mem_of_resolve hs hr) h

theorem from_of_exclusionUpdates (hs : i.schema.Sound) {l : String × Operand}
    {us : List Update} (h : i.exclusionUpdates l = .ok us) : ∀ u ∈ us, u.From i := by
  obtain ⟨⟨f, op⟩, hr, h⟩ := bind_eq_ok.mp h
  obtain ⟨vs, hvs, h⟩ := bind_eq_ok.mp h
  cases h
  intro u hu
  rcases List.mem_append.mp hu with hu | hu
  · exact from_of_predicateUpdates (Resolver.mem_of_resolveNegated hs hr) hvs u hu
  · obtain rfl := List.mem_singleton.mp hu
    trivial

theorem from_of_inequalityUpdates (hs : i.schema.Sound) {l : String × Operand}
    {us : List Update} (h : i.inequalityUpdates l = .ok us) : ∀ u ∈ us, u.From i := by
  obtain ⟨f, hr, h⟩ := bind_eq_ok.mp h
  exact from_of_predicateUpdates (Resolver.mem_of_resolvePlain hs hr) h

theorem from_of_filterUpdates (hs : i.schema.Sound) {f : Filter} {us : List Update}
    (h : i.filterUpdates f = .ok us) : ∀ u ∈ us, u.From i := by
  have hgroup : ∀ {group : Filter} {us : List Update},
      ((group.toCondition i.resolver i.settings.marker).map fun c => [Update.condition c]) =
        .ok us → ∀ u ∈ us, u.From i := by
    intro group us h u hu
    obtain ⟨c, hc, rfl⟩ := map_eq_ok.mp h
    obtain rfl := List.mem_singleton.mp hu
    exact comparesAll_of_toCondition hs hc
  cases f with
  | lookup key x => exact from_of_lookupUpdates hs h
  | all fs => exact hgroup h
  | any fs => exact hgroup h

/-! ## Other updates -/

/-- Search terms in a field are an update without condition. -/
theorem from_of_fieldTerms {b : String × List String} {u : Update} (h : i.fieldTerms b = .ok u) :
    u.From i := by
  obtain ⟨f, -, h⟩ := bind_eq_ok.mp h
  cases h
  trivial

theorem from_of_optionUpdate {o : String × OptionValue} {u : Update}
    (h : optionUpdate o = .ok u) : u.From i := by
  obtain ⟨⟨⟩, hcheck, rfl⟩ := map_eq_ok.mp h
  exact hcheck

theorem column_of_orderTerm (hs : i.schema.Sound) {term : String} {t : OrderTerm}
    (h : i.orderTerm term = .ok t) : ∃ f ∈ i.schema.fields, t.column = f.storageColumn := by
  obtain ⟨f, hf, h⟩ := bind_eq_ok.mp h
  dsimp only at h
  split at h
  · cases h
  · cases h
    exact ⟨f, Resolver.mem_of_resolveField hs hf, rfl⟩

/-! ## Calls and runs -/

theorem from_of_updates (hi : i.Valid) {c : Call} {us : List Update}
    (h : i.updates c = .ok us) : ∀ u ∈ us, u.From i := by
  have hs := hi.sound
  have hcollect : ∀ {changes : String × Operand → Except Error (List Update)}
      {ls : List (String × Operand)} {us : List Update},
      (∀ {l vs}, changes l = .ok vs → ∀ u ∈ vs, u.From i) →
        collect changes ls = .ok us → ∀ u ∈ us, u.From i := by
    intro changes ls us hchange h u hu
    obtain ⟨l, -, vs, hl, hu⟩ := exists_of_mem_collect h hu
    exact hchange hl u hu
  intro u hu
  cases c with
  | filter ls => exact hcollect (from_of_lookupUpdates hs) h u hu
  | exclude ls => exact hcollect (from_of_exclusionUpdates hs) h u hu
  | notEqual ls => exact hcollect (from_of_inequalityUpdates hs) h u hu
  | filterBy f => exact from_of_filterUpdates hs h u hu
  | excludeBy fs =>
    simp only [updates] at h
    split at h
    · cases h
    · exact hcollect (from_of_exclusionUpdates hs) h u hu
  | matchField field ts =>
    obtain ⟨v, hv, rfl⟩ := map_eq_ok.mp h
    obtain rfl := List.mem_singleton.mp hu
    exact from_of_fieldTerms hv
  | matchAll free byField =>
    obtain ⟨vs, hvs, rfl⟩ := map_eq_ok.mp h
    rcases List.mem_cons.mp hu with rfl | hu
    · trivial
    · obtain ⟨b, -, hb⟩ := exists_of_mem_mapM hvs hu
      exact from_of_fieldTerms hb
  | options os =>
    obtain ⟨o, -, ho⟩ := exists_of_mem_mapM h hu
    exact from_of_optionUpdate ho
  | orderBy terms =>
    obtain ⟨ts, hts, rfl⟩ := map_eq_ok.mp h
    obtain rfl := List.mem_singleton.mp hu
    intro t ht
    obtain ⟨term, -, hterm⟩ := exists_of_mem_mapM hts ht
    exact column_of_orderTerm hs hterm
  | matchText ts =>
    cases h
    obtain rfl := List.mem_singleton.mp hu
    trivial
  | take count =>
    cases h
    obtain rfl := List.mem_singleton.mp hu
    trivial
  | skip count =>
    cases h
    obtain rfl := List.mem_singleton.mp hu
    trivial

theorem from_of_collect (hi : i.Valid) {cs : List Call} {us : List Update}
    (h : collect i.updates cs = .ok us) : ∀ u ∈ us, u.From i := by
  intro u hu
  obtain ⟨c, -, vs, hvs, hu⟩ := exists_of_mem_collect h hu
  exact from_of_updates hi hvs u hu

end Index

end IndexQuery
