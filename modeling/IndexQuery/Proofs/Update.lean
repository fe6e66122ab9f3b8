import IndexQuery.Call
import IndexQuery.Proofs.Outcome

/-!
# Calls as lists of updates

A call succeeds or fails, and changes the parts of a query, in a way that depends on the index
alone.  `Index.updates` says which changes a call makes; a run of calls makes those of its calls one
after another.

    q.apply c = (q.index.updates c).map q.updateAll                                  (apply_eq)
    q.applyAll cs = (collect q.index.updates cs).map q.updateAll                  (applyAll_eq)

Every part of the query after a run is then a function of the list of updates: the conditions, the
fragments and the search terms are those that the updates hold, in order.
-/

namespace IndexQuery

open Outcome

/-- One change that a call makes to a query. -/
inductive Update where
  /-- One more condition of the base query. -/
  | condition (c : Condition)
  | fragment (f : Fragment)
  | terms (scope : MatchScope) (ts : List String)
  | negation
  | option (name : String) (value : OptionValue)
  | order (ts : List OrderTerm)
  | take (count : UInt64)
  | skip (count : UInt64)

namespace Update

/-- The condition that an update adds. -/
def condition? : Update → Option Condition
  | .condition c => some c
  | _ => none

/-- The fragment that an update adds. -/
def fragment? : Update → Option Fragment
  | .fragment f => some f
  | _ => none

/-- The search terms that an update adds. -/
def terms? : Update → Option (MatchScope × List String)
  | .terms scope ts => some (scope, ts)
  | _ => none

end Update

/-! ## Algorithm -/

namespace Query

/-- The query after one change. -/
def update (q : Query) : Update → Query
  | .condition c => { q with base := q.base.withCondition c }
  | .fragment f => { q with clauses := q.clauses.withFragment f }
  | .terms scope ts => q.withMatch scope ts
  | .negation => { q with clauses := q.clauses.withNegation }
  | .option name value =>
    { q with clauses.options := ⟨OptionSet.put name value q.clauses.options.entries⟩ }
  | .order ts => { q with base := q.base.withOrderBy ts }
  | .take count => q.take count
  | .skip count => q.skip count

/-- The query after changes in order. -/
def updateAll (q : Query) (us : List Update) : Query := us.foldl update q

end Query

/-- The changes for the members of a list, one after another. -/
def collect {α : Type} (changes : α → Except Error (List Update)) (l : List α) :
    Except Error (List Update) := (l.mapM changes).map List.flatten

/-- The changes that a predicate makes, in the form that it takes. -/
def PredicateForm.updates : PredicateForm → Except Error (List Update)
  | .fragment f => .ok [.fragment f]
  | .search scope ts => .ok [.terms scope ts]
  | .comparison p =>
    (Condition.ofLookup p.field p.operator p.operand).map fun c => [.condition c]

namespace Index

/-- The changes for the rows that a predicate selects. -/
def predicateUpdates (i : Index) (p : Predicate) : Except Error (List Update) := do
  (← p.form i.settings.marker).updates

/-- The changes for the rows that a lookup selects. -/
def lookupUpdates (i : Index) (l : String × Operand) : Except Error (List Update) := do
  let (f, op) ← i.resolver.resolve l.1
  i.predicateUpdates ⟨f, op, l.2⟩

/-- The changes for the rows that a lookup does not select. -/
def exclusionUpdates (i : Index) (l : String × Operand) : Except Error (List Update) := do
  let (f, op) ← i.resolver.resolveNegated l.1
  return (← i.predicateUpdates ⟨f, op, l.2⟩) ++ [.negation]

/-- The changes for the rows in which a field differs from a value. -/
def inequalityUpdates (i : Index) (l : String × Operand) : Except Error (List Update) := do
  let f ← i.resolver.resolvePlain l.1
  i.predicateUpdates ⟨f, .notEqual, l.2⟩

/-- The changes for the rows that a filter selects. -/
def filterUpdates (i : Index) : Filter → Except Error (List Update)
  | .lookup key x => i.lookupUpdates (key, x)
  | group => (group.toCondition i.resolver i.settings.marker).map fun c => [.condition c]

/-- The change for search terms in a field. -/
def fieldTerms (i : Index) (b : String × List String) : Except Error Update := do
  let f ← i.resolver.resolveField b.1
  return .terms (.column f.storageColumn) b.2

/-- The change for an option. -/
def optionUpdate (o : String × OptionValue) : Except Error Update :=
  (OptionSet.check o.1 o.2).map fun () => .option o.1 o.2

/-- The column that a sort term names. -/
def orderTerm (i : Index) (term : String) : Except Error OrderTerm := do
  let (name, descending) := Query.splitOrder term
  let f ← i.resolver.resolveField name
  if f.isFullText then .error (.unsupportedLookup f.name "order_by")
  return ⟨f.storageColumn, descending⟩

/-- The changes that a call makes. -/
def updates (i : Index) : Call → Except Error (List Update)
  | .filter lookups => collect i.lookupUpdates lookups
  | .exclude lookups => collect i.exclusionUpdates lookups
  | .notEqual lookups => collect i.inequalityUpdates lookups
  | .filterBy f => i.filterUpdates f
  | .excludeBy fs =>
    let groups := fs.countP Filter.isGroup
    if 0 < groups then .error (.compoundNegation groups)
    else collect i.exclusionUpdates (fs.filterMap Filter.lookup?)
  | .matchText ts => .ok [.terms .anywhere ts]
  | .matchField field ts => (i.fieldTerms (field, ts)).map fun u => [u]
  | .matchAll free byField => (byField.mapM i.fieldTerms).map (.terms .anywhere free :: ·)
  | .options os => os.mapM optionUpdate
  | .orderBy terms => (terms.mapM i.orderTerm).map fun ts => [.order ts]
  | .take count => .ok [.take count]
  | .skip count => .ok [.skip count]

end Index

/-! ## Lemmas -/

theorem OptionSet.mem_put {name : String} {value : OptionValue}
    {es : List (String × OptionValue)} {o : String × OptionValue} (h : o ∈ put name value es) :
    o = (name, value) ∨ o ∈ es := by
  induction es with
  | nil => exact .inl (List.mem_singleton.mp h)
  | cons e es ih =>
    unfold put at h
    split at h
    · next hname =>
      rcases List.mem_cons.mp h with rfl | h
      · exact .inl (by rw [hname])
      · exact .inr (List.mem_cons_of_mem e h)
    · rcases List.mem_cons.mp h with rfl | h
      · exact .inr List.mem_cons_self
      · exact (ih h).imp_right (List.mem_cons_of_mem e)

namespace Query

theorem updateAll_append (q : Query) (us vs : List Update) :
    q.updateAll (us ++ vs) = (q.updateAll us).updateAll vs := List.foldl_append

@[simp] theorem index_update (q : Query) (u : Update) : (q.update u).index = q.index := by
  cases u <;> rfl

@[simp] theorem index_updateAll (q : Query) (us : List Update) :
    (q.updateAll us).index = q.index := by
  induction us generalizing q with
  | nil => rfl
  | cons u us ih => rw [updateAll, List.foldl_cons, ← updateAll, ih, index_update]

theorem collect_cons {α : Type} (changes : α → Except Error (List Update)) (a : α) (l : List α) :
    collect changes (a :: l) = (do
      let us ← changes a
      let vs ← collect changes l
      return us ++ vs) := by
  unfold collect
  rw [List.mapM_cons]
  cases changes a with
  | error e => rfl
  | ok us => cases l.mapM changes <;> rfl

theorem collect_singleton {α : Type} (changes : α → Except Error (List Update)) (a : α) :
    collect changes [a] = changes a := by
  rw [collect_cons]
  cases changes a with
  | error e => rfl
  | ok us => exact congrArg Except.ok (List.append_nil us)

/-- Members of a list that each make their changes make them one after another. -/
theorem foldlM_eq_collect {α : Type} {i : Index} {f : Query → α → Except Error Query}
    {changes : α → Except Error (List Update)}
    (h : ∀ q a, q.index = i → f q a = (changes a).map q.updateAll) (l : List α) (q : Query)
    (hq : q.index = i) : l.foldlM f q = (collect changes l).map q.updateAll := by
  induction l generalizing q with
  | nil => rfl
  | cons a l ih =>
    rw [List.foldlM_cons, h q a hq, collect_cons]
    cases changes a with
    | error e => rfl
    | ok us =>
      have hrest := ih (q.updateAll us) (by rw [index_updateAll, hq])
      show l.foldlM f (q.updateAll us) = _
      rw [hrest]
      cases collect changes l with
      | error e => rfl
      | ok vs => exact congrArg Except.ok (q.updateAll_append us vs).symm

/-! ### Lookups -/

theorem withForm_eq (q : Query) (form : PredicateForm) :
    q.withForm form = form.updates.map q.updateAll := by
  cases form with
  | fragment f => rfl
  | search scope ts => rfl
  | comparison p =>
    simp only [withForm, PredicateForm.updates]
    cases Condition.ofLookup p.field p.operator p.operand <;> rfl

theorem withPredicate_eq (q : Query) (p : Predicate) :
    q.withPredicate p = (q.index.predicateUpdates p).map q.updateAll := by
  unfold withPredicate Index.predicateUpdates
  cases p.form q.index.settings.marker with
  | error e => rfl
  | ok form => exact q.withForm_eq form

theorem withLookup_eq (q : Query) (l : String × Operand) :
    q.withLookup l.1 l.2 = (q.index.lookupUpdates l).map q.updateAll := by
  unfold withLookup Index.lookupUpdates
  cases q.index.resolver.resolve l.1 with
  | error e => rfl
  | ok r =>
    obtain ⟨f, op⟩ := r
    exact q.withPredicate_eq ⟨f, op, l.2⟩

theorem withoutLookup_eq (q : Query) (l : String × Operand) :
    q.withoutLookup l.1 l.2 = (q.index.exclusionUpdates l).map q.updateAll := by
  unfold withoutLookup Index.exclusionUpdates
  cases q.index.resolver.resolveNegated l.1 with
  | error e => rfl
  | ok r =>
    obtain ⟨f, op⟩ := r
    show (q.withPredicate ⟨f, op, l.2⟩ >>= _) =
      Except.map q.updateAll (q.index.predicateUpdates ⟨f, op, l.2⟩ >>= _)
    rw [withPredicate_eq]
    cases q.index.predicateUpdates ⟨f, op, l.2⟩ with
    | error e => rfl
    | ok us => exact congrArg Except.ok (q.updateAll_append us [.negation]).symm

theorem withInequality_eq (q : Query) (l : String × Operand) :
    q.withInequality l.1 l.2 = (q.index.inequalityUpdates l).map q.updateAll := by
  unfold withInequality Index.inequalityUpdates
  cases q.index.resolver.resolvePlain l.1 with
  | error e => rfl
  | ok f => exact q.withPredicate_eq ⟨f, .notEqual, l.2⟩

theorem filter_eq (q : Query) (lookups : List (String × Operand)) :
    q.filter lookups = (collect q.index.lookupUpdates lookups).map q.updateAll :=
  foldlM_eq_collect (fun q l h => h ▸ q.withLookup_eq l) lookups q rfl

theorem exclude_eq (q : Query) (lookups : List (String × Operand)) :
    q.exclude lookups = (collect q.index.exclusionUpdates lookups).map q.updateAll :=
  foldlM_eq_collect (fun q l h => h ▸ q.withoutLookup_eq l) lookups q rfl

theorem notEqual_eq (q : Query) (lookups : List (String × Operand)) :
    q.notEqual lookups = (collect q.index.inequalityUpdates lookups).map q.updateAll :=
  foldlM_eq_collect (fun q l h => h ▸ q.withInequality_eq l) lookups q rfl

theorem filterBy_eq (q : Query) (f : Filter) :
    q.filterBy f = (q.index.filterUpdates f).map q.updateAll := by
  have hgroup : ∀ group : Filter,
      (do
        let c ← group.toCondition q.index.resolver q.index.settings.marker
        return { q with base := q.base.withCondition c } : Except Error Query) =
        ((group.toCondition q.index.resolver q.index.settings.marker).map fun c =>
          [Update.condition c]).map q.updateAll := by
    intro group
    cases group.toCondition q.index.resolver q.index.settings.marker <;> rfl
  cases f with
  | lookup key x =>
    show q.filter [(key, x)] = (q.index.lookupUpdates (key, x)).map q.updateAll
    rw [← q.withLookup_eq (key, x)]
    show q.withLookup key x >>= pure = q.withLookup key x
    rw [bind_pure]
  | all fs => exact hgroup (.all fs)
  | any fs => exact hgroup (.any fs)

theorem excludeBy_eq (q : Query) (fs : List Filter) :
    q.excludeBy fs = (q.index.updates (.excludeBy fs)).map q.updateAll := by
  simp only [excludeBy, Index.updates]
  split
  · rfl
  · exact q.exclude_eq _

/-! ### Search terms, options and order -/

theorem matchField_eq (q : Query) (field : String) (ts : List String) :
    q.matchField field ts = (q.index.updates (.matchField field ts)).map q.updateAll := by
  simp only [matchField, scopeOf, Index.updates, Index.fieldTerms]
  cases q.index.resolver.resolveField field <;> rfl

/-- The scopes of fields are found as their search terms are. -/
theorem mapM_scopeOf (q : Query) (byField : List (String × List String)) :
    byField.mapM (fun (field, ts) => do return (← q.scopeOf field, ts)) =
      (byField.mapM q.index.fieldTerms).map fun us => us.filterMap Update.terms? := by
  induction byField with
  | nil => rfl
  | cons b byField ih =>
    obtain ⟨field, ts⟩ := b
    rw [List.mapM_cons, List.mapM_cons, ih]
    have hscope : q.scopeOf field = (q.index.resolver.resolveField field).map fun f =>
        .column f.storageColumn := by
      unfold scopeOf
      cases q.index.resolver.resolveField field <;> rfl
    simp only [hscope]
    show _ = Except.map _ (((do
      let f ← q.index.resolver.resolveField field
      return .terms (.column f.storageColumn) ts) : Except Error Update) >>= _)
    cases q.index.resolver.resolveField field with
    | error e => rfl
    | ok f => cases byField.mapM q.index.fieldTerms <;> rfl

/-- Changes that are search terms add their terms in order. -/
theorem foldl_withMatch (i : Index) {byField : List (String × List String)} {us : List Update}
    (h : byField.mapM i.fieldTerms = .ok us) (q : Query) :
    (us.filterMap Update.terms?).foldl (fun q (scope, ts) => q.withMatch scope ts) q =
      q.updateAll us := by
  induction us generalizing q byField with
  | nil => rfl
  | cons u us ih =>
    cases byField with
    | nil => cases h
    | cons b byField =>
      obtain ⟨v, vs, hv, hvs, heq⟩ := mapM_cons_eq_ok.mp h
      obtain ⟨f, -, hf⟩ := bind_eq_ok.mp hv
      cases heq
      cases hf
      exact ih hvs _

theorem matchAll_eq (q : Query) (free : List String) (byField : List (String × List String)) :
    q.matchAll free byField = (q.index.updates (.matchAll free byField)).map q.updateAll := by
  simp only [matchAll, Index.updates]
  rw [mapM_scopeOf]
  cases h : byField.mapM q.index.fieldTerms with
  | error e => rfl
  | ok us => exact congrArg Except.ok (foldl_withMatch q.index h (q.matchText free))

theorem setOptions_eq (q : Query) (os : List (String × OptionValue)) :
    q.setOptions os = (q.index.updates (.options os)).map q.updateAll := by
  show os.foldlM _ q = (os.mapM Index.optionUpdate).map q.updateAll
  induction os generalizing q with
  | nil => rfl
  | cons o os ih =>
    obtain ⟨name, value⟩ := o
    have hrest := ih (q.update (.option name value))
    rw [List.foldlM_cons, List.mapM_cons]
    have hset : q.clauses.withOption name value = (OptionSet.check name value).map fun () =>
        (q.update (.option name value)).clauses := by
      unfold Clauses.withOption OptionSet.set
      cases OptionSet.check name value <;> rfl
    have hupdate : Index.optionUpdate (name, value) =
        (OptionSet.check name value).map fun () => .option name value := rfl
    dsimp only
    rw [hset, hupdate]
    cases OptionSet.check name value with
    | error e => rfl
    | ok u =>
      refine hrest.trans ?_
      cases os.mapM Index.optionUpdate <;> rfl

theorem orderBy_eq (q : Query) (terms : List String) :
    q.orderBy terms = (q.index.updates (.orderBy terms)).map q.updateAll := by
  simp only [Index.updates]
  show (terms.mapM q.index.orderTerm >>= _) = _
  cases terms.mapM q.index.orderTerm <;> rfl

/-! ### Calls -/

/-- A call makes the changes that the index says, or fails with the error that it says. -/
theorem apply_eq (q : Query) (c : Call) :
    q.apply c = (q.index.updates c).map q.updateAll := by
  cases c with
  | filter lookups => exact q.filter_eq lookups
  | exclude lookups => exact q.exclude_eq lookups
  | notEqual lookups => exact q.notEqual_eq lookups
  | filterBy f => exact q.filterBy_eq f
  | excludeBy fs => exact q.excludeBy_eq fs
  | matchText ts => rfl
  | matchField field ts => exact q.matchField_eq field ts
  | matchAll free byField => exact q.matchAll_eq free byField
  | options os => exact q.setOptions_eq os
  | orderBy terms => exact q.orderBy_eq terms
  | take count => rfl
  | skip count => rfl

theorem applyAll_eq (q : Query) (cs : List Call) :
    q.applyAll cs = (collect q.index.updates cs).map q.updateAll :=
  foldlM_eq_collect (fun q c h => h ▸ q.apply_eq c) cs q rfl

/-! ### The parts of a query after updates -/

/-- A part to which each update adds what it holds of it, at the end. -/
theorem append_updateAll {α : Type} (part : Query → List α) {pick : Update → Option α}
    (h : ∀ q u, part (q.update u) = part q ++ (pick u).toList) (q : Query) (us : List Update) :
    part (q.updateAll us) = part q ++ us.filterMap pick := by
  induction us generalizing q with
  | nil => exact (List.append_nil _).symm
  | cons u us ih =>
    have hrest := ih (q.update u)
    rw [h, List.append_assoc] at hrest
    refine hrest.trans (congrArg _ ?_)
    cases hu : pick u <;> simp [hu]

theorem conditions_updateAll (q : Query) (us : List Update) :
    (q.updateAll us).base.conditions = q.base.conditions ++ us.filterMap Update.condition? := by
  apply append_updateAll fun q => q.base.conditions
  intro q u
  cases u with
  | condition c => rfl
  | _ => exact (List.append_nil _).symm

theorem fragments_updateAll (q : Query) (us : List Update) :
    (q.updateAll us).clauses.fragments =
      q.clauses.fragments ++ us.filterMap Update.fragment? := by
  apply append_updateAll fun q => q.clauses.fragments
  intro q u
  cases u with
  | fragment f => rfl
  | _ => exact (List.append_nil _).symm

theorem matching_updateAll (q : Query) (us : List Update) :
    (q.updateAll us).clauses.matching =
      (us.filterMap Update.terms?).foldl (fun e t => e.add t.1 t.2) q.clauses.matching := by
  induction us generalizing q with
  | nil => rfl
  | cons u us ih =>
    refine (ih (q.update u)).trans ?_
    cases u <;> rfl

/-- The part of the base query that no update changes. -/
theorem columns_updateAll (q : Query) (us : List Update) :
    (q.updateAll us).base.index = q.base.index ∧
      (q.updateAll us).base.columns = q.base.columns := by
  induction us generalizing q with
  | nil => exact ⟨rfl, rfl⟩
  | cons u us ih =>
    obtain ⟨hindex, hcolumns⟩ := ih (q.update u)
    refine ⟨hindex.trans ?_, hcolumns.trans ?_⟩ <;> cases u <;> rfl

/-- The order is that of the query before or that of an update. -/
theorem orderBy_updateAll (q : Query) (us : List Update) :
    (q.updateAll us).base.orderBy = q.base.orderBy ∨
      .order (q.updateAll us).base.orderBy ∈ us := by
  induction us generalizing q with
  | nil => exact .inl rfl
  | cons u us ih =>
    rcases ih (q.update u) with h | h
    · cases u with
      | order ts => exact .inr (h ▸ List.mem_cons_self)
      | _ => exact .inl h
    · exact .inr (List.mem_cons_of_mem u h)

/-- An option is one of the query before or that of an update. -/
theorem mem_entries_updateAll {q : Query} {us : List Update} {o : String × OptionValue}
    (h : o ∈ (q.updateAll us).clauses.options.entries) :
    o ∈ q.clauses.options.entries ∨ .option o.1 o.2 ∈ us := by
  induction us generalizing q with
  | nil => exact .inl h
  | cons u us ih =>
    rcases ih h with h | h
    · cases u with
      | option name value =>
        rcases OptionSet.mem_put h with rfl | h
        · exact .inr List.mem_cons_self
        · exact .inl h
      | _ => exact .inl h
    · exact .inr (List.mem_cons_of_mem u h)

end Query

end IndexQuery
