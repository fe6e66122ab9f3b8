import IndexQuery.Proofs.Addressing
import IndexQuery.Proofs.Scan.Statement

/-!
# Negated lookups

To leave out the rows that a lookup selects is to select by the inverse operator: both take the key
apart alike, report the same errors, and bring the same predicate into its form.  Only the number of
negated lookups tells the two queries apart, and no statement shows it.

    r.resolveNegated l.key = r.resolve l.inverseKey                             (resolve_inverseKey)
    q.exclude ls = (q.filter ls').map (·.withNegations ls.length)    where ls' holds the inverses
                                                                          (exclude_eq_filter)
    q.filter ls = .ok q' → q'.clauses.negations = q.clauses.negations          (negations_filter)
-/

namespace IndexQuery

open Outcome LookupKey

/-- A lookup with a complement: a field, alone or with an operator that has an inverse. -/
structure NegatableLookup where
  field : String
  operator : Option Operator
  operand : Operand
  nonempty : field ≠ ""
  separable : Separable field
  invertible : (operator.getD .exact).inverse?.isSome = true

/-! ## Algorithm -/

namespace NegatableLookup

variable (l : NegatableLookup)

/-- The key of the lookup. -/
def key : String :=
  match l.operator with
  | none => l.field
  | some o => compose l.field o

/-- The inverse of the operator, and inequality where the key has none. -/
def inverse : Operator := (l.operator.getD .exact).inverse?.get l.invertible

/-- The key with the inverse operator. -/
def inverseKey : String := compose l.field l.inverse

/-- The lookup as it is written. -/
def lookup : String × Operand := (l.key, l.operand)

/-- The lookup with the inverse operator. -/
def inverseLookup : String × Operand := (l.inverseKey, l.operand)

end NegatableLookup

/-- The query with more negated lookups. -/
def Query.withNegations (q : Query) (n : Nat) : Query :=
  { q with clauses.negations := q.clauses.negations + n }

/-! ## Keys -/

namespace Resolver

variable (r : Resolver) (l : NegatableLookup)

theorem resolve_inverseKey :
    r.resolve l.inverseKey = (r.resolveField l.field).map fun f => (f, l.inverse) :=
  resolve_compose l.nonempty l.separable l.inverse

theorem resolveNegated_key : r.resolveNegated l.key = r.resolve l.inverseKey := by
  have hinverse : (l.operator.getD .exact).inverse? = some l.inverse :=
    (Option.some_get l.invertible).symm
  rw [resolve_inverseKey]
  unfold NegatableLookup.key
  cases hop : l.operator with
  | none =>
    rw [hop] at hinverse
    rw [← Option.some.inj hinverse]
    exact resolveNegated_name l.nonempty l.separable.1
  | some o =>
    rw [hop] at hinverse
    exact resolveNegated_compose l.nonempty l.separable hinverse

/-- A bare key is the field of an inequality. -/
theorem resolvePlain_key (hop : l.operator = none) :
    (r.resolvePlain l.key).map (fun f => (f, Operator.notEqual)) = r.resolve l.inverseKey := by
  have hkey : l.key = l.field := by
    unfold NegatableLookup.key
    rw [hop]
  have hinverse : l.inverse = .notEqual := by
    have hsome : (l.operator.getD .exact).inverse? = some l.inverse :=
      (Option.some_get l.invertible).symm
    rw [hop] at hsome
    exact (Option.some.inj hsome).symm
  rw [resolve_inverseKey, hkey, hinverse]
  unfold resolvePlain
  rw [parse_name l.nonempty l.separable.1]
  rfl

end Resolver

/-! ## One lookup -/

namespace Query

variable (q : Query) (l : NegatableLookup)

theorem withoutLookup_negatable : q.withoutLookup l.key l.operand =
    (q.withLookup l.inverseKey l.operand).map fun q' => q'.withNegations 1 := by
  unfold withoutLookup withLookup
  rw [Resolver.resolveNegated_key]
  cases q.index.resolver.resolve l.inverseKey with
  | error e => rfl
  | ok r =>
    obtain ⟨f, op⟩ := r
    show (q.withPredicate ⟨f, op, l.operand⟩ >>= _) = (q.withPredicate ⟨f, op, l.operand⟩).map _
    cases q.withPredicate ⟨f, op, l.operand⟩ <;> rfl

theorem withInequality_negatable (hop : l.operator = none) :
    q.withInequality l.key l.operand = q.withLookup l.inverseKey l.operand := by
  unfold withInequality withLookup
  rw [← Resolver.resolvePlain_key _ l hop]
  cases q.index.resolver.resolvePlain l.key <;> rfl

/-- A filter leaves the number of negated lookups as it is. -/
theorem negations_withLookup {key : String} {x : Operand} {q' : Query}
    (h : q.withLookup key x = .ok q') : q'.clauses.negations = q.clauses.negations := by
  obtain ⟨⟨f, op⟩, -, h⟩ := bind_eq_ok.mp h
  obtain ⟨form, -, h⟩ := bind_eq_ok.mp h
  cases form with
  | fragment g =>
    cases h
    rfl
  | search scope ts =>
    cases h
    rfl
  | comparison p =>
    obtain ⟨c, -, h⟩ := bind_eq_ok.mp h
    cases h
    rfl

/-! ## Lists of lookups -/

theorem negations_filter {ls : List (String × Operand)} {q' : Query} (h : q.filter ls = .ok q') :
    q'.clauses.negations = q.clauses.negations := by
  unfold filter at h
  induction ls generalizing q with
  | nil =>
    cases h
    rfl
  | cons l ls ih =>
    obtain ⟨q₁, hq₁, h⟩ := bind_eq_ok.mp h
    rw [ih q₁ h, q.negations_withLookup hq₁]

theorem update_withNegations (n : Nat) (u : Update) :
    (q.withNegations n).update u = (q.update u).withNegations n := by
  cases u with
  | negation =>
    have hcomm : q.clauses.negations + n + 1 = q.clauses.negations + 1 + n := by omega
    simp only [update, withNegations, Clauses.withNegation, hcomm]
  | _ => rfl

theorem updateAll_withNegations (n : Nat) (us : List Update) :
    (q.withNegations n).updateAll us = (q.updateAll us).withNegations n := by
  induction us generalizing q with
  | nil => rfl
  | cons u us ih =>
    have hrest := ih (q.update u)
    rw [← update_withNegations] at hrest
    exact hrest

/-- No filter depends on the number of negated lookups. -/
theorem filter_withNegations (n : Nat) (ls : List (String × Operand)) :
    (q.withNegations n).filter ls = (q.filter ls).map fun q' => q'.withNegations n := by
  have hindex : (q.withNegations n).index = q.index := rfl
  rw [filter_eq, filter_eq, hindex]
  cases collect q.index.lookupUpdates ls with
  | error e => rfl
  | ok us => exact congrArg Except.ok (q.updateAll_withNegations n us)

theorem exclude_eq_filter (ls : List NegatableLookup) :
    q.exclude (ls.map NegatableLookup.lookup) =
      (q.filter (ls.map NegatableLookup.inverseLookup)).map fun q' =>
        q'.withNegations ls.length := by
  induction ls generalizing q with
  | nil => rfl
  | cons l ls ih =>
    show (q.withoutLookup l.key l.operand >>= fun q₁ =>
        q₁.exclude (ls.map NegatableLookup.lookup)) =
      (q.withLookup l.inverseKey l.operand >>= fun q₁ =>
        q₁.filter (ls.map NegatableLookup.inverseLookup)).map _
    rw [withoutLookup_negatable]
    cases q.withLookup l.inverseKey l.operand with
    | error e => rfl
    | ok q₁ =>
      show (q₁.withNegations 1).exclude _ = (q₁.filter _).map _
      rw [ih, filter_withNegations]
      cases q₁.filter (ls.map NegatableLookup.inverseLookup) with
      | error e => rfl
      | ok q₂ =>
        have hcount : q₂.clauses.negations + 1 + ls.length =
            q₂.clauses.negations + (l :: ls).length := by
          rw [List.length_cons]
          omega
        simp only [Except.map, withNegations, hcount]

theorem notEqual_eq_filter {ls : List NegatableLookup} (hop : ∀ l ∈ ls, l.operator = none) :
    q.notEqual (ls.map NegatableLookup.lookup) =
      q.filter (ls.map NegatableLookup.inverseLookup) := by
  induction ls generalizing q with
  | nil => rfl
  | cons l ls ih =>
    show (q.withInequality l.key l.operand >>= fun q₁ =>
        q₁.notEqual (ls.map NegatableLookup.lookup)) =
      (q.withLookup l.inverseKey l.operand >>= fun q₁ =>
        q₁.filter (ls.map NegatableLookup.inverseLookup))
    rw [withInequality_negatable q l (hop l List.mem_cons_self)]
    exact congrArg _ (funext fun q₁ => ih q₁ fun m hm => hop m (List.mem_cons_of_mem l hm))

/-! ## Filters that are negated -/

theorem excludeBy_lookups (ls : List (String × Operand)) :
    q.excludeBy (ls.map fun l => .lookup l.1 l.2) = q.exclude ls := by
  have hgroups : (ls.map fun l => Filter.lookup l.1 l.2).countP Filter.isGroup = 0 := by
    rw [List.countP_map]
    exact List.countP_eq_zero.mpr fun l _ => Bool.false_ne_true
  have hlookups : (ls.map fun l => Filter.lookup l.1 l.2).filterMap Filter.lookup? = ls := by
    rw [List.filterMap_map]
    exact List.filterMap_some
  unfold excludeBy
  rw [hgroups, hlookups]
  rfl

theorem excludeBy_groups {fs : List Filter} (h : ∃ f ∈ fs, f.isGroup = true) :
    q.excludeBy fs = .error (.compoundNegation (fs.countP Filter.isGroup)) :=
  if_pos (List.countP_pos_iff.mpr h)

/-- To negate lookups is to filter by the inverse operators: with the same errors, and with queries
that differ in the number of negated lookups alone.  For bare keys this is also what `notEqual`
does, and filters without groups are negated as their lookups are. -/
theorem exclude_is_filter (q : Query) :
    (∀ ls : List NegatableLookup, ∀ e,
      q.exclude (ls.map NegatableLookup.lookup) = .error e ↔
        q.filter (ls.map NegatableLookup.inverseLookup) = .error e) ∧
    (∀ ls : List NegatableLookup, ∀ f,
      q.filter (ls.map NegatableLookup.inverseLookup) = .ok f →
        ∃ g, q.exclude (ls.map NegatableLookup.lookup) = .ok g ∧ g.compile = f.compile ∧
          g.base = f.base ∧ g.clauses.fragments = f.clauses.fragments ∧
          g.clauses.matching = f.clauses.matching ∧ g.clauses.options = f.clauses.options ∧
          g.clauses.negations = f.clauses.negations + ls.length ∧
          f.clauses.negations = q.clauses.negations) ∧
    (∀ ls : List NegatableLookup, (∀ l ∈ ls, l.operator = none) →
      q.notEqual (ls.map NegatableLookup.lookup) =
        q.filter (ls.map NegatableLookup.inverseLookup)) ∧
    (∀ ls : List (String × Operand),
      q.excludeBy (ls.map fun l => .lookup l.1 l.2) = q.exclude ls) ∧
    ∀ fs : List Filter, (∃ f ∈ fs, f.isGroup = true) →
      q.excludeBy fs = .error (.compoundNegation (fs.countP Filter.isGroup)) := by
  refine ⟨fun ls e => ?_, fun ls f hf => ?_, fun ls => q.notEqual_eq_filter,
    q.excludeBy_lookups, fun fs => q.excludeBy_groups⟩
  · rw [exclude_eq_filter]
    cases q.filter (ls.map NegatableLookup.inverseLookup) with
    | error e' => exact Iff.rfl
    | ok f => exact iff_of_false nofun nofun
  · refine ⟨f.withNegations ls.length, ?_, rfl, rfl, rfl, rfl, rfl, rfl, q.negations_filter hf⟩
    rw [exclude_eq_filter, hf]
    rfl

end Query

namespace Index

/-- A price from three on. -/
def negatedPrice : NegatableLookup :=
  ⟨"price", some .greaterEqual, .scalar (.int 3), by decide, by decide, rfl⟩

/-- A title. -/
def negatedTitle : NegatableLookup :=
  ⟨"title", none, .scalar (.text "lamp"), by decide, by decide, rfl⟩

theorem products_negated : ∃ q f g, products.query = .ok q ∧
    q.filter ([negatedPrice, negatedTitle].map NegatableLookup.inverseLookup) = .ok f ∧
    q.exclude ([negatedPrice, negatedTitle].map NegatableLookup.lookup) = .ok g ∧
    g.compile = f.compile ∧ g.clauses.negations = f.clauses.negations + 2 ∧
    q.notEqual ([negatedTitle].map NegatableLookup.lookup) =
      q.filter ([negatedTitle].map NegatableLookup.inverseLookup) ∧
    q.excludeBy [.lookup "price" (.scalar .null), .any []] = .error (.compoundNegation 1) := by
  obtain ⟨o, ho, hquery⟩ := query_eq_ok products_valid
  cases ho
  have hfilter : ∃ q f, products.query = .ok q ∧
      q.filter ([negatedPrice, negatedTitle].map NegatableLookup.inverseLookup) = .ok f :=
    ⟨_, _, hquery, rfl⟩
  obtain ⟨q, f, hq, hf⟩ := hfilter
  obtain ⟨-, hlookups, hbare, -, hgroups⟩ := Query.exclude_is_filter q
  obtain ⟨g, hg, hcompile, -, -, -, -, hcount, -⟩ := hlookups _ f hf
  refine ⟨q, f, g, hq, hf, hg, hcompile, hcount, hbare [negatedTitle] fun l hl => ?_,
    hgroups [.lookup "price" (.scalar .null), .any []] ⟨.any [], by simp, rfl⟩⟩
  rw [List.mem_singleton.mp hl]
  rfl

end Index

end IndexQuery
