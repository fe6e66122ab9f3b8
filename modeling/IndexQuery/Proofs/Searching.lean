import IndexQuery.Proofs.Addressing
import IndexQuery.Proofs.Update

/-!
# Ways to search

Search terms for a field can be given by a lookup, by a call for one field or by a call for several.
They all make the same change, or fail with the error of the field's name.  A call for several
fields is the calls for each of them one after another, also where a field comes twice or under its
name and its alias; it fails with the error of the first name that is no field's.

    i.lookupUpdates (compose field .search, texts) = the change of i.fieldTerms (field, terms)
                                                                        (lookupUpdates_search)
    q.matchAll free byField = q.applyAll (a call for free, then one for each field)
                                                                          (matchAll_eq_applyAll)
-/

namespace IndexQuery

open Outcome LookupKey

/-! ## Algorithm -/

/-- Texts as the operand of a lookup. -/
def Operand.texts (terms : List String) : Operand := .sequence (terms.map .text)

/-- The calls that search for free terms and then in each field. -/
def Call.searches (free : List String) (byField : List (String × List String)) : List Call :=
  .matchText free :: byField.map fun b => .matchField b.1 b.2

/-! ## Changes -/

theorem Predicate.matchTerms_texts (f : Field) (terms : List String) :
    matchTerms f (.texts terms) = .ok terms := by
  unfold matchTerms
  show (terms.map Value.text).mapM _ = _
  induction terms with
  | nil => rfl
  | cons t terms ih =>
    rw [List.map_cons, List.mapM_cons, ih]
    rfl

namespace Index

variable (i : Index)

/-- A search lookup on texts searches the field for them. -/
theorem lookupUpdates_search {field : String} (hne : field ≠ "") (hs : Separable field)
    (terms : List String) :
    i.lookupUpdates (compose field .search, .texts terms) =
      (i.fieldTerms (field, terms)).map fun u => [u] := by
  unfold lookupUpdates fieldTerms
  rw [Resolver.resolve_compose hne hs]
  cases i.resolver.resolveField field with
  | error e => rfl
  | ok f =>
    have hform : Predicate.form i.settings.marker ⟨f, .search, .texts terms⟩ =
        .ok (.search (.column f.storageColumn) terms) := by
      rw [Predicate.form, if_pos rfl, Predicate.matchTerms_texts]
      rfl
    show i.predicateUpdates ⟨f, .search, .texts terms⟩ = _
    unfold predicateUpdates
    rw [hform]
    rfl

theorem collect_matchField (byField : List (String × List String)) :
    collect i.updates (byField.map fun b => .matchField b.1 b.2) = byField.mapM i.fieldTerms := by
  induction byField with
  | nil => rfl
  | cons b byField ih =>
    rw [List.map_cons, Query.collect_cons, ih, List.mapM_cons, updates]
    cases i.fieldTerms b with
    | error e => rfl
    | ok u => cases byField.mapM i.fieldTerms <;> rfl

theorem collect_searches (free : List String) (byField : List (String × List String)) :
    collect i.updates (Call.searches free byField) = i.updates (.matchAll free byField) := by
  unfold Call.searches
  rw [Query.collect_cons, collect_matchField, updates, updates]
  cases byField.mapM i.fieldTerms <;> rfl

theorem fieldTerms_eq_error_iff {b : String × List String} {e : Error} :
    i.fieldTerms b = .error e ↔ i.resolver.resolveField b.1 = .error e := by
  unfold fieldTerms
  cases i.resolver.resolveField b.1 with
  | error d => exact ⟨fun h => by cases h; rfl, fun h => by cases h; rfl⟩
  | ok f => exact ⟨nofun, nofun⟩

theorem exists_fieldTerms_iff {b : String × List String} :
    (∃ u, i.fieldTerms b = .ok u) ↔ ∃ f, i.resolver.resolveField b.1 = .ok f := by
  unfold fieldTerms
  cases i.resolver.resolveField b.1 with
  | error d => exact ⟨nofun, nofun⟩
  | ok f => exact ⟨fun _ => ⟨f, rfl⟩, fun _ => ⟨_, rfl⟩⟩

end Index

/-! ## Calls -/

namespace Query

variable (q : Query)

theorem filter_search {field : String} (hne : field ≠ "") (hs : Separable field)
    (terms : List String) :
    q.filter [(compose field .search, .texts terms)] = q.matchField field terms := by
  rw [filter_eq, collect_singleton, Index.lookupUpdates_search _ hne hs, matchField_eq,
    Index.updates]

/-- A call for several fields is the calls for each of them one after another. -/
theorem matchAll_eq_applyAll (free : List String) (byField : List (String × List String)) :
    q.matchAll free byField = q.applyAll (Call.searches free byField) := by
  rw [matchAll_eq, applyAll_eq, Index.collect_searches]

theorem matchAll_single (field : String) (terms : List String) :
    q.matchAll [] [(field, terms)] = q.matchField field terms := by
  rw [matchAll_eq_applyAll]
  show q.matchField field terms >>= pure = q.matchField field terms
  rw [bind_pure]

theorem matchAll_eq_error_iff {free : List String} {byField : List (String × List String)}
    {e : Error} : q.matchAll free byField = .error e ↔
      ∃ pre b post, byField = pre ++ b :: post ∧
        (∀ c ∈ pre, ∃ f, q.index.resolver.resolveField c.1 = .ok f) ∧
        q.index.resolver.resolveField b.1 = .error e := by
  rw [matchAll_eq, map_eq_error, Index.updates, map_eq_error, mapM_eq_error_iff]
  simp only [Index.fieldTerms_eq_error_iff, Index.exists_fieldTerms_iff]

/-- All ways to search agree.  For a name that a separator can follow, a search lookup on texts, the
call for its field and the call for several fields with this one alone give the same query or the
same error.  The call for several fields gives the query of the calls for free terms and for each
field in order, and fails exactly with the error of the first name that is no field's. -/
theorem searches_agree :
    (∀ field terms, field ≠ "" → Separable field →
      q.filter [(compose field .search, .texts terms)] = q.matchField field terms ∧
      q.matchAll [] [(field, terms)] = q.matchField field terms) ∧
    ∀ free byField,
      q.matchAll free byField = q.applyAll (Call.searches free byField) ∧
      ∀ e, q.matchAll free byField = .error e ↔
        ∃ pre b post, byField = pre ++ b :: post ∧
          (∀ c ∈ pre, ∃ f, q.index.resolver.resolveField c.1 = .ok f) ∧
          q.index.resolver.resolveField b.1 = .error e := by
  refine ⟨fun field terms hne hs => ⟨?_, ?_⟩, fun free byField => ⟨?_, fun e => ?_⟩⟩
  · exact q.filter_search hne hs terms
  · exact q.matchAll_single field terms
  · exact q.matchAll_eq_applyAll free byField
  · exact q.matchAll_eq_error_iff

/-- Three ways to search titles, and one call for four names, two of which are the document id's. -/
theorem products_searched : ∃ q₀ q q', Index.products.query = .ok q₀ ∧
    "title" ≠ "" ∧ Separable "title" ∧
    q₀.filter [(compose "title" .search, .texts ["rust", "", "fast"])] = .ok q ∧
    q₀.matchAll [] [("title", ["rust", "", "fast"])] = .ok q ∧
    q.clauses.matching.queryText? = some "@title rust fast" ∧
    q₀.applyAll (Call.searches ["new"] [("id", ["7"]), ("title", [""]), ("pk", ["8", "7"])]) =
      .ok q' ∧
    q'.clauses.matching.queryText? = some "new @id 7 8" ∧
    q₀.matchAll [] [("title", ["rust"]), ("colour", ["red"]), ("size", [])] =
      .error (.unknownField "products" "colour") := by
  obtain ⟨q₀, hq₀⟩ : ∃ q, Index.products.query = .ok q := ⟨_, rfl⟩
  obtain ⟨hone, hall⟩ := searches_agree q₀
  obtain ⟨hfilter, hmatch⟩ := hone "title" ["rust", "", "fast"] (by decide) (by decide)
  obtain ⟨hcalls, -⟩ := hall ["new"] [("id", ["7"]), ("title", [""]), ("pk", ["8", "7"])]
  obtain ⟨-, herror⟩ := hall [] [("title", ["rust"]), ("colour", ["red"]), ("size", [])]
  cases hq₀
  refine ⟨_, _, _, rfl, by decide, by decide, hfilter, hmatch, rfl, hcalls.symm, rfl, ?_⟩
  refine (herror _).mpr ⟨[("title", ["rust"])], ("colour", ["red"]), [("size", [])], rfl, ?_, rfl⟩
  exact List.forall_mem_singleton.mpr ⟨_, rfl⟩

end Query

end IndexQuery
