import IndexQuery.Predicate
import IndexQuery.Proofs.Outcome

/-!
# What a predicate is written as

Whichever form a predicate takes, its text is fixed by the field, the operator and the number of
values, and its parameters are the values brought to the field's type.  `States` says so of a
fragment; later results about lookups start from it.

    p.form marker = .ok (.fragment g) → p.States marker g                       (states_of_form)
    p.form marker = .ok (.comparison p) → Condition.ofLookup … = .ok c →
      p.States marker c.toFragment                                          (states_of_ofLookup)
-/

namespace IndexQuery

open Outcome

/-! ## Bound operands -/

namespace Field

theorem bindAll_cons_eq_ok {f : Field} {v : Value} {vs : List Value} {ps : List Param} :
    f.bindAll (v :: vs) = .ok ps ↔
      ∃ p qs, f.bind v = .ok p ∧ f.bindAll vs = .ok qs ∧ ps = p :: qs := mapM_cons_eq_ok

theorem length_of_bindAll {f : Field} {vs : List Value} {ps : List Param}
    (h : f.bindAll vs = .ok ps) : ps.length = vs.length := length_of_mapM h

theorem bindSingle_eq_ok {f : Field} {op : Operator} {x : Operand} {p : Param}
    (h : f.bindSingle op x = .ok p) : ∃ v, x = .scalar v ∧ f.bind v = .ok p := by
  cases x with
  | scalar v => exact ⟨v, rfl, h⟩
  | sequence vs => cases h

theorem bindAll_of_bindSingle {f : Field} {op : Operator} {x : Operand} {p : Param}
    (h : f.bindSingle op x = .ok p) : f.bindAll x.values = .ok [p] := by
  obtain ⟨v, rfl, hv⟩ := bindSingle_eq_ok h
  exact bindAll_cons_eq_ok.mpr ⟨p, [], hv, rfl, rfl⟩

end Field

namespace Predicate

/-! ## Text and parameters -/

/-- The text that compares a field with the given number of values, if the operator suits it. -/
def comparisonText? (marker : String) (f : Field) (op : Operator) (count : Nat) :
    Option String :=
  if f.isMultiValue then
    match op with
    | .oneOf => some ("IN(" ++ f.storageColumn ++ ", " ++ Fragment.placeholderList count ++ ")")
    | op => setComparison? f.storageColumn op
  else
    match op with
    | .notEqual => some (inequalityColumn marker f ++ " <> ?")
    | .search => none
    | op => some (Condition.compareText f.storageColumn op count)

/-- A fragment that compares the field of a predicate with its operand. -/
structure States (marker : String) (p : Predicate) (g : Fragment) : Prop where
  bound : p.field.bindAll p.operand.values = .ok g.params
  nonempty : g.params ≠ []
  single : p.operator ≠ .oneOf → ∃ q, g.params = [q]
  text : comparisonText? marker p.field p.operator g.params.length = some g.sql

/-- The fragment of an operator with one value. -/
theorem states_of_bindSingle {marker : String} {p : Predicate} {sql : String} {q : Param}
    (h : p.field.bindSingle p.operator p.operand = .ok q)
    (ht : comparisonText? marker p.field p.operator 1 = some sql) :
    p.States marker ⟨sql, [q]⟩ :=
  ⟨Field.bindAll_of_bindSingle h, List.cons_ne_nil q [], fun _ => ⟨q, rfl⟩, ht⟩

theorem states_of_setFragment {marker : String} {p : Predicate} {g : Fragment}
    (hm : p.field.isMultiValue = true)
    (h : setFragment p.field p.operator p.operand = .ok g) : p.States marker g := by
  unfold setFragment at h
  split at h
  · next hop =>
    obtain ⟨ps, hps, h⟩ := bind_eq_ok.mp h
    dsimp only at h
    split at h
    · cases h
    · next hne =>
      cases h
      refine ⟨hps, fun h => hne (List.isEmpty_iff.mpr h), fun h => absurd hop h, ?_⟩
      unfold comparisonText?
      rw [if_pos hm, hop]
  · next hop =>
    split at h
    · next sql hsql =>
      obtain ⟨q, hq, rfl⟩ := map_eq_ok.mp h
      apply states_of_bindSingle hq
      unfold comparisonText?
      rw [if_pos hm]
      split
      · next h => exact absurd h hop
      · exact hsql
    · cases h

theorem states_of_inequality {marker : String} {p : Predicate} {g : Fragment}
    (hm : p.field.isMultiValue = false) (hop : p.operator = .notEqual)
    (h : inequalityFragment marker p.field p.operand = .ok g) : p.States marker g := by
  obtain ⟨q, hq, rfl⟩ := map_eq_ok.mp h
  rw [← hop] at hq
  apply states_of_bindSingle hq
  unfold comparisonText?
  rw [hm, hop]
  rfl

/-! ## Forms -/

/-- What the form of a predicate can be. -/
theorem form_eq_ok {marker : String} {p : Predicate} {form : PredicateForm}
    (h : p.form marker = .ok form) :
    (p.operator = .search ∧ ∃ ts, matchTerms p.field p.operand = .ok ts ∧
        form = .search (.column p.field.storageColumn) ts) ∨
      (p.operator ≠ .search ∧ ∃ g, form = .fragment g ∧ p.States marker g) ∨
      (p.operator ≠ .search ∧ p.operator ≠ .notEqual ∧ p.field.isMultiValue = false ∧
        form = .comparison p) := by
  unfold Predicate.form at h
  split at h
  · next hop =>
    obtain ⟨ts, hts, rfl⟩ := map_eq_ok.mp h
    exact .inl ⟨hop, ts, hts, rfl⟩
  · next hsearch =>
    split at h
    · next hm =>
      obtain ⟨g, hg, rfl⟩ := map_eq_ok.mp h
      exact .inr (.inl ⟨hsearch, g, rfl, states_of_setFragment hm hg⟩)
    · next hm =>
      have hm := eq_false_of_ne_true hm
      split at h
      · next hop =>
        obtain ⟨g, hg, rfl⟩ := map_eq_ok.mp h
        exact .inr (.inl ⟨hsearch, g, rfl, states_of_inequality hm hop hg⟩)
      · next hne =>
        cases h
        exact .inr (.inr ⟨hsearch, hne, hm, rfl⟩)

theorem states_of_form {marker : String} {p : Predicate} {g : Fragment}
    (h : p.form marker = .ok (.fragment g)) : p.States marker g := by
  rcases form_eq_ok h with ⟨-, ts, -, h⟩ | ⟨-, g', h, hg⟩ | ⟨-, -, -, h⟩
  · cases h
  · cases h
    exact hg
  · cases h

theorem eq_of_form_comparison {marker : String} {p p' : Predicate}
    (h : p.form marker = .ok (.comparison p')) :
    p' = p ∧ p.operator ≠ .search ∧ p.operator ≠ .notEqual ∧ p.field.isMultiValue = false := by
  rcases form_eq_ok h with ⟨-, ts, -, h⟩ | ⟨-, g', h, -⟩ | ⟨hs, hn, hm, h⟩
  · cases h
  · cases h
  · cases h
    exact ⟨rfl, hs, hn, hm⟩

/-- A comparison of the base query compares the column with the operand's values. -/
theorem ofLookup_eq_ok {f : Field} {op : Operator} {x : Operand} {c : Condition}
    (h : Condition.ofLookup f op x = .ok c) :
    ∃ ps, f.bindAll x.values = .ok ps ∧ ps ≠ [] ∧ (op ≠ .oneOf → ∃ q, ps = [q]) ∧
      op ≠ .search ∧ op ≠ .notEqual ∧ c = .compare f.storageColumn op ps := by
  have hsingle : ∀ {op : Operator}, op ≠ .search → op ≠ .notEqual →
      ((f.bindSingle op x).map fun p => Condition.compare f.storageColumn op [p]) = .ok c →
      ∃ ps, f.bindAll x.values = .ok ps ∧ ps ≠ [] ∧ (op ≠ .oneOf → ∃ q, ps = [q]) ∧
        op ≠ .search ∧ op ≠ .notEqual ∧ c = .compare f.storageColumn op ps := by
    intro op hs hn h
    obtain ⟨p, hp, rfl⟩ := map_eq_ok.mp h
    exact ⟨[p], Field.bindAll_of_bindSingle hp, List.cons_ne_nil p [], fun _ => ⟨p, rfl⟩, hs, hn,
      rfl⟩
  cases op with
  | oneOf =>
    unfold Condition.ofLookup at h
    dsimp only at h
    split at h
    · cases h
    · next hne =>
      obtain ⟨ps, hps, rfl⟩ := map_eq_ok.mp h
      refine ⟨ps, hps, ?_, fun h => absurd rfl h, by decide, by decide, rfl⟩
      rintro rfl
      have hlen := Field.length_of_bindAll hps
      exact hne (List.isEmpty_iff.mpr (List.eq_nil_of_length_eq_zero hlen.symm))
  | exact => exact hsingle (by decide) (by decide) h
  | greater => exact hsingle (by decide) (by decide) h
  | greaterEqual => exact hsingle (by decide) (by decide) h
  | less => exact hsingle (by decide) (by decide) h
  | lessEqual => exact hsingle (by decide) (by decide) h
  | search => cases h
  | notEqual => cases h

theorem states_of_ofLookup {marker : String} {p : Predicate} {c : Condition}
    (hm : p.field.isMultiValue = false)
    (h : Condition.ofLookup p.field p.operator p.operand = .ok c) :
    p.States marker c.toFragment := by
  obtain ⟨ps, hps, hne, hsingle, hs, hn, rfl⟩ := ofLookup_eq_ok h
  rw [Condition.toFragment]
  refine ⟨hps, hne, hsingle, ?_⟩
  unfold comparisonText?
  rw [hm, if_neg Bool.false_ne_true]
  split
  · next h => exact absurd h hn
  · next h => exact absurd h hs
  · rfl

end Predicate

end IndexQuery
