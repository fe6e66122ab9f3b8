import IndexQuery.Proofs.Reading.Meaning
import IndexQuery.Proofs.Scan.Statement

/-!
# Reading statements

The condition of a reachable query is read as a formula that holds whenever the calls mean that it
should, and its parameters stand in the order of the comparisons that they belong to.

    (us.flatMap Update.conjuncts).Perm (conditions us ++ fragments us)           (perm_conjuncts)
    q₀.applyAll cs = .ok q → q.compile = .ok ⟨select ++ " WHERE " ++ w ++ tail, ps⟩ where
      (read (fill ps (ofText w))).eval v = (i.meaning cs).eval v              (reads_of_applyAll)
-/

namespace IndexQuery

open Text Outcome Token

/-! ## Search terms -/

theorem Statement.says_match (text : String) :
    (⟨"MATCH(?)", [.string text]⟩ : Fragment).Says
        (.atom [.word "MATCH".toList, .opening, .value (.string text), .closing]) ∧
      unsplitFrom isOr 0 (⟨"MATCH(?)", [.string text]⟩ : Fragment).bound = true := by
  have hmatch : IsComparison (ofText "MATCH(?)") 1 :=
    ⟨⟨by decide, _, _, rfl, by decide⟩, by decide⟩
  have htokens : ofText "MATCH(?)" = [.word "MATCH".toList, .opening, .mark, .closing] := by decide
  have hbound : (⟨"MATCH(?)", [.string text]⟩ : Fragment).bound =
      [.word "MATCH".toList, .opening, .value (.string text), .closing] := by
    unfold Fragment.bound
    rw [htokens]
    rfl
  have hclaim := Fragment.says_of_isComparison (f := ⟨"MATCH(?)", [.string text]⟩) hmatch
  rw [← hbound]
  exact ⟨hclaim, (hmatch.toIsAtom.fill [.string text]).noOr⟩

/-- The search terms are rendered as the condition that they mean. -/
theorem Statement.renders_matchFragment (bs : List (MatchScope × List String)) :
    (matchFragment (MatchExpr.ofSearches bs)).Renders (matchConjunct bs) ∧
      unsplitFrom isOr 0 (matchFragment (MatchExpr.ofSearches bs)).bound = true := by
  have hempty := MatchExpr.isEmpty_ofSearches bs
  unfold matchFragment matchConjunct
  cases h : (MatchExpr.ofSearches bs).isEmpty with
  | true =>
    have hnone : (MatchExpr.ofSearches bs).queryText? = none := if_pos h
    rw [h] at hempty
    rw [hnone, if_neg fun hex => Bool.noConfusion (hempty.mpr hex)]
    exact ⟨rfl, rfl⟩
  | false =>
    have hsome : (MatchExpr.ofSearches bs).queryText? =
        some (" ".intercalate ((MatchExpr.ofSearches bs).scopes.map MatchExpr.groupText)) :=
      if_neg (by rw [h]; decide)
    rw [hsome, if_pos (hempty.mp h)]
    exact says_match _

/-! ## Conditions in the order of the statement -/

/-- A statement holds the conditions of the base query first and then the fragments. -/
theorem perm_conjuncts (us : List Update) :
    (us.flatMap Update.conjuncts).Perm
      ((us.filterMap Update.condition?).filterMap (fun c => c.formula.prune) ++
        (us.filterMap Update.fragment?).filterMap fun f => some (.atom f.bound)) := by
  induction us with
  | nil => exact List.Perm.nil
  | cons u us ih =>
    rw [List.flatMap_cons]
    cases u with
    | condition c =>
      have hc : (Update.condition c :: us).filterMap Update.condition? =
          c :: us.filterMap Update.condition? := rfl
      rw [hc, Fragment.filterMap_cons_toList, List.append_assoc]
      exact ih.append_left _
    | fragment f => exact (ih.cons _).trans List.perm_middle.symm
    | _ => exact ih

/-- Formulas in another order hold alike together. -/
theorem eval_all_perm {φs ψs : List (Formula (List Token))} (h : φs.Perm ψs)
    (v : List Token → Bool) : (Formula.all φs).eval v = (Formula.all ψs).eval v := by
  rw [Formula.eval_all, Formula.eval_all, Bool.eq_iff_iff, List.all_eq_true, List.all_eq_true]
  constructor
  · intro hall φ hφ
    exact hall φ (h.mem_iff.mpr hφ)
  · intro hall φ hφ
    exact hall φ (h.mem_iff.mp hφ)

namespace Index

variable {i : Index}

namespace Reaches

variable {us : List Update} {q : Query}

/-- The conditions that a reachable query holds, in the order of its statement. -/
def statedConjuncts (us : List Update) : List (Formula (List Token)) :=
  (us.filterMap Update.condition?).filterMap (fun c => c.formula.prune) ++
    (us.filterMap Update.fragment?).filterMap (fun f => some (.atom f.bound)) ++
      (matchConjunct (us.flatMap Update.searches)).toList

theorem conjoins_joined (hi : i.Valid) (hr : i.Readable) (h : i.Reaches us q) :
    (Statement.joined q.base q.clauses).Conjoins (statedConjuncts us) := by
  have hwhere : q.base.whereFragment.Conjoins
      ((us.filterMap Update.condition?).filterMap fun c => c.formula.prune) := by
    unfold Select.whereFragment
    rw [h.conditions]
    apply Fragment.conjoins_conjunction
    intro c hc
    obtain ⟨u, hu, huc⟩ := List.mem_filterMap.mp hc
    have hfrom := h.origin u hu
    cases u with
    | condition c' =>
      cases huc
      exact c.renders_toFragment fun l hl => isComparison_of_compares hi hr (hfrom l hl)
    | _ => cases huc
  have hfragments : (q.clauses.fragments.foldl Fragment.and q.base.whereFragment).Conjoins
      ((us.filterMap Update.condition?).filterMap (fun c => c.formula.prune) ++
        (us.filterMap Update.fragment?).filterMap fun f => some (.atom f.bound)) := by
    have hmap : q.clauses.fragments = (us.filterMap Update.fragment?).map id := by
      rw [List.map_id, h.fragments]
    rw [hmap]
    refine Fragment.conjoins_foldl (fun f hf => ?_) hwhere
    obtain ⟨u, hu, huf⟩ := List.mem_filterMap.mp hf
    have hfrom := h.origin u hu
    cases u with
    | fragment g =>
      cases huf
      have hcomparison := isComparison_of_compares hi hr hfrom
      exact ⟨Fragment.says_of_isComparison hcomparison, (hcomparison.toIsAtom.fill _).noOr⟩
    | _ => cases huf
  have hmatching : q.clauses.matching = MatchExpr.ofSearches (us.flatMap Update.searches) := by
    rw [h.matching, ← Update.flatMap_searches]
    rfl
  obtain ⟨hmatch, hOr⟩ := Statement.renders_matchFragment (us.flatMap Update.searches)
  unfold Statement.joined
  rw [hmatching]
  exact hfragments.and hmatch hOr

end Reaches

/-- Every condition that a query holds has an atom. -/
theorem atoms_ne_nil_of_mem_statedConjuncts {us : List Update} {φ : Formula (List Token)}
    (h : φ ∈ Reaches.statedConjuncts us) : φ.atoms ≠ [] := by
  rcases List.mem_append.mp h with h | h
  · rcases List.mem_append.mp h with h | h
    · obtain ⟨c, -, hc⟩ := List.mem_filterMap.mp h
      exact Formula.atoms_ne_nil_of_prune hc
    · obtain ⟨f, -, hf⟩ := List.mem_filterMap.mp h
      cases hf
      simp
  · unfold matchConjunct at h
    split at h
    · obtain rfl := List.mem_singleton.mp h
      simp
    · cases h

/-- The conditions that a reachable query holds are those that the updates add, and that of their
search terms. -/
theorem Reaches.perm_statedConjuncts_updates (us : List Update) : (statedConjuncts us).Perm
    (us.flatMap Update.conjuncts ++ (matchConjunct (us.flatMap Update.searches)).toList) :=
  (perm_conjuncts us).symm.append_right _

/-- A run's conditions are those that its calls mean. -/
theorem perm_statedConjuncts {cs : List Call} {us : List Update}
    (h : collect i.updates cs = .ok us) : (Reaches.statedConjuncts us).Perm
      (cs.flatMap i.conjuncts ++ (matchConjunct (cs.flatMap i.searches)).toList) := by
  have hadds := adds_collect adds_updates h
  rw [← hadds.conjuncts, ← hadds.searches]
  exact Reaches.perm_statedConjuncts_updates us

/-- The text behind WHERE is read as a formula that agrees with what the calls mean, its comparisons
are those of the calls, and each has its own parameters; without comparisons there is no WHERE. -/
theorem reads_of_applyAll (hi : i.Valid) (hr : i.Readable) {q₀ q : Query}
    (hq₀ : i.query = .ok q₀) {cs : List Call} (hq : q₀.applyAll cs = .ok q) :
    ∃ s w, q.compile = .ok s ∧
      s.sql = q.base.selectClause ++
        (if (i.meaning cs).atoms = [] then "" else " WHERE " ++ w) ++
        Statement.trailing q.base.tailClause? ++ Statement.trailing q.clauses.options.clause? ∧
      ((i.meaning cs).atoms = [] → s.params = []) ∧
      ((i.meaning cs).atoms ≠ [] →
        (∀ v, (read (fill s.params (ofText w))).eval v = (i.meaning cs).eval v) ∧
        (read (fill s.params (ofText w))).atoms.Perm (i.meaning cs).atoms ∧
        (read (fill s.params (ofText w))).atoms.flatMap params = s.params) := by
  obtain ⟨us, hus, h⟩ := reaches_of_applyAll hi hq₀ hq
  have hjoined := (h.conjoins_joined hi hr).renders
  have hperm := perm_statedConjuncts hus
  have hatoms : ((Reaches.statedConjuncts us).flatMap Formula.atoms).Perm (i.meaning cs).atoms := by
    unfold meaning
    rw [Formula.atoms_all]
    exact hperm.flatMap_right Formula.atoms
  refine ⟨_, (Statement.joined q.base q.clauses).sql, h.compile_eq hi, ?_⟩
  cases hstated : Reaches.statedConjuncts us with
  | nil =>
    rw [hstated] at hjoined hatoms
    have hempty : Statement.joined q.base q.clauses = .empty := hjoined
    have hnil : (i.meaning cs).atoms = [] := hatoms.symm.eq_nil
    refine ⟨?_, fun _ => by rw [hempty]; rfl, fun hne => absurd hnil hne⟩
    rw [hempty, if_pos hnil]
    rfl
  | cons φ φs =>
    have hne : (i.meaning cs).atoms ≠ [] := by
      intro hnil
      rw [hnil, hstated, List.flatMap_cons] at hatoms
      have hφ : φ ∈ Reaches.statedConjuncts us := hstated ▸ List.mem_cons_self
      exact atoms_ne_nil_of_mem_statedConjuncts hφ (List.append_eq_nil_iff.mp hatoms.eq_nil).1
    rw [hstated] at hjoined
    have hclaim : (Statement.joined q.base q.clauses).Says (.all (φ :: φs)) := hjoined
    have hsql : (Statement.joined q.base q.clauses).isEmpty = false := by
      simpa [Fragment.isEmpty] using hclaim.sql_ne_empty
    have hread := hclaim.reads.read
    refine ⟨?_, fun hnil => absurd hnil hne, fun _ => ⟨fun v => ?_, ?_, ?_⟩⟩
    · unfold Statement.text
      rw [hsql, if_neg hne, if_neg Bool.false_ne_true]
    · exact (hread.2 v).trans (eval_all_perm (hstated ▸ hperm) v)
    · rw [hstated, ← Formula.atoms_all] at hatoms
      exact (List.Perm.of_eq hread.1).trans hatoms
    · exact (params_atoms_readTo _ _).trans (params_fill_ofText hclaim.count)

theorem products_readable : products.Readable := by
  refine ⟨by decide, by decide, fun c hc => ?_⟩
  cases List.mem_singleton.mp hc
  decide

theorem products_reads : ∃ q₀ q s w, products.query = .ok q₀ ∧
    q₀.applyAll productsCalls = .ok q ∧ q.compile = .ok s ∧
    (products.meaning productsCalls).atoms ≠ [] ∧
    ∀ v, (read (fill s.params (ofText w))).eval v = (products.meaning productsCalls).eval v := by
  obtain ⟨o, ho, hquery⟩ := query_eq_ok products_valid
  cases ho
  obtain ⟨s, w, hs, -, -, hread⟩ := reads_of_applyAll products_valid products_readable hquery
    (rfl : Query.applyAll _ productsCalls = .ok _)
  have hatoms : (products.meaning productsCalls).atoms ≠ [] := by decide
  exact ⟨_, _, s, w, hquery, rfl, hs, hatoms, (hread hatoms).1⟩

end Index

end IndexQuery
