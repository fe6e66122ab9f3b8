import IndexQuery.Filter
import IndexQuery.Proofs.Outcome
import IndexQuery.Proofs.Predicate

/-!
# Groups of conditions and of filters

Conditions and filters are trees with lists of subtrees.  Induction over such a tree has one case
for each constructor, and assumes the claim for every member of a group.

    toFragments cs = cs.map toFragment, toConditions r m fs = fs.mapM (toCondition r m)
    KeptByJoining P → (∀ l ∈ c.leaves, P l.toFragment) → P c.toFragment              (of_leaves)
-/

namespace IndexQuery

open Outcome

/-! ## Conditions -/

namespace Condition

@[elab_as_elim, induction_eliminator]
theorem induction {motive : Condition → Prop}
    (compare : ∀ column op params, motive (.compare column op params))
    (raw : ∀ f, motive (.raw f))
    (all : ∀ cs, (∀ c ∈ cs, motive c) → motive (.all cs))
    (any : ∀ cs, (∀ c ∈ cs, motive c) → motive (.any cs)) (c : Condition) : motive c :=
  @Condition.rec motive (fun cs => ∀ c ∈ cs, motive c)
    compare raw all any (fun _ hc => absurd hc List.not_mem_nil)
    (fun _ _ hc hcs d hd => by
      rcases List.mem_cons.mp hd with rfl | hd
      · exact hc
      · exact hcs d hd) c

mutual

/-- The comparisons and given fragments of a condition, from left to right. -/
def leaves : Condition → List Condition
  | .compare column op params => [.compare column op params]
  | .raw f => [.raw f]
  | .all cs => leavesAll cs
  | .any cs => leavesAll cs

/-- The leaves of a list of conditions. -/
def leavesAll : List Condition → List Condition
  | [] => []
  | c :: cs => c.leaves ++ leavesAll cs

end

theorem leavesAll_eq_flatMap (cs : List Condition) : leavesAll cs = cs.flatMap leaves := by
  induction cs with
  | nil => rfl
  | cons c cs ih => rw [leavesAll, ih, List.flatMap_cons]

theorem leaves_all (cs : List Condition) : (all cs).leaves = cs.flatMap leaves := by
  rw [leaves, leavesAll_eq_flatMap]

theorem leaves_any (cs : List Condition) : (any cs).leaves = cs.flatMap leaves := by
  rw [leaves, leavesAll_eq_flatMap]

theorem toFragment_all (cs : List Condition) :
    (all cs).toFragment = .conjunction (cs.map toFragment) := by
  rw [toFragment, toFragments_eq_map]

theorem toFragment_any (cs : List Condition) :
    (any cs).toFragment = .disjunction (cs.map toFragment) := by
  rw [toFragment, toFragments_eq_map]

end Condition

/-! ## Rendered conditions -/

/-- What every way to join fragments keeps. -/
structure Fragment.KeptByJoining (P : Fragment → Prop) : Prop where
  empty : P .empty
  and : ∀ {f g}, P f → P g → P (f.and g)
  or : ∀ {f g}, P f → P g → P (f.or g)
  parenthesize : ∀ {f}, P f → P f.parenthesize

namespace Fragment.KeptByJoining

variable {P : Fragment → Prop}

theorem foldl {join : Fragment → Fragment → Fragment} (hjoin : ∀ {f g}, P f → P g → P (join f g))
    {fs : List Fragment} (hfs : ∀ f ∈ fs, P f) {f : Fragment} (hf : P f) :
    P (fs.foldl join f) := by
  induction fs generalizing f with
  | nil => exact hf
  | cons g fs ih =>
    exact ih (fun h hh => hfs h (List.mem_cons_of_mem g hh)) (hjoin hf (hfs g List.mem_cons_self))

theorem conjunction (hP : KeptByJoining P) {fs : List Fragment} (h : ∀ f ∈ fs, P f) :
    P (Fragment.conjunction fs) := by
  refine foldl hP.and (fun f hf => ?_) hP.empty
  obtain ⟨g, hg, rfl⟩ := List.mem_map.mp hf
  exact hP.parenthesize (h g hg)

theorem disjunction (hP : KeptByJoining P) {fs : List Fragment} (h : ∀ f ∈ fs, P f) :
    P (Fragment.disjunction fs) := by
  cases fs with
  | nil => exact hP.empty
  | cons f fs =>
    exact foldl hP.or (fun g hg => h g (List.mem_cons_of_mem f hg)) (h f List.mem_cons_self)

/-- A rendered condition has what its leaves have. -/
theorem of_leaves (hP : KeptByJoining P) (c : Condition) (h : ∀ l ∈ c.leaves, P l.toFragment) :
    P c.toFragment := by
  induction c with
  | compare column op params => exact h _ (List.mem_singleton_self _)
  | raw f => exact h _ (List.mem_singleton_self _)
  | all cs ih =>
    rw [Condition.leaves_all] at h
    rw [Condition.toFragment_all]
    apply hP.conjunction
    intro f hf
    obtain ⟨c, hc, rfl⟩ := List.mem_map.mp hf
    exact ih c hc fun l hl => h l (List.mem_flatMap.mpr ⟨c, hc, hl⟩)
  | any cs ih =>
    rw [Condition.leaves_any] at h
    rw [Condition.toFragment_any]
    apply hP.disjunction
    intro f hf
    obtain ⟨c, hc, rfl⟩ := List.mem_map.mp hf
    exact ih c hc fun l hl => h l (List.mem_flatMap.mpr ⟨c, hc, hl⟩)

end Fragment.KeptByJoining

/-! ## Filters -/

namespace Filter

@[elab_as_elim, induction_eliminator]
theorem induction {motive : Filter → Prop} (lookup : ∀ key x, motive (.lookup key x))
    (all : ∀ fs, (∀ f ∈ fs, motive f) → motive (.all fs))
    (any : ∀ fs, (∀ f ∈ fs, motive f) → motive (.any fs)) (f : Filter) : motive f :=
  @Filter.rec motive (fun fs => ∀ f ∈ fs, motive f)
    lookup all any (fun _ hf => absurd hf List.not_mem_nil)
    (fun _ _ hf hfs g hg => by
      rcases List.mem_cons.mp hg with rfl | hg
      · exact hf
      · exact hfs g hg) f

theorem toConditions_eq_mapM (r : Resolver) (marker : String) (fs : List Filter) :
    toConditions r marker fs = fs.mapM (toCondition r marker) := by
  induction fs with
  | nil => rfl
  | cons f fs ih => rw [toConditions, ih, List.mapM_cons]

theorem toCondition_all_eq_ok {r : Resolver} {marker : String} {fs : List Filter}
    {c : Condition} (h : (all fs).toCondition r marker = .ok c) :
    ∃ cs, fs.mapM (toCondition r marker) = .ok cs ∧ c = .all cs := by
  rw [toCondition, toConditions_eq_mapM] at h
  obtain ⟨cs, hcs, rfl⟩ := map_eq_ok.mp h
  exact ⟨cs, hcs, rfl⟩

theorem toCondition_any_eq_ok {r : Resolver} {marker : String} {fs : List Filter}
    {c : Condition} (h : (any fs).toCondition r marker = .ok c) :
    ∃ cs, fs.mapM (toCondition r marker) = .ok cs ∧ c = .any cs := by
  rw [toCondition, toConditions_eq_mapM] at h
  obtain ⟨cs, hcs, rfl⟩ := map_eq_ok.mp h
  exact ⟨cs, hcs, rfl⟩

/-- The condition for a lookup of a group: a comparison, or the fragment that the predicate takes
as its form. -/
theorem lookupCondition_eq_ok {r : Resolver} {marker key : String} {x : Operand}
    {c : Condition} (h : lookupCondition r marker key x = .ok c) :
    ∃ f op, r.resolve key = .ok (f, op) ∧
      ((∃ g, Predicate.form marker ⟨f, op, x⟩ = .ok (.fragment g) ∧ c = .raw g) ∨
        (Predicate.form marker ⟨f, op, x⟩ = .ok (.comparison ⟨f, op, x⟩) ∧
          Condition.ofLookup f op x = .ok c)) := by
  obtain ⟨⟨f, op⟩, hr, h⟩ := bind_eq_ok.mp h
  obtain ⟨form, hform, h⟩ := bind_eq_ok.mp h
  refine ⟨f, op, hr, ?_⟩
  cases form with
  | fragment g =>
    cases h
    exact .inl ⟨g, hform, rfl⟩
  | search scope ts => cases h
  | comparison p =>
    obtain ⟨rfl, -⟩ := Predicate.eq_of_form_comparison hform
    exact .inr ⟨hform, h⟩

end Filter

end IndexQuery
