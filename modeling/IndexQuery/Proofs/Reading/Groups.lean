import IndexQuery.Proofs.Reading.Statement
import Mathlib.Data.List.Nodup

/-!
# Groups without members

A conjunction without members holds and a disjunction without members does not.  A statement leaves
both out, as if they were not there, so the condition of a filter is its tree after pruning.  That
is what the tree says as long as every group left out would not have changed the group it stands
in: it holds within a conjunction, and fails within a disjunction.

    f.keeps c → f.prunedEval c v = f.eval v                            (prunedEval_of_keeps)
    f.atoms.Nodup → ¬ f.keeps c → ∃ v, f.prunedEval c v ≠ f.eval v    (exists_prunedEval_ne)
    q₀.filterBy f = .ok q → the condition of q holds as (f.meaning i).prunedEval true says
                                                                          (filterBy_reads)
-/

namespace IndexQuery

open Text Outcome Token

namespace Formula

variable {α : Type}

/-! ## Algorithm -/

/-- A conjunction for `true` and a disjunction for `false`: the group that has the value `c` exactly
if every member has. -/
def gather : Bool → List (Formula α) → Formula α
  | true => .all
  | false => .any

/-- The value of what pruning leaves of a formula, `c` if it leaves nothing. -/
def prunedEval (c : Bool) (v : α → Bool) (f : Formula α) : Bool := f.prune.elim c (eval v)

mutual

/-- Whether each group without atoms has the value that does not count in the group around it. -/
def faithful : Formula α → Bool
  | .atom _ => true
  | .all fs => faithfulAll true fs
  | .any fs => faithfulAll false fs

/-- Whether the formulas of a list are faithful as members of a group. -/
def faithfulAll (c : Bool) : List (Formula α) → Bool
  | [] => true
  | f :: fs =>
    (if f.atoms.isEmpty then eval (fun _ => c) f == c else faithful f) && faithfulAll c fs

end

/-- Whether a formula is faithful as a member of a group: without atoms it has the value that does
not count there. -/
def keeps (c : Bool) (f : Formula α) : Bool :=
  if f.atoms.isEmpty then f.eval (fun _ => c) == c else f.faithful

/-! ## Groups -/

/-- Two truth values are the same if one is `c` exactly when the other is. -/
theorem eq_of_eq_iff {a b c : Bool} (h : a = c ↔ b = c) : a = b := by
  revert h
  cases a <;> cases b <;> cases c <;> decide

/-- Induction with one case for both kinds of groups. -/
theorem gather_induction {motive : Formula α → Prop} (atom : ∀ a, motive (.atom a))
    (gather : ∀ c fs, (∀ f ∈ fs, motive f) → motive (gather c fs)) (f : Formula α) : motive f := by
  induction f with
  | atom a => exact atom a
  | all fs ih => exact gather true fs ih
  | any fs ih => exact gather false fs ih

theorem faithfulAll_eq_all (c : Bool) (fs : List (Formula α)) :
    faithfulAll c fs = fs.all (keeps c) := by
  induction fs with
  | nil => rfl
  | cons f fs ih => rw [faithfulAll, ih, List.all_cons, keeps]

theorem faithful_gather (c : Bool) (fs : List (Formula α)) :
    (gather c fs).faithful = fs.all (keeps c) := by
  rw [← faithfulAll_eq_all]
  cases c <;> rw [gather, faithful]

theorem atoms_gather (c : Bool) (fs : List (Formula α)) :
    (gather c fs).atoms = fs.flatMap atoms := by
  cases c
  · exact atoms_any fs
  · exact atoms_all fs

theorem prune_gather (c : Bool) (fs : List (Formula α)) :
    (gather c fs).prune = group? (gather c) (fs.filterMap prune) := by
  cases c
  · exact prune_any fs
  · exact prune_all fs

theorem eval_gather_eq_iff (c : Bool) (fs : List (Formula α)) (v : α → Bool) :
    (gather c fs).eval v = c ↔ ∀ f ∈ fs, f.eval v = c := by
  cases c
  · simp [gather]
  · simp [gather]

/-- What pruning leaves of a formula holds as a member of a conjunction, if it leaves anything. -/
theorem eval_all_prune (f : Formula α) (v : α → Bool) :
    (all f.prune.toList).eval v = f.prunedEval true v := by
  unfold prunedEval
  cases f.prune with
  | none => rfl
  | some g => simp

/-- Both kinds of groups are pruned member by member. -/
theorem prunedEval_gather_eq_iff (c : Bool) (fs : List (Formula α)) (v : α → Bool) :
    (gather c fs).prunedEval c v = c ↔ ∀ f ∈ fs, f.prunedEval c v = c := by
  have hgroup : ∀ gs : List (Formula α),
      (group? (gather c) gs).elim c (eval v) = c ↔ ∀ g ∈ gs, g.eval v = c := by
    intro gs
    cases gs with
    | nil => simp [group?]
    | cons g gs => exact eval_gather_eq_iff c (g :: gs) v
  unfold prunedEval
  rw [prune_gather, hgroup]
  constructor
  · intro h f hf
    cases hprune : f.prune with
    | none => rfl
    | some g => exact h g (List.mem_filterMap.mpr ⟨f, hf, hprune⟩)
  · intro h g hg
    obtain ⟨f, hf, hprune⟩ := List.mem_filterMap.mp hg
    have hvalue := h f hf
    rwa [hprune] at hvalue

/-! ## Values that only atoms decide -/

/-- A formula has the same value under assignments that agree on its atoms. -/
theorem eval_congr {f : Formula α} {v w : α → Bool} (h : ∀ a ∈ f.atoms, v a = w a) :
    f.eval v = f.eval w := by
  induction f using gather_induction with
  | atom a => simpa using h a
  | gather c fs ih =>
    rw [atoms_gather] at h
    have hmember : ∀ f ∈ fs, f.eval v = f.eval w := fun f hf =>
      ih f hf fun a ha => h a (List.mem_flatMap.mpr ⟨f, hf, ha⟩)
    have hiff : (gather c fs).eval v = c ↔ (gather c fs).eval w = c := by
      rw [eval_gather_eq_iff, eval_gather_eq_iff]
      exact forall₂_congr fun f hf => by rw [hmember f hf]
    exact eq_of_eq_iff hiff

theorem prunedEval_of_atoms_eq_nil {f : Formula α} (h : f.atoms = []) (c : Bool) (v : α → Bool) :
    f.prunedEval c v = c := by
  unfold prunedEval
  rw [prune_eq_none_iff.mpr h]
  rfl

/-- If an atom remains, so does a value. -/
theorem prunedEval_of_atoms_ne_nil {f : Formula α} (h : f.atoms ≠ []) (c d : Bool)
    (v : α → Bool) : f.prunedEval c v = f.prunedEval d v := by
  unfold prunedEval
  cases hprune : f.prune with
  | none => exact absurd (prune_eq_none_iff.mp hprune) h
  | some g => rfl

theorem prunedEval_congr {f : Formula α} {v w : α → Bool} (h : ∀ a ∈ f.atoms, v a = w a)
    (c : Bool) : f.prunedEval c v = f.prunedEval c w := by
  unfold prunedEval
  cases hprune : f.prune with
  | none => rfl
  | some g =>
    have hatoms : g.atoms = f.atoms := by
      have := f.atoms_prune
      rwa [hprune, Option.toList_some, List.flatMap_singleton] at this
    exact eval_congr fun a ha => h a (hatoms ▸ ha)

/-- Groups without atoms being left out, a formula has the value that all atoms have. -/
theorem prunedEval_const (c : Bool) (f : Formula α) : f.prunedEval c (fun _ => c) = c := by
  induction f using gather_induction with
  | atom a => simp [prunedEval, prune]
  | gather d fs ih =>
    by_cases hatoms : (gather d fs).atoms = []
    · exact prunedEval_of_atoms_eq_nil hatoms c _
    · rw [prunedEval_of_atoms_ne_nil hatoms c d]
      by_cases hd : d = c
      · subst hd
        exact (prunedEval_gather_eq_iff d fs _).mpr ih
      · -- One member with an atom has the value `c`, which decides the group.
        have hmember : ∃ f ∈ fs, f.atoms ≠ [] := by
          by_contra hall
          apply hatoms
          rw [atoms_gather, List.flatMap_eq_nil_iff]
          exact fun f hf => by_contra fun hne => hall ⟨f, hf, hne⟩
        obtain ⟨f, hf, hne⟩ := hmember
        have hvalue : (gather d fs).prunedEval d (fun _ => c) ≠ d := by
          rw [Ne, prunedEval_gather_eq_iff]
          intro hmembers
          have hf' := hmembers f hf
          rw [prunedEval_of_atoms_ne_nil hne d c, ih f hf] at hf'
          exact hd hf'.symm
        rw [Bool.eq_not_of_ne hvalue, Bool.eq_not_of_ne hd, Bool.not_not]

/-! ## Faithful formulas -/

/-- A faithful member of a group counts there as it does after pruning. -/
theorem prunedEval_of_keeps {f : Formula α} {c : Bool} (h : f.keeps c = true) (v : α → Bool) :
    f.prunedEval c v = f.eval v := by
  induction f using gather_induction generalizing c with
  | atom a => simp [prunedEval, prune]
  | gather d fs ih =>
    unfold keeps at h
    split at h
    · next hatoms =>
      have hnil : (gather d fs).atoms = [] := List.isEmpty_iff.mp hatoms
      have hvalue : (gather d fs).eval v = (gather d fs).eval fun _ => c :=
        eval_congr fun a ha => absurd (hnil ▸ ha) List.not_mem_nil
      rw [prunedEval_of_atoms_eq_nil hnil, hvalue, beq_iff_eq.mp h]
    · next hatoms =>
      have hne : (gather d fs).atoms ≠ [] := fun hnil => hatoms (List.isEmpty_iff.mpr hnil)
      rw [faithful_gather, List.all_eq_true] at h
      rw [prunedEval_of_atoms_ne_nil hne c d]
      apply eq_of_eq_iff (c := d)
      rw [prunedEval_gather_eq_iff, eval_gather_eq_iff]
      exact forall₂_congr fun f hf => by rw [ih f hf (h f hf)]

/-- A group whose other members have the value that does not count has the value of the one. -/
theorem forall_eq_iff_of_single {c : Bool} {pre post : List (Formula α)} {g : Formula α}
    {value : Formula α → Bool} (hpre : ∀ f ∈ pre, value f = c) (hpost : ∀ f ∈ post, value f = c) :
    (∀ f ∈ pre ++ g :: post, value f = c) ↔ value g = c := by
  constructor
  · intro h
    exact h g (List.mem_append_right pre List.mem_cons_self)
  · intro hg f hf
    rcases List.mem_append.mp hf with hf | hf
    · exact hpre f hf
    · rcases List.mem_cons.mp hf with rfl | hf
      · exact hg
      · exact hpost f hf

/-- A member of a group that is told from what pruning leaves of it tells the group from what
pruning leaves, if the others share no atom with it and do not count when all atoms have the value
`c`. -/
theorem exists_gather_ne {c : Bool} {pre post : List (Formula α)} {g : Formula α}
    (hothers : ∀ f, f ∈ pre ∨ f ∈ post → f.atoms.Disjoint g.atoms ∧ f.eval (fun _ => c) = c)
    {v : α → Bool} (hv : g.prunedEval c v ≠ g.eval v) :
    ∃ w, (gather c (pre ++ g :: post)).prunedEval c w ≠ (gather c (pre ++ g :: post)).eval w := by
  classical
  let w : α → Bool := fun a => if a ∈ g.atoms then v a else c
  have hg : ∀ a ∈ g.atoms, w a = v a := fun a ha => if_pos ha
  have hother : ∀ f, f ∈ pre ∨ f ∈ post → f.eval w = c ∧ f.prunedEval c w = c := by
    intro f hf
    obtain ⟨hdisjoint, hvalue⟩ := hothers f hf
    have hw : ∀ a ∈ f.atoms, w a = c := fun a ha => if_neg fun hga => hdisjoint ha hga
    exact ⟨(eval_congr hw).trans hvalue, (prunedEval_congr hw c).trans (prunedEval_const c f)⟩
  have heval : (gather c (pre ++ g :: post)).eval w = c ↔ g.eval v = c := by
    rw [eval_gather_eq_iff, forall_eq_iff_of_single (fun f hf => (hother f (.inl hf)).1)
      (fun f hf => (hother f (.inr hf)).1), eval_congr hg]
  have hpruned : (gather c (pre ++ g :: post)).prunedEval c w = c ↔ g.prunedEval c v = c := by
    rw [prunedEval_gather_eq_iff, forall_eq_iff_of_single (fun f hf => (hother f (.inl hf)).2)
      (fun f hf => (hother f (.inr hf)).2), prunedEval_congr hg]
  refine ⟨w, fun heq => hv (eq_of_eq_iff (c := c) ?_)⟩
  rw [← heval, ← hpruned, heq]

/-- If no atom stands twice, a member of a group that is not faithful can be told from what pruning
leaves of it. -/
theorem exists_prunedEval_ne {f : Formula α} {c : Bool} (hn : f.atoms.Nodup)
    (h : f.keeps c = false) : ∃ v, f.prunedEval c v ≠ f.eval v := by
  induction f using gather_induction generalizing c with
  | atom a =>
    simp [keeps, faithful] at h
  | gather d fs ih =>
    unfold keeps at h
    split at h
    · next hatoms =>
      refine ⟨fun _ => c, ?_⟩
      rw [prunedEval_of_atoms_eq_nil (List.isEmpty_iff.mp hatoms)]
      exact fun heq => (beq_eq_false_iff_ne.mp h) heq.symm
    · next hatoms =>
      have hne : (gather d fs).atoms ≠ [] := fun hnil => hatoms (List.isEmpty_iff.mpr hnil)
      simp only [prunedEval_of_atoms_ne_nil hne c d]
      by_cases hconst : (gather d fs).eval (fun _ => d) = d
      · rw [faithful_gather, List.all_eq_false] at h
        obtain ⟨g, hg, hkeeps⟩ := h
        rw [atoms_gather] at hn
        obtain ⟨hmembers, hapart⟩ := List.nodup_flatMap.mp hn
        obtain ⟨v, hv⟩ := ih g hg (hmembers g hg) (Bool.eq_false_iff.mpr hkeeps)
        obtain ⟨pre, post, rfl⟩ := List.append_of_mem hg
        obtain ⟨-, hgroup, hpre⟩ := List.pairwise_append.mp hapart
        obtain ⟨hpost, -⟩ := List.pairwise_cons.mp hgroup
        rw [eval_gather_eq_iff] at hconst
        refine exists_gather_ne (fun f hf => ?_) hv
        rcases hf with hf | hf
        · exact ⟨hpre f hf g List.mem_cons_self, hconst f (List.mem_append_left _ hf)⟩
        · exact ⟨fun _ hfa hga => hpost f hf hga hfa,
            hconst f (List.mem_append_right _ (List.mem_cons_of_mem g hf))⟩
      · refine ⟨fun _ => d, ?_⟩
        rw [prunedEval_const]
        exact fun heq => hconst heq.symm

end Formula

/-! ## Filters -/

/-- What a filter says: its tree, in which a lookup that is no comparison is a search. -/
def Filter.meaning (i : Index) : Filter → Formula (List Token)
  | .lookup key x => .all (i.conjunct (i.resolver.resolve key) x ++
      (matchConjunct (Index.search (i.resolver.resolve key) x)).toList)
  | .all fs => .all (formulas i fs)
  | .any fs => .any (formulas i fs)

/-- Whether the condition behind WHERE holds, which it does if there is none. -/
def Statement.holds (condition : String) (params : List Param) (v : List Token → Bool) : Bool :=
  if condition = "" then true else (read (fill params (ofText condition))).eval v

/-- Groups of atoms are faithful. -/
theorem Formula.keeps_of_atoms {φs : List (Formula (List Token))}
    (h : ∀ φ ∈ φs, ∃ a, φ = .atom a) : (Formula.all φs).keeps true = true := by
  have hmembers : φs.all (keeps true) = true := by
    rw [List.all_eq_true]
    intro φ hφ
    obtain ⟨a, rfl⟩ := h φ hφ
    simp [keeps, faithful]
  unfold keeps
  split
  · next hatoms =>
    have hnil : φs = [] := by
      cases φs with
      | nil => rfl
      | cons φ φs =>
        obtain ⟨a, rfl⟩ := h φ List.mem_cons_self
        simp at hatoms
    rw [hnil]
    rfl
  · exact (faithful_gather true φs).trans hmembers

namespace Filter

variable {i : Index}

theorem meaning_lookup_keeps (key : String) (x : Operand) :
    ((lookup key x).meaning i).keeps true = true := by
  rw [meaning]
  apply Formula.keeps_of_atoms
  intro φ hφ
  rcases List.mem_append.mp hφ with hφ | hφ
  · obtain ⟨a, -, rfl⟩ := List.mem_map.mp hφ
    exact ⟨a, rfl⟩
  · unfold matchConjunct at hφ
    split at hφ
    · exact ⟨_, List.mem_singleton.mp hφ⟩
    · cases hφ

/-- The conditions that a call with a filter adds. -/
def added (i : Index) (f : Filter) : List (Formula (List Token)) :=
  i.conjuncts (.filterBy f) ++ (matchConjunct (i.searches (.filterBy f))).toList

theorem added_lookup (key : String) (x : Operand) :
    (lookup key x).meaning i = .all ((lookup key x).added i) := by
  rw [meaning]
  rfl

theorem added_group {f : Filter} (h : f.isGroup = true) :
    f.added i = (f.meaning i).prune.toList := by
  have hnone : matchConjunct [] = none := if_neg fun ⟨_, hb, _⟩ => List.not_mem_nil hb
  unfold added
  cases f with
  | lookup key x => cases h
  | all fs =>
    rw [Index.conjuncts, Index.searches, hnone, Option.toList_none, List.append_nil, meaning,
      formula]
    exact fun _ _ h => Filter.noConfusion h
  | any fs =>
    rw [Index.conjuncts, Index.searches, hnone, Option.toList_none, List.append_nil, meaning,
      formula]
    exact fun _ _ h => Filter.noConfusion h

/-- A filter adds what pruning leaves of its tree. -/
theorem eval_added (f : Filter) (v : List Token → Bool) :
    (Formula.all (f.added i)).eval v = (f.meaning i).prunedEval true v := by
  have hgroup : f.isGroup = true →
      (Formula.all (f.added i)).eval v = (f.meaning i).prunedEval true v := by
    intro h
    rw [added_group h, Formula.eval_all_prune]
  cases f with
  | lookup key x =>
    rw [Formula.prunedEval_of_keeps (meaning_lookup_keeps key x), added_lookup]
  | all fs => exact hgroup rfl
  | any fs => exact hgroup rfl

/-- Of its atoms none is left out. -/
theorem atoms_added (f : Filter) :
    (f.added i).flatMap Formula.atoms = (f.meaning i).atoms := by
  cases f with
  | lookup key x => rw [added_lookup, Formula.atoms_all]
  | all fs => rw [added_group rfl, Formula.atoms_prune]
  | any fs => rw [added_group rfl, Formula.atoms_prune]

end Filter

namespace Index

variable {i : Index}

namespace Reaches

variable {us : List Update} {q : Query}

/-- A reachable query without comparisons has no condition, and the condition of any other says the
conditions that it is made of. -/
theorem empty_or_says_joined (hi : i.Valid) (hr : i.Readable) (h : i.Reaches us q) :
    (statedConjuncts us = [] ∧ Statement.joined q.base q.clauses = .empty) ∨
      ((statedConjuncts us).flatMap Formula.atoms ≠ [] ∧
        (Statement.joined q.base q.clauses).Says (.all (statedConjuncts us))) := by
  have hjoined := (h.conjoins_joined hi hr).renders
  cases hstated : statedConjuncts us with
  | nil =>
    rw [hstated] at hjoined
    exact .inl ⟨rfl, hjoined⟩
  | cons φ φs =>
    rw [hstated] at hjoined
    have hφ : φ ∈ statedConjuncts us := hstated ▸ List.mem_cons_self
    refine .inr ⟨fun hnil => ?_, hjoined⟩
    rw [List.flatMap_cons] at hnil
    exact atoms_ne_nil_of_mem_statedConjuncts hφ (List.append_eq_nil_iff.mp hnil).1

/-- The condition of a reachable query holds as the conditions that it is made of. -/
theorem holds_joined (hi : i.Valid) (hr : i.Readable) (h : i.Reaches us q)
    (v : List Token → Bool) :
    Statement.holds (Statement.joined q.base q.clauses).sql
      (Statement.joined q.base q.clauses).params v =
        (Formula.all (statedConjuncts us)).eval v := by
  unfold Statement.holds
  rcases h.empty_or_says_joined hi hr with ⟨hnil, hempty⟩ | ⟨-, hclaim⟩
  · rw [hnil, hempty]
    rfl
  · rw [if_neg hclaim.sql_ne_empty]
    exact hclaim.reads.read.2 v

theorem sql_joined_eq_empty_iff (hi : i.Valid) (hr : i.Readable) (h : i.Reaches us q) :
    (Statement.joined q.base q.clauses).sql = "" ↔
      (statedConjuncts us).flatMap Formula.atoms = [] := by
  rcases h.empty_or_says_joined hi hr with ⟨hnil, hempty⟩ | ⟨hne, hclaim⟩
  · rw [hnil, hempty]
    exact ⟨fun _ => rfl, fun _ => rfl⟩
  · exact ⟨fun hsql => absurd hsql hclaim.sql_ne_empty, fun hnil => absurd hnil hne⟩

/-- Its parameters are those of its comparisons, in order. -/
theorem params_joined (hi : i.Valid) (hr : i.Readable) (h : i.Reaches us q) :
    (Statement.joined q.base q.clauses).params =
      ((statedConjuncts us).flatMap Formula.atoms).flatMap params := by
  rcases h.empty_or_says_joined hi hr with ⟨hnil, hempty⟩ | ⟨-, hclaim⟩
  · rw [hnil, hempty]
    rfl
  · rw [← Formula.atoms_all, ← hclaim.reads.read.1]
    exact ((params_atoms_readTo _ _).trans (params_fill_ofText hclaim.count)).symm

end Reaches

/-- The condition of a query with one filter holds as what pruning leaves of the filter's tree, and
is absent exactly if no lookup says anything.  It holds as the tree itself if the tree is faithful,
and, unless a comparison stands in it twice, only then. -/
theorem filterBy_reads (hi : i.Valid) (hr : i.Readable) {q₀ q : Query} (hq₀ : i.query = .ok q₀)
    {f : Filter} (hq : q₀.filterBy f = .ok q) :
    ∃ s w, q.compile = .ok s ∧
      s.sql = q.base.selectClause ++ (if w = "" then "" else " WHERE " ++ w) ++
        Statement.trailing q.base.tailClause? ++ Statement.trailing q.clauses.options.clause? ∧
      (w = "" ↔ (f.meaning i).atoms = []) ∧
      (∀ v, Statement.holds w s.params v = (f.meaning i).prunedEval true v) ∧
      ((f.meaning i).keeps true = true →
        ∀ v, Statement.holds w s.params v = (f.meaning i).eval v) ∧
      ((f.meaning i).atoms.Nodup →
        (∀ v, Statement.holds w s.params v = (f.meaning i).eval v) →
          (f.meaning i).keeps true = true) := by
  have hrun : q₀.applyAll [.filterBy f] = .ok q := bind_eq_ok.mpr ⟨q, hq, rfl⟩
  obtain ⟨us, hus, h⟩ := reaches_of_applyAll hi hq₀ hrun
  have hperm : (Reaches.statedConjuncts us).Perm (f.added i) := by
    have hcalls := perm_statedConjuncts hus
    rwa [List.flatMap_singleton, List.flatMap_singleton] at hcalls
  have hatoms : (Reaches.statedConjuncts us).flatMap Formula.atoms = [] ↔
      (f.meaning i).atoms = [] := by
    rw [← Filter.atoms_added]
    exact ⟨fun hnil => (hnil ▸ hperm.flatMap_right Formula.atoms).symm.eq_nil,
      fun hnil => (hnil ▸ hperm.flatMap_right Formula.atoms).eq_nil⟩
  have hmeans : ∀ v, Statement.holds (Statement.joined q.base q.clauses).sql
      (Statement.joined q.base q.clauses).params v = (f.meaning i).prunedEval true v := by
    intro v
    rw [h.holds_joined hi hr, eval_all_perm hperm, Filter.eval_added]
  refine ⟨_, (Statement.joined q.base q.clauses).sql, h.compile_eq hi, ?_,
    (h.sql_joined_eq_empty_iff hi hr).trans hatoms, hmeans, fun hkeeps v => ?_,
    fun hnodup heval => ?_⟩
  · unfold Statement.text Fragment.isEmpty
    by_cases hsql : (Statement.joined q.base q.clauses).sql = ""
    · rw [if_pos hsql, if_pos (beq_iff_eq.mpr hsql)]
    · rw [if_neg hsql, if_neg fun hb => hsql (beq_iff_eq.mp hb)]
  · rw [hmeans, Formula.prunedEval_of_keeps hkeeps]
  · by_contra hkeeps
    obtain ⟨v, hv⟩ := Formula.exists_prunedEval_ne hnodup (Bool.eq_false_iff.mpr hkeeps)
    exact hv ((hmeans v).symm.trans (heval v))

/-- A tree whose empty groups stand where they do not count. -/
def productsTree : Filter :=
  .any [.lookup "price__gt" (.scalar (.int 3)), .any [],
    .all [.lookup "tags__in" (.sequence [.int 1, .int 2]), .all [],
      .lookup "id" (.scalar (.int 7))]]

theorem products_tree_reads : ∃ q₀ q s w, products.query = .ok q₀ ∧
    q₀.filterBy productsTree = .ok q ∧ q.compile = .ok s ∧
    (productsTree.meaning products).keeps true = true ∧
    ∀ v, Statement.holds w s.params v = (productsTree.meaning products).eval v := by
  obtain ⟨o, ho, hquery⟩ := query_eq_ok products_valid
  cases ho
  have hkeeps : (productsTree.meaning products).keeps true = true := by decide
  obtain ⟨s, w, hs, -, -, -, hfaithful, -⟩ := filterBy_reads products_valid products_readable
    hquery (rfl : Query.filterBy _ productsTree = .ok _)
  exact ⟨_, _, s, w, hquery, rfl, hs, hkeeps, hfaithful hkeeps⟩

/-- Products in an index with standard settings. -/
def plainProducts : Index := ⟨products.schema, .standard⟩

/-- A choice among a conjunction without members, which always holds, and a lookup. -/
def triviallyTrue : Filter := .any [.all [], .lookup "price__gt" (.scalar (.int 5))]

/-- The choice without members gives a statement without a condition, which selects every row, and
the choice that always holds gives one that its lookup restricts. -/
theorem products_tree_misread : plainProducts.Valid ∧ plainProducts.Readable ∧
    ∃ q₀, plainProducts.query = .ok q₀ ∧
    (∃ q, q₀.filterBy (.any []) = .ok q ∧
      q.compile = .ok ⟨"SELECT id, price_attr, tags FROM products", []⟩ ∧
      ∀ v, ((Filter.any []).meaning plainProducts).eval v = false) ∧
    ∃ q, q₀.filterBy triviallyTrue = .ok q ∧
      q.compile = .ok ⟨"SELECT id, price_attr, tags FROM products WHERE price_attr > ?",
        [.integer 5]⟩ ∧
      (∀ v, (triviallyTrue.meaning plainProducts).eval v = true) ∧
      Statement.holds "price_attr > ?" [.integer 5] (fun _ => false) = false := by
  have hvalid : plainProducts.Valid := ⟨⟨"products", products.schema.fields.tail, rfl⟩, rfl⟩
  have hreadable : plainProducts.Readable := by
    refine ⟨by decide, by decide, fun c hc => ?_⟩
    cases List.mem_singleton.mp hc
    decide
  have hfalse : ∀ v, ((Filter.any []).meaning plainProducts).eval v = false := fun v => rfl
  have htrue : ∀ v, (triviallyTrue.meaning plainProducts).eval v = true := fun v => rfl
  have hread : Statement.holds "price_attr > ?" [.integer 5] (fun _ => false) = false := by
    decide +kernel
  exact ⟨hvalid, hreadable, _, rfl, ⟨_, rfl, rfl, hfalse⟩, _, rfl, rfl, htrue, hread⟩

end Index

end IndexQuery
