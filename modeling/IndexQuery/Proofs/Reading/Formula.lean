/-!
# Formulas

Conjunctions and disjunctions of atoms, nested without bound.  A group is empty if no atom stands
anywhere in it; `prune` leaves such groups out.

    f.prune = none ↔ f.atoms = []                                             (prune_eq_none_iff)
    f.prune = some g → g.atoms = f.atoms                                          (atoms_prune)
-/

namespace IndexQuery

/-- A formula over atoms. -/
inductive Formula (α : Type) where
  | atom (a : α)
  /-- Every formula of a list holds. -/
  | all (fs : List (Formula α))
  /-- Some formula of a list holds. -/
  | any (fs : List (Formula α))

namespace Formula

variable {α : Type}

/-! ## Algorithm -/

mutual

/-- Whether a formula holds when the atoms hold that `v` says. -/
def eval (v : α → Bool) : Formula α → Bool
  | .atom a => v a
  | .all fs => evalAll v fs
  | .any fs => evalAny v fs

/-- Whether every formula of a list holds. -/
def evalAll (v : α → Bool) : List (Formula α) → Bool
  | [] => true
  | f :: fs => eval v f && evalAll v fs

/-- Whether some formula of a list holds. -/
def evalAny (v : α → Bool) : List (Formula α) → Bool
  | [] => false
  | f :: fs => eval v f || evalAny v fs

end

mutual

/-- The atoms of a formula from left to right. -/
def atoms : Formula α → List α
  | .atom a => [a]
  | .all fs => atomsAll fs
  | .any fs => atomsAll fs

/-- The atoms of a list of formulas. -/
def atomsAll : List (Formula α) → List α
  | [] => []
  | f :: fs => atoms f ++ atomsAll fs

end

/-- A group, unless it has no members. -/
def group? (group : List (Formula α) → Formula α) : List (Formula α) → Option (Formula α)
  | [] => none
  | f :: fs => some (group (f :: fs))

mutual

/-- The formula without its groups that hold no atom, if anything remains. -/
def prune : Formula α → Option (Formula α)
  | .atom a => some (.atom a)
  | .all fs => group? .all (pruneAll fs)
  | .any fs => group? .any (pruneAll fs)

/-- What remains of the formulas of a list. -/
def pruneAll : List (Formula α) → List (Formula α)
  | [] => []
  | f :: fs => (prune f).toList ++ pruneAll fs

end

/-- Two formulas have the same atoms in the same order, and hold alike whatever atoms hold. -/
def Agrees (f g : Formula α) : Prop := f.atoms = g.atoms ∧ ∀ v, f.eval v = g.eval v

/-! ## Lemmas -/

@[elab_as_elim, induction_eliminator]
theorem induction {motive : Formula α → Prop} (atom : ∀ a, motive (.atom a))
    (all : ∀ fs, (∀ f ∈ fs, motive f) → motive (.all fs))
    (any : ∀ fs, (∀ f ∈ fs, motive f) → motive (.any fs)) (f : Formula α) : motive f :=
  @Formula.rec α motive (fun fs => ∀ f ∈ fs, motive f)
    atom all any (fun _ hf => absurd hf List.not_mem_nil)
    (fun _ _ hf hfs g hg => by
      rcases List.mem_cons.mp hg with rfl | hg
      · exact hf
      · exact hfs g hg) f

@[simp] theorem eval_atom (v : α → Bool) (a : α) : (atom a).eval v = v a := by rw [eval]

@[simp] theorem eval_all (v : α → Bool) (fs : List (Formula α)) :
    (all fs).eval v = fs.all (eval v) := by
  have hlist : ∀ fs : List (Formula α), evalAll v fs = fs.all (eval v) := by
    intro fs
    induction fs with
    | nil => rfl
    | cons f fs ih => rw [evalAll, ih, List.all_cons]
  rw [eval, hlist]

@[simp] theorem eval_any (v : α → Bool) (fs : List (Formula α)) :
    (any fs).eval v = fs.any (eval v) := by
  have hlist : ∀ fs : List (Formula α), evalAny v fs = fs.any (eval v) := by
    intro fs
    induction fs with
    | nil => rfl
    | cons f fs ih => rw [evalAny, ih, List.any_cons]
  rw [eval, hlist]

theorem eval_all_map {β : Type} (v : α → Bool) (f : β → Formula α) (l : List β) :
    (all (l.map f)).eval v = true ↔ ∀ b ∈ l, (f b).eval v = true := by
  rw [eval_all, List.all_map, List.all_eq_true]
  rfl

theorem eval_any_map {β : Type} (v : α → Bool) (f : β → Formula α) (l : List β) :
    (any (l.map f)).eval v = true ↔ ∃ b ∈ l, (f b).eval v = true := by
  rw [eval_any, List.any_map, List.any_eq_true]
  rfl

theorem atomsAll_eq_flatMap (fs : List (Formula α)) : atomsAll fs = fs.flatMap atoms := by
  induction fs with
  | nil => rfl
  | cons f fs ih => rw [atomsAll, ih, List.flatMap_cons]

@[simp] theorem atoms_atom (a : α) : (atom a).atoms = [a] := by rw [atoms]

@[simp] theorem atoms_all (fs : List (Formula α)) : (all fs).atoms = fs.flatMap atoms := by
  rw [atoms, atomsAll_eq_flatMap]

@[simp] theorem atoms_any (fs : List (Formula α)) : (any fs).atoms = fs.flatMap atoms := by
  rw [atoms, atomsAll_eq_flatMap]

theorem pruneAll_eq_filterMap (fs : List (Formula α)) : pruneAll fs = fs.filterMap prune := by
  induction fs with
  | nil => rfl
  | cons f fs ih => rw [pruneAll, ih, List.filterMap_cons]; cases prune f <;> rfl

theorem prune_all (fs : List (Formula α)) :
    (all fs).prune = group? all (fs.filterMap prune) := by
  rw [prune, pruneAll_eq_filterMap]

theorem prune_any (fs : List (Formula α)) :
    (any fs).prune = group? any (fs.filterMap prune) := by
  rw [prune, pruneAll_eq_filterMap]

/-- Pruning moves and drops no atom. -/
theorem atoms_prune (f : Formula α) : f.prune.toList.flatMap atoms = f.atoms := by
  have hgroup : ∀ {group : List (Formula α) → Formula α} {fs : List (Formula α)},
      (∀ gs, (group gs).atoms = gs.flatMap atoms) →
      (∀ f ∈ fs, f.prune.toList.flatMap atoms = f.atoms) →
      (group? group (fs.filterMap prune)).toList.flatMap atoms = fs.flatMap atoms := by
    intro group fs hatoms ih
    have hmembers : (fs.filterMap prune).flatMap atoms = fs.flatMap atoms := by
      induction fs with
      | nil => rfl
      | cons f fs ihfs =>
        have hf := ih f List.mem_cons_self
        have hfs := ihfs fun g hg => ih g (List.mem_cons_of_mem f hg)
        rw [List.flatMap_cons, ← hf, ← hfs, List.filterMap_cons]
        cases prune f <;> simp
    rw [← hmembers]
    cases fs.filterMap prune with
    | nil => rfl
    | cons g gs => simp [group?, hatoms]
  induction f with
  | atom a => simp [prune]
  | all fs ih => rw [prune_all, atoms_all, hgroup atoms_all ih]
  | any fs ih => rw [prune_any, atoms_any, hgroup atoms_any ih]

/-- What remains of a formula holds an atom. -/
theorem atoms_ne_nil_of_prune {f g : Formula α} (h : f.prune = some g) : g.atoms ≠ [] := by
  have hgroup : ∀ {group : List (Formula α) → Formula α} {fs : List (Formula α)} {g : Formula α},
      (∀ gs, (group gs).atoms = gs.flatMap atoms) →
      (∀ f ∈ fs, ∀ {g}, f.prune = some g → g.atoms ≠ []) →
      group? group (fs.filterMap prune) = some g → g.atoms ≠ [] := by
    intro group fs g hatoms ih h
    cases hfs : fs.filterMap prune with
    | nil =>
      rw [hfs] at h
      cases h
    | cons k ks =>
      rw [hfs] at h
      cases h
      obtain ⟨f, hf, hk⟩ := List.mem_filterMap.mp (hfs ▸ List.mem_cons_self : k ∈ _)
      rw [hatoms, List.flatMap_cons]
      exact fun hnil => ih f hf hk (List.append_eq_nil_iff.mp hnil).1
  induction f generalizing g with
  | atom a =>
    cases h
    simp
  | all fs ih => exact hgroup atoms_all ih (prune_all fs ▸ h)
  | any fs ih => exact hgroup atoms_any ih (prune_any fs ▸ h)

theorem prune_eq_none_iff {f : Formula α} : f.prune = none ↔ f.atoms = [] := by
  rw [← atoms_prune]
  cases h : f.prune with
  | none => simp
  | some g => simpa using atoms_ne_nil_of_prune h

/-! ### Agreement -/

theorem Agrees.trans {f g k : Formula α} (hf : f.Agrees g) (hg : g.Agrees k) : f.Agrees k :=
  ⟨hf.1.trans hg.1, fun v => (hf.2 v).trans (hg.2 v)⟩

/-- Conjunctions that agree do so behind the same formulas. -/
theorem Agrees.all_append {fs gs : List (Formula α)} (h : (all fs).Agrees (all gs))
    (pre : List (Formula α)) : (all (pre ++ fs)).Agrees (all (pre ++ gs)) := by
  obtain ⟨hatoms, heval⟩ := h
  simp only [atoms_all] at hatoms
  simp only [eval_all] at heval
  constructor
  · rw [atoms_all, atoms_all, List.flatMap_append, List.flatMap_append, hatoms]
  · intro v
    rw [eval_all, eval_all, List.all_append, List.all_append, heval]

end Formula

end IndexQuery
