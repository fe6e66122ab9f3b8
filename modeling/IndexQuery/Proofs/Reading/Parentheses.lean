import IndexQuery.Proofs.Reading.Groups
import IndexQuery.Proofs.Reading.Joined
import Mathlib.Data.List.Pairwise

/-!
# Parentheses around given fragments

The conditions of the base query are trees of comparisons and given fragments.  A given fragment can
hide an OR, and as a member of a conjunction it then stands without parentheses.  Its OR splits the
conjunction, so that the text holds wherever the tree does, and may hold elsewhere.  A disjunction
puts all of its members between parentheses, and a single member needs none.

    c.toFragment.HidesOr ↔ c.HidesOr                                               (hidesOr_iff)
    the comparisons of the text are those of the leaves, in order                (atoms_reading)
    the tree holds → the text holds                                         (reading_of_meaning)
    c.Guarded → the text means the tree                                           (eval_reading)
    leaves without a comparison in common → ¬ c.Guarded →
      the text holds somewhere where the tree does not                                  (widens)
-/

namespace IndexQuery

open Text Token

namespace Condition

/-! ## Algorithm -/

mutual

/-- What a condition says, each of its leaves by itself. -/
def meaning : Condition → Formula (List Token)
  | .compare column op params => read (toFragment (.compare column op params)).tokens
  | .raw f => read f.tokens
  | .all cs => .all (meanings cs)
  | .any cs => .any (meanings cs)

/-- What the conditions of a list say. -/
def meanings : List Condition → List (Formula (List Token))
  | [] => []
  | c :: cs => c.meaning :: meanings cs

end

/-- What the text of a condition says. -/
def reading (c : Condition) : Formula (List Token) := read c.toFragment.tokens

/-- Every leaf is a condition by itself, and no group is empty. -/
inductive WellFormed : Condition → Prop
  | compare {column op params} (h : (toFragment (.compare column op params)).WellFormed) :
      WellFormed (.compare column op params)
  | raw {f} (h : f.WellFormed) : WellFormed (.raw f)
  | all {cs} (hne : cs ≠ []) (h : ∀ c ∈ cs, WellFormed c) : WellFormed (.all cs)
  | any {cs} (hne : cs ≠ []) (h : ∀ c ∈ cs, WellFormed c) : WellFormed (.any cs)

/-- The only leaf of a condition hides an OR. -/
def HidesOr (c : Condition) : Prop := ∃ l, c.leaves = [l] ∧ l.toFragment.HidesOr

/-- No member of a conjunction of several hides an OR. -/
inductive Guarded : Condition → Prop
  | compare (column op params) : Guarded (.compare column op params)
  | raw (f) : Guarded (.raw f)
  | all {cs} (hshown : cs.length = 1 ∨ ∀ c ∈ cs, ¬ c.HidesOr) (h : ∀ c ∈ cs, Guarded c) :
      Guarded (.all cs)
  | any {cs} (h : ∀ c ∈ cs, Guarded c) : Guarded (.any cs)

/-- Two conditions have no comparison in common. -/
def Apart (c d : Condition) : Prop := List.Disjoint c.meaning.atoms d.meaning.atoms

/-- The text holds somewhere where the tree does not. -/
def Widens (c : Condition) : Prop := ∃ v, c.reading.eval v = true ∧ c.meaning.eval v = false

/-- The members of a conjunction as operands, with what their texts say. -/
def operands (cs : List Condition) : List (List Token × Formula (List Token)) :=
  cs.map fun c => (c.toFragment.parenthesize.tokens, c.reading)

end Condition

/-- The conjunction of the conditions of a query. -/
def Select.conjunction (b : Select) : Formula (List Token) :=
  .all (b.conditions.map Condition.meaning)

namespace Condition

variable {c : Condition} {cs : List Condition}

/-! ## Trees -/

theorem meanings_eq_map (cs : List Condition) : meanings cs = cs.map meaning := by
  induction cs with
  | nil => rfl
  | cons c cs ih => rw [meanings, ih, List.map_cons]

theorem meaning_all (cs : List Condition) : (all cs).meaning = .all (cs.map meaning) := by
  rw [meaning, meanings_eq_map]

theorem meaning_any (cs : List Condition) : (any cs).meaning = .any (cs.map meaning) := by
  rw [meaning, meanings_eq_map]

/-- What a condition says is made of what its leaves say. -/
theorem atoms_meaning (c : Condition) :
    c.meaning.atoms = c.leaves.flatMap fun l => l.meaning.atoms := by
  have hlist : ∀ {cs : List Condition},
      (∀ c ∈ cs, c.meaning.atoms = c.leaves.flatMap fun l => l.meaning.atoms) →
      (cs.map meaning).flatMap Formula.atoms =
        (cs.flatMap leaves).flatMap fun l => l.meaning.atoms := by
    intro cs h
    rw [List.flatMap_map, List.flatMap_assoc]
    exact List.flatMap_congr h
  induction c with
  | compare column op params => exact (List.flatMap_singleton _ _).symm
  | raw f => exact (List.flatMap_singleton _ _).symm
  | all cs ih => rw [meaning_all, Formula.atoms_all, leaves_all, hlist ih]
  | any cs ih => rw [meaning_any, Formula.atoms_any, leaves_any, hlist ih]

theorem WellFormed.toFragment (h : c.WellFormed) : c.toFragment.WellFormed := by
  induction h with
  | compare h => exact h
  | raw h => exact h
  | all hne _ ih =>
    rw [toFragment_all]
    exact Fragment.WellFormed.conjunction (List.forall_mem_map.mpr ih) (by simpa using hne)
  | any hne _ ih =>
    rw [toFragment_any]
    exact Fragment.WellFormed.disjunction (List.forall_mem_map.mpr ih) (by simpa using hne)

theorem wellFormed_toFragments (h : ∀ c ∈ cs, c.WellFormed) :
    ∀ f ∈ cs.map toFragment, f.WellFormed := by
  intro f hf
  obtain ⟨c, hc, rfl⟩ := List.mem_map.mp hf
  exact (h c hc).toFragment

/-- A comparison of a column is a condition by itself, and says its comparison. -/
theorem OfColumn.wellFormed (h : c.OfColumn) :
    c.WellFormed ∧ c.meaning.Agrees (.atom c.toFragment.tokens) := by
  obtain ⟨hcomparison, hplain⟩ := h.isComparison
  have hstates := (Fragment.says_of_isComparison hcomparison).states hplain
  rw [← Fragment.tokens_eq_bound hplain] at hstates
  cases c with
  | compare column op params =>
    refine ⟨.compare ⟨hstates.balanced, ?_, fun hnil => ?_⟩, hstates.reads.read⟩
    · rw [lex_eq_ofText hplain]
      exact hcomparison.closed
    · exact hcomparison.ne_nil (lex_eq_ofText hplain ▸ hnil)
  | raw f => exact h.elim
  | all cs => exact h.elim
  | any cs => exact h.elim

theorem WellFormed.leaves_ne_nil (h : c.WellFormed) : c.leaves ≠ [] := by
  have hlist : ∀ {cs : List Condition}, cs ≠ [] → (∀ c ∈ cs, c.leaves ≠ []) →
      cs.flatMap leaves ≠ [] := by
    intro cs hne h hnil
    obtain ⟨c, hc⟩ := List.exists_mem_of_ne_nil cs hne
    exact h c hc (List.flatMap_eq_nil_iff.mp hnil c hc)
  induction h with
  | compare _ => exact List.cons_ne_nil _ _
  | raw _ => exact List.cons_ne_nil _ _
  | all hne _ ih => exact leaves_all _ ▸ hlist hne ih
  | any hne _ ih => exact leaves_any _ ▸ hlist hne ih

/-! ## Hidden ORs -/

/-- A group has a single leaf only if it has a single member. -/
theorem hidesOr_group {group : List Condition → Condition}
    (hleaves : ∀ cs, (group cs).leaves = cs.flatMap leaves)
    (hsingle : ∀ {c}, c.WellFormed → ((group [c]).toFragment.HidesOr ↔ c.toFragment.HidesOr))
    (hseveral : ∀ {cs}, (∀ c ∈ cs, c.WellFormed) → 1 < cs.length →
      (group cs).toFragment.isCompound = true)
    (hne : cs ≠ []) (h : ∀ c ∈ cs, c.WellFormed)
    (ih : ∀ c ∈ cs, (c.toFragment.HidesOr ↔ c.HidesOr)) :
    (group cs).toFragment.HidesOr ↔ (group cs).HidesOr := by
  match cs, hne with
  | [c], _ =>
    have hc := h c (List.mem_singleton_self c)
    rw [hsingle hc, ih c (List.mem_singleton_self c), HidesOr, HidesOr, hleaves,
      List.flatMap_singleton]
  | c :: d :: cs, _ =>
    have hcompound := hseveral h (Nat.succ_lt_succ (Nat.succ_pos cs.length))
    constructor
    · rintro ⟨-, hnone⟩
      rw [hcompound] at hnone
      cases hnone
    · rintro ⟨l, hl, -⟩
      have hc := List.length_pos_iff.mpr (h c (by simp)).leaves_ne_nil
      have hd := List.length_pos_iff.mpr (h d (by simp)).leaves_ne_nil
      have hlength := congrArg List.length hl
      rw [hleaves, List.flatMap_cons, List.flatMap_cons] at hlength
      simp only [List.length_append, List.length_singleton] at hlength
      omega

/-- An OR is hidden in the text of a condition exactly if it is in its only leaf. -/
theorem WellFormed.hidesOr_iff (h : c.WellFormed) : c.toFragment.HidesOr ↔ c.HidesOr := by
  have hleaf : ∀ {l : Condition}, l.leaves = [l] → (l.toFragment.HidesOr ↔ l.HidesOr) := by
    intro l hl
    constructor
    · intro hhides
      exact ⟨l, hl, hhides⟩
    · rintro ⟨m, hm, hhides⟩
      rw [hl] at hm
      cases hm
      exact hhides
  induction h with
  | compare _ => exact hleaf rfl
  | raw _ => exact hleaf rfl
  | all hne h ih =>
    refine hidesOr_group leaves_all (fun hc => ?_) (fun hcs hlength => ?_) hne h ih
    · rw [toFragment_all, List.map_singleton, Fragment.conjunction_cons]
      exact hc.toFragment.hidesOr_parenthesize
    · rw [toFragment_all]
      exact Fragment.isCompound_conjunction (wellFormed_toFragments hcs) (by rwa [List.length_map])
  | any hne h ih =>
    refine hidesOr_group leaves_any (fun _ => ?_) (fun hcs hlength => ?_) hne h ih
    · rw [toFragment_any]
      rfl
    · rw [toFragment_any]
      exact Fragment.isCompound_disjunction (wellFormed_toFragments hcs) (by rwa [List.length_map])

/-! ## Texts of groups -/

section

variable (h : ∀ c ∈ cs, c.WellFormed)

include h

theorem reads_operands : ∀ o ∈ operands cs, Reads o.1 o.2 := by
  intro o ho
  obtain ⟨c, hc, rfl⟩ := List.mem_map.mp ho
  exact (h c hc).toFragment.reads_parenthesize

/-- The text of a conjunction is read as the row of its operands. -/
theorem reading_all (hne : cs ≠ []) :
    (all cs).reading = read (row ((operands cs).map Prod.fst)) := by
  unfold reading operands
  rw [toFragment_all, Fragment.tokens_conjunction (wellFormed_toFragments h) (by simpa using hne),
    List.map_map, List.map_map]
  rfl

theorem reading_any (hne : cs ≠ []) : (any cs).reading.Agrees (.any (cs.map reading)) := by
  have hreads := Fragment.reads_disjunction (wellFormed_toFragments h) (by simpa using hne)
  rw [List.map_map] at hreads
  unfold reading
  rw [toFragment_any]
  exact hreads.read

end

theorem map_snd_operands (cs : List Condition) :
    (operands cs).map Prod.snd = cs.map reading := by
  unfold operands
  rw [List.map_map]
  rfl

theorem operands_ne_nil (hne : cs ≠ []) : operands cs ≠ [] := by simpa [operands] using hne

/-! ## Texts of trees -/

/-- The comparisons of a text are those of the leaves, in order. -/
theorem WellFormed.atoms_reading (h : c.WellFormed) : c.reading.atoms = c.meaning.atoms := by
  induction h with
  | compare _ => rfl
  | raw _ => rfl
  | all hne h ih =>
    rw [reading_all h hne, atoms_row (reads_operands h) (operands_ne_nil hne), map_snd_operands,
      meaning_all, Formula.atoms_all, Formula.atoms_all, List.flatMap_map, List.flatMap_map]
    exact List.flatMap_congr ih
  | any hne h ih =>
    rw [(reading_any h hne).1, meaning_any, Formula.atoms_any, Formula.atoms_any,
      List.flatMap_map, List.flatMap_map]
    exact List.flatMap_congr ih

/-- What the tree says is never lost. -/
theorem WellFormed.reading_of_meaning (h : c.WellFormed) {v : List Token → Bool}
    (hv : c.meaning.eval v = true) : c.reading.eval v = true := by
  induction h with
  | compare _ => exact hv
  | raw _ => exact hv
  | all hne h ih =>
    rw [meaning_all, Formula.eval_all_map] at hv
    rw [reading_all h hne]
    refine eval_row_of_all (reads_operands h) (operands_ne_nil hne) ?_
    rw [map_snd_operands, Formula.eval_all_map]
    exact fun c hc => ih c hc (hv c hc)
  | any hne h ih =>
    rw [meaning_any, Formula.eval_any_map] at hv
    obtain ⟨c, hc, hv⟩ := hv
    rw [(reading_any h hne).2, Formula.eval_any_map]
    exact ⟨c, hc, ih c hc hv⟩

/-- Only a hidden OR stands open in an operand. -/
theorem WellFormed.unsplitFrom_operand (h : c.WellFormed) :
    unsplitFrom isOr 0 c.toFragment.parenthesize.tokens = false ↔ c.HidesOr :=
  h.toFragment.unsplitFrom_parenthesize.trans h.hidesOr_iff

/-- Members that hide no OR, or a single member, are read as their conjunction. -/
theorem reading_all_of_shown (h : ∀ c ∈ cs, c.WellFormed) (hne : cs ≠ [])
    (hshown : cs.length = 1 ∨ ∀ c ∈ cs, ¬ c.HidesOr) :
    (all cs).reading.Agrees (.all (cs.map reading)) := by
  have hrow : Reads (row ((operands cs).map Prod.fst)) (.all ((operands cs).map Prod.snd)) := by
    refine Reads.row_of_single_or (reads_operands h) (operands_ne_nil hne) ?_
    rcases hshown with hlength | hnone
    · left
      simpa [operands] using hlength
    · right
      intro o ho
      obtain ⟨c, hc, rfl⟩ := List.mem_map.mp ho
      by_contra hopen
      exact hnone c hc ((h c hc).unsplitFrom_operand.mp (eq_false_of_ne_true hopen))
  rw [reading_all h hne, ← map_snd_operands]
  exact hrow.read

theorem Guarded.eval_reading (hg : c.Guarded) (h : c.WellFormed) (v : List Token → Bool) :
    c.reading.eval v = c.meaning.eval v := by
  induction h with
  | compare _ => rfl
  | raw _ => rfl
  | @all cs hne h ih =>
    cases hg with
    | all hshown hg =>
      have hmembers : ∀ c ∈ cs, c.reading.eval v = c.meaning.eval v :=
        fun c hc => ih c hc (hg c hc)
      rw [(reading_all_of_shown h hne hshown).2, meaning_all, Bool.eq_iff_iff, Formula.eval_all_map,
        Formula.eval_all_map]
      exact forall₂_congr fun c hc => by rw [hmembers c hc]
  | @any cs hne h ih =>
    cases hg with
    | any hg =>
      have hmembers : ∀ c ∈ cs, c.reading.eval v = c.meaning.eval v :=
        fun c hc => ih c hc (hg c hc)
      rw [(reading_any h hne).2, meaning_any, Bool.eq_iff_iff, Formula.eval_any_map,
        Formula.eval_any_map]
      exact exists_congr fun c => and_congr_right fun hc => by rw [hmembers c hc]

/-! ## Leaves without a comparison in common -/

/-- A value that all comparisons of a tree have is the value of the tree: no group is empty. -/
theorem WellFormed.eval_meaning_of_atoms (h : c.WellFormed) {v : List Token → Bool} {x : Bool}
    (hv : ∀ a ∈ c.meaning.atoms, v a = x) : c.meaning.eval v = x := by
  induction h with
  | compare _ => exact eval_readTo_of_atoms hv
  | raw _ => exact eval_readTo_of_atoms hv
  | all hne _ ih =>
    rw [meaning_all, Formula.atoms_all, List.flatMap_map] at hv
    rw [meaning_all, Formula.eval_all, List.all_map]
    refine all_eq_of_forall hne fun c hc => ih c hc ?_
    intro a ha
    exact hv a (List.mem_flatMap.mpr ⟨c, hc, ha⟩)
  | any hne _ ih =>
    rw [meaning_any, Formula.atoms_any, List.flatMap_map] at hv
    rw [meaning_any, Formula.eval_any, List.any_map]
    refine any_eq_of_forall hne fun c hc => ih c hc ?_
    intro a ha
    exact hv a (List.mem_flatMap.mpr ⟨c, hc, ha⟩)

theorem WellFormed.eval_reading_of_atoms (h : c.WellFormed) {v : List Token → Bool} {x : Bool}
    (hv : ∀ a ∈ c.meaning.atoms, v a = x) : c.reading.eval v = x :=
  eval_readTo_of_atoms fun a ha => hv a (h.atoms_reading ▸ ha)

instance : Std.Symm Apart := ⟨fun _ _ h => List.disjoint_symm h⟩

theorem apart_of_leaves {c d : Condition} (h : ∀ l ∈ c.leaves, ∀ m ∈ d.leaves, l.Apart m) :
    c.Apart d := by
  unfold Apart
  rw [atoms_meaning c, atoms_meaning d]
  intro a hc hd
  obtain ⟨l, hl, hal⟩ := List.mem_flatMap.mp hc
  obtain ⟨m, hm, ham⟩ := List.mem_flatMap.mp hd
  exact h l hl m hm hal ham

theorem apart_members (h : (cs.flatMap leaves).Pairwise Apart) :
    (∀ c ∈ cs, c.leaves.Pairwise Apart) ∧ cs.Pairwise Apart := by
  obtain ⟨hmembers, hapart⟩ := List.pairwise_flatMap.mp h
  exact ⟨hmembers, hapart.imp apart_of_leaves⟩

section

variable (h : ∀ c ∈ cs, c.WellFormed) (hapart : cs.Pairwise Apart) (hc : c ∈ cs)

include h hapart hc

/-- What one member says can be kept while all others have the value `x`. -/
theorem exists_others_eq (v : List Token → Bool) (x : Bool) :
    ∃ w, c.reading.eval w = c.reading.eval v ∧ c.meaning.eval w = c.meaning.eval v ∧
      ∀ d ∈ cs, d = c ∨ d.reading.eval w = x ∧ d.meaning.eval w = x := by
  classical
  let w : List Token → Bool := fun a => if a ∈ c.meaning.atoms then v a else x
  have hown : ∀ a ∈ c.meaning.atoms, w a = v a := fun a ha => if_pos ha
  refine ⟨w, ?_, Formula.eval_congr hown, ?_⟩
  · apply Formula.eval_congr
    rw [(h c hc).atoms_reading]
    exact hown
  · intro d hd
    by_cases hdc : d = c
    · exact .inl hdc
    · have happart : d.Apart c := hapart.forall hd hc hdc
      have hother : ∀ a ∈ d.meaning.atoms, w a = x := fun a ha => if_neg fun hca => happart ha hca
      exact .inr ⟨(h d hd).eval_reading_of_atoms hother, (h d hd).eval_meaning_of_atoms hother⟩

/-- The text of a conjunction holds where that of a member does and all other members hold. -/
theorem widens_all (hwidens : c.Widens) : (all cs).Widens := by
  obtain ⟨v, htrue, hfalse⟩ := hwidens
  obtain ⟨w, hreading, hmeaning, hothers⟩ := exists_others_eq h hapart hc v true
  have hne := List.ne_nil_of_mem hc
  refine ⟨w, ?_, Bool.eq_false_iff.mpr fun hw => ?_⟩
  · rw [reading_all h hne]
    refine eval_row_of_all (reads_operands h) (operands_ne_nil hne) ?_
    rw [map_snd_operands, Formula.eval_all_map]
    intro d hd
    rcases hothers d hd with rfl | ⟨hd, -⟩
    · exact hreading.trans htrue
    · exact hd
  · rw [meaning_all, Formula.eval_all_map] at hw
    have hcw := hw c hc
    rw [hmeaning, hfalse] at hcw
    cases hcw

/-- The text of a disjunction holds where that of a member does, though no member may hold. -/
theorem widens_any (hwidens : c.Widens) : (any cs).Widens := by
  obtain ⟨v, htrue, hfalse⟩ := hwidens
  obtain ⟨w, hreading, hmeaning, hothers⟩ := exists_others_eq h hapart hc v false
  refine ⟨w, ?_, Bool.eq_false_iff.mpr fun hw => ?_⟩
  · rw [(reading_any h (List.ne_nil_of_mem hc)).2, Formula.eval_any_map]
    exact ⟨c, hc, hreading.trans htrue⟩
  · rw [meaning_any, Formula.eval_any_map] at hw
    obtain ⟨d, hd, hdw⟩ := hw
    rcases hothers d hd with rfl | ⟨-, hd⟩
    · rw [hmeaning, hfalse] at hdw
      cases hdw
    · rw [hd] at hdw
      cases hdw

/-- A hidden OR splits a conjunction of several. -/
theorem widens_of_hidesOr (hlength : cs.length ≠ 1) (hhides : c.HidesOr) : (all cs).Widens := by
  have hne := List.ne_nil_of_mem hc
  have hseveral : 1 < (operands cs).length := by
    have hpos := List.length_pos_iff.mpr hne
    rw [operands, List.length_map]
    omega
  have hdisjoint : (operands cs).Pairwise fun o p => List.Disjoint o.2.atoms p.2.atoms := by
    refine List.pairwise_map.mpr (hapart.imp_of_mem fun {c d} hc hd hcd => ?_)
    rw [(h c hc).atoms_reading, (h d hd).atoms_reading]
    exact hcd
  obtain ⟨v, htrue, hfalse⟩ := exists_row_ne (reads_operands h) hseveral hdisjoint
    ⟨_, List.mem_map_of_mem hc, (h c hc).unsplitFrom_operand.mpr hhides⟩
  refine ⟨v, (reading_all h hne).symm ▸ htrue, Bool.eq_false_iff.mpr fun hv => ?_⟩
  rw [meaning_all, Formula.eval_all_map] at hv
  rw [map_snd_operands, Bool.eq_false_iff, ne_eq, Formula.eval_all_map] at hfalse
  exact hfalse fun c hc => (h c hc).reading_of_meaning (hv c hc)

end

/-- If leaves have no comparison in common, a hidden OR in a conjunction of several lets the text
hold where the tree does not. -/
theorem WellFormed.widens (h : c.WellFormed) (hapart : c.leaves.Pairwise Apart)
    (hg : ¬ c.Guarded) : c.Widens := by
  induction h with
  | @compare column op params _ => exact absurd (.compare column op params) hg
  | @raw f _ => exact absurd (.raw f) hg
  | @all cs _ h ih =>
    rw [leaves_all] at hapart
    obtain ⟨hleaves, hmembers⟩ := apart_members hapart
    by_cases hall : ∀ c ∈ cs, c.Guarded
    · obtain ⟨hlength, c, hc, hhides⟩ : cs.length ≠ 1 ∧ ∃ c ∈ cs, c.HidesOr := by
        by_contra! hshown
        exact hg (.all (or_iff_not_imp_left.mpr hshown) hall)
      exact widens_of_hidesOr h hmembers hc hlength hhides
    · push Not at hall
      obtain ⟨c, hc, hgc⟩ := hall
      exact widens_all h hmembers hc (ih c hc (hleaves c hc) hgc)
  | @any cs _ h ih =>
    rw [leaves_any] at hapart
    obtain ⟨hleaves, hmembers⟩ := apart_members hapart
    obtain ⟨c, hc, hgc⟩ : ∃ c ∈ cs, ¬ c.Guarded := by
      by_contra! hall
      exact hg (.any hall)
    exact widens_any h hmembers hc (ih c hc (hleaves c hc) hgc)

end Condition

/-! ## Conditions of a query -/

namespace Select

variable {b : Select}

/-- The text of the conditions of a query.  Its comparisons are those of the leaves, and it holds
wherever the conjunction of the conditions does.  It means the conjunction if no member of a
conjunction of several hides an OR; if no two leaves have a comparison in common, it means the
conjunction only then. -/
theorem whereFragment_reads (h : ∀ d ∈ b.conditions, d.WellFormed) :
    (b.conditions = [] → b.whereFragment = .empty) ∧
    (b.conditions ≠ [] →
      (read b.whereFragment.tokens).atoms = b.conjunction.atoms ∧
      (∀ v, b.conjunction.eval v = true → (read b.whereFragment.tokens).eval v = true) ∧
      ((Condition.all b.conditions).Guarded →
        ∀ v, (read b.whereFragment.tokens).eval v = b.conjunction.eval v) ∧
      ((b.conditions.flatMap Condition.leaves).Pairwise Condition.Apart →
        ¬ (Condition.all b.conditions).Guarded →
          ∃ v, (read b.whereFragment.tokens).eval v = true ∧ b.conjunction.eval v = false)) := by
  have hreading : read b.whereFragment.tokens = (Condition.all b.conditions).reading := by
    rw [whereFragment, ← Condition.toFragment_all]
    rfl
  have hmeaning : b.conjunction = (Condition.all b.conditions).meaning :=
    (Condition.meaning_all b.conditions).symm
  refine ⟨fun hnil => ?_, fun hne => ?_⟩
  · rw [whereFragment, hnil]
    rfl
  · have hall : (Condition.all b.conditions).WellFormed := .all hne h
    rw [hreading, hmeaning, ← Condition.leaves_all]
    exact ⟨hall.atoms_reading, fun v => hall.reading_of_meaning,
      fun hguarded v => hguarded.eval_reading hall v, hall.widens⟩

/-- Either of two comparisons, with an OR in small letters. -/
def eitherSmall : Fragment := ⟨"a = ? or b = ?", [.integer 1, .integer 2]⟩

theorem wellFormed_eitherSmall : eitherSmall.WellFormed :=
  ⟨⟨by decide, by decide⟩, by decide, by decide⟩

theorem wellFormed_price : (Condition.compare "price" .greater [.integer 5]).WellFormed :=
  (Condition.OfColumn.wellFormed (c := .compare "price" .greater [.integer 5])
    ⟨by decide, by decide, fun _ => rfl⟩).1

/-- The fragment as a member of a disjunction, next to one with an OR in capitals. -/
def eitherGuarded : Select :=
  ((Select.new "products" ["id"]).withCondition
    (.any [.raw eitherSmall, .compare "price" .greater [.integer 5]])).withCondition
    (.raw ⟨"c = ? OR d = ?", [.integer 3, .integer 4]⟩)

theorem eitherGuarded_read : (∀ d ∈ eitherGuarded.conditions, d.WellFormed) ∧
    eitherGuarded.whereFragment.sql = "((a = ? or b = ?) OR (price > ?)) AND (c = ? OR d = ?)" ∧
    ∀ v, (read eitherGuarded.whereFragment.tokens).eval v = eitherGuarded.conjunction.eval v := by
  have hmembers : ∀ d ∈ [Condition.raw eitherSmall, .compare "price" .greater [.integer 5]],
      d.WellFormed :=
    List.forall_mem_cons.mpr ⟨.raw wellFormed_eitherSmall,
      List.forall_mem_singleton.mpr wellFormed_price⟩
  have hwellFormed : ∀ d ∈ eitherGuarded.conditions, d.WellFormed :=
    List.forall_mem_cons.mpr ⟨.any (List.cons_ne_nil _ _) hmembers,
      List.forall_mem_singleton.mpr (.raw ⟨⟨by decide, by decide⟩, by decide, by decide⟩)⟩
  have hguarded : (Condition.all eitherGuarded.conditions).Guarded := by
    refine .all (.inr (List.forall_mem_cons.mpr ⟨?_, List.forall_mem_singleton.mpr ?_⟩))
      (List.forall_mem_cons.mpr ⟨?_, List.forall_mem_singleton.mpr (.raw _)⟩)
    · rintro ⟨l, hl, -⟩
      cases hl
    · rintro ⟨l, hl, hhides⟩
      cases hl
      revert hhides
      decide
    · exact .any (List.forall_mem_cons.mpr ⟨.raw _, List.forall_mem_singleton.mpr (.compare _ _ _)⟩)
  obtain ⟨-, -, hguard, -⟩ := (whereFragment_reads hwellFormed).2 (List.cons_ne_nil _ _)
  exact ⟨hwellFormed, by decide, hguard hguarded⟩

/-- The fragment as a member of the conjunction. -/
def eitherSplit : Select :=
  ((Select.new "products" ["id"]).withCondition (.raw eitherSmall)).withCondition
    (.compare "price" .greater [.integer 5])

theorem read_eitherSplit : read eitherSplit.whereFragment.tokens =
    .any [.all [.atom [.word ['a'], .symbol '=', .value (.integer 1)]],
      .all [.atom [.word ['b'], .symbol '=', .value (.integer 2)],
        .atom [.word "price".toList, .symbol '>', .value (.integer 5)]]] := rfl

theorem conjunction_eitherSplit : eitherSplit.conjunction =
    .all [.any [.all [.atom [.word ['a'], .symbol '=', .value (.integer 1)]],
        .all [.atom [.word ['b'], .symbol '=', .value (.integer 2)]]],
      .any [.all [.atom [.word "price".toList, .symbol '>', .value (.integer 5)]]]] := rfl

/-- The first comparison alone is enough for the text, whatever the price is. -/
theorem eitherSplit_not_whole : (∀ d ∈ eitherSplit.conditions, d.WellFormed) ∧
    eitherSplit.whereFragment =
      ⟨"a = ? or b = ? AND price > ?", [.integer 1, .integer 2, .integer 5]⟩ ∧
    ∃ v, (read eitherSplit.whereFragment.tokens).eval v = true ∧
      eitherSplit.conjunction.eval v = false := by
  have hwellFormed : ∀ d ∈ eitherSplit.conditions, d.WellFormed :=
    List.forall_mem_cons.mpr ⟨.raw wellFormed_eitherSmall,
      List.forall_mem_singleton.mpr wellFormed_price⟩
  refine ⟨hwellFormed, by decide, fun ts => ts.head? == some (.word ['a']), ?_, ?_⟩
  · rw [read_eitherSplit]
    simp
  · rw [conjunction_eitherSplit]
    simp

end Select

end IndexQuery
