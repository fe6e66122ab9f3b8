import IndexQuery.Proofs.Scan.Statement

/-!
# Fragments checked together

The conditions of a base query are checked as one fragment, whose text holds the texts of all
leaves with connectives between them.  What is compared is therefore the number of placeholders of
the whole row, each leaf being read from where the one before has left the reader, with the number
of all parameters.  The fragments of the clauses are checked one by one.

    c.toFragment.MadeOf c.leafFragments                                    (MadeOf.toFragment)
    b.whereFragment.Matched ↔ placeholdersInRow .outside b.leaves = number of parameters
                                                                  (matched_whereFragment_iff)
    compile b c is a statement if Accepts b c and reports a fragment otherwise
                                                                          (compile_by_leaves)
    Accepts b c ↔ own placeholders and parameters add up to the same, if all leaves are closed
                                                                      (accepts_iff_of_closed)
-/

namespace IndexQuery

open Text

/-! ## Algorithm -/

/-- Where a reader stands after one more character that is no quote and no backslash. -/
def Text.Place.settled : Place → Place
  | .escaped => .literal
  | p => p

namespace Fragment

/-- Where a reader stands behind a connective that follows the text. -/
def leave (p : Place) (f : Fragment) : Place := (p.after f.sql.toList).settled

/-- The placeholders of the texts of a row, each read from where the one before has left off. -/
def placeholdersInRow : Place → List Fragment → Nat
  | _, [] => 0
  | p, f :: fs => placeholdersFrom p f.sql.toList + placeholdersInRow (f.leave p) fs

/-- The placeholders that the fragments of a row have by themselves. -/
def ownPlaceholders : List Fragment → Nat
  | [] => 0
  | f :: fs => f.placeholders + ownPlaceholders fs

/-- A reader who starts the text outside every literal ends there. -/
def Closed (f : Fragment) : Prop := Place.outside.after f.sql.toList = .outside

instance (f : Fragment) : Decidable f.Closed :=
  inferInstanceAs (Decidable (Place.outside.after f.sql.toList = .outside))

end Fragment

/-- The fragments of the comparisons and given fragments of a condition, from left to right. -/
def Condition.leafFragments (c : Condition) : List Fragment := c.leaves.map Condition.toFragment

/-- The fragments that the conditions of a base query are made of. -/
def Select.leaves (b : Select) : List Fragment := b.conditions.flatMap Condition.leafFragments

/-- The check of a statement: each fragment of the clauses by itself, and all leaves of the base
query together. -/
structure Statement.Accepts (b : Select) (c : Clauses) : Prop where
  row : Fragment.placeholdersInRow .outside b.leaves =
    (b.leaves.flatMap Fragment.params).length
  fragments : ∀ f ∈ c.fragments, f.Matched

/-! ## Places -/

/-- A text between two others that ends an escape and holds no placeholder. -/
structure Text.Settles (w : List Char) : Prop where
  after : ∀ p : Place, p.after w = p.settled
  count : ∀ p : Place, placeholdersFrom p w = 0

theorem Text.settled_settled (p : Place) : p.settled.settled = p.settled := by
  cases p <;> rfl

theorem Text.settled_eq_outside_iff {p : Place} : p.settled = .outside ↔ p = .outside := by
  cases p <;> decide

theorem Text.settles_and : Settles " AND ".toList := by
  constructor <;> intro p <;> cases p <;> decide

theorem Text.settles_or : Settles " OR ".toList := by
  constructor <;> intro p <;> cases p <;> decide

theorem Text.settles_opening : Settles "(".toList := by
  constructor <;> intro p <;> cases p <;> decide

theorem Text.settles_closing : Settles ")".toList := by
  constructor <;> intro p <;> cases p <;> decide

namespace Fragment

/-! ## Rows -/

theorem placeholdersInRow_append (p : Place) (fs gs : List Fragment) :
    placeholdersInRow p (fs ++ gs) =
      placeholdersInRow p fs + placeholdersInRow (fs.foldl leave p) gs := by
  induction fs generalizing p with
  | nil => exact (Nat.zero_add _).symm
  | cons f fs ih =>
    rw [List.cons_append, placeholdersInRow, placeholdersInRow, ih, List.foldl_cons, Nat.add_assoc]

theorem settled_foldl_leave (p : Place) (fs : List Fragment) :
    (fs.foldl leave p.settled).settled = fs.foldl leave p.settled := by
  induction fs generalizing p with
  | nil => exact settled_settled p
  | cons f fs ih => exact ih _

/-- Closed texts are read as they are by themselves. -/
theorem placeholdersInRow_of_closed {fs : List Fragment} (h : ∀ f ∈ fs, f.Closed) :
    placeholdersInRow .outside fs = ownPlaceholders fs := by
  induction fs with
  | nil => rfl
  | cons f fs ih =>
    have hleave : f.leave .outside = .outside := congrArg Place.settled (h f List.mem_cons_self)
    rw [placeholdersInRow, ownPlaceholders, hleave,
      ih fun g hg => h g (List.mem_cons_of_mem f hg)]
    rfl

theorem ownPlaceholders_append (fs gs : List Fragment) :
    ownPlaceholders (fs ++ gs) = ownPlaceholders fs + ownPlaceholders gs := by
  induction fs with
  | nil => exact (Nat.zero_add _).symm
  | cons f fs ih => rw [List.cons_append, ownPlaceholders, ownPlaceholders, ih, Nat.add_assoc]

theorem ownPlaceholders_of_matched {fs : List Fragment} (h : ∀ f ∈ fs, f.Matched) :
    ownPlaceholders fs = (fs.flatMap params).length := by
  induction fs with
  | nil => rfl
  | cons f fs ih =>
    have hf : f.placeholders = f.params.length := h f List.mem_cons_self
    rw [ownPlaceholders, ih fun g hg => h g (List.mem_cons_of_mem f hg), hf, List.flatMap_cons,
      List.length_append]

/-! ## Texts made of leaves -/

/-- A fragment is read as a row of others: it has their parameters, and a reader finds their
placeholders and is left where they leave it. -/
structure MadeOf (f : Fragment) (gs : List Fragment) : Prop where
  params : f.params = gs.flatMap Fragment.params
  count : ∀ p : Place,
    placeholdersFrom p.settled f.sql.toList = placeholdersInRow p.settled gs
  leave : ∀ p : Place,
    (p.settled.after f.sql.toList).settled = gs.foldl Fragment.leave p.settled

namespace MadeOf

variable {f g : Fragment} {gs hs : List Fragment}

theorem empty : Fragment.empty.MadeOf [] := ⟨rfl, fun _ => rfl, settled_settled⟩

theorem single (f : Fragment) : f.MadeOf [f] :=
  ⟨(List.append_nil _).symm, fun _ => rfl, fun _ => rfl⟩

theorem parens (hf : f.MadeOf gs) : MadeOf ⟨"(" ++ f.sql ++ ")", f.params⟩ gs := by
  refine ⟨hf.params, fun p => ?_, fun p => ?_⟩
  · simp only [String.toList_append, placeholdersFrom_append, after_append,
      settles_opening.after, settles_opening.count, settles_closing.count, settled_settled]
    rw [Nat.zero_add, Nat.add_zero, hf.count]
  · simp only [String.toList_append, after_append, settles_opening.after, settles_closing.after,
      settled_settled, hf.leave, settled_foldl_leave]

theorem between (hf : f.MadeOf gs) {w : String} (hw : Settles w.toList) (hg : g.MadeOf hs) :
    MadeOf ⟨f.sql ++ w ++ g.sql, f.params ++ g.params⟩ (gs ++ hs) := by
  have hend := fun p => settled_foldl_leave p gs
  refine ⟨?_, fun p => ?_, fun p => ?_⟩
  · rw [List.flatMap_append, hf.params, hg.params]
  · simp only [String.toList_append, placeholdersFrom_append, after_append, hw.after, hw.count]
    rw [placeholdersInRow_append, hf.count, hf.leave, ← hend, hg.count, Nat.add_zero]
  · simp only [String.toList_append, after_append, hw.after]
    rw [List.foldl_append, hf.leave, ← hend, hg.leave]

/-- In the leaves of a fragment without text there is nothing to read. -/
theorem of_empty (hf : f.MadeOf gs) (h : f.sql = "") (p : Place) :
    placeholdersInRow p.settled gs = 0 ∧ gs.foldl Fragment.leave p.settled = p.settled := by
  have hcount := hf.count p
  have hleave := hf.leave p
  rw [h] at hcount hleave
  exact ⟨hcount.symm, hleave.symm.trans (settled_settled p)⟩

theorem append_of_empty_left (hf : f.MadeOf gs) (h : f.sql = "") (hg : g.MadeOf hs) :
    MadeOf ⟨g.sql, f.params ++ g.params⟩ (gs ++ hs) := by
  refine ⟨?_, fun p => ?_, fun p => ?_⟩
  · rw [List.flatMap_append, hf.params, hg.params]
  · rw [placeholdersInRow_append, (hf.of_empty h p).1, (hf.of_empty h p).2, Nat.zero_add]
    exact hg.count p
  · rw [List.foldl_append, (hf.of_empty h p).2]
    exact hg.leave p

theorem append_of_empty_right (hf : f.MadeOf gs) (hg : g.MadeOf hs) (h : g.sql = "") :
    MadeOf ⟨f.sql, f.params ++ g.params⟩ (gs ++ hs) := by
  have hend := fun p => settled_foldl_leave p gs
  refine ⟨?_, fun p => ?_, fun p => ?_⟩
  · rw [List.flatMap_append, hf.params, hg.params]
  · rw [placeholdersInRow_append, ← hend, (hg.of_empty h _).1, Nat.add_zero]
    exact hf.count p
  · rw [List.foldl_append, ← hend, (hg.of_empty h _).2, hend]
    exact hf.leave p

theorem and (hf : f.MadeOf gs) (hg : g.MadeOf hs) : (f.and g).MadeOf (gs ++ hs) := by
  show MadeOf ⟨andText f.sql g.sql, f.params ++ g.params⟩ (gs ++ hs)
  unfold andText
  split
  · next h => exact hf.append_of_empty_left h hg
  · split
    · next h => exact hf.append_of_empty_right hg h
    · exact hf.between settles_and hg

theorem or (hf : f.MadeOf gs) (hg : g.MadeOf hs) : (f.or g).MadeOf (gs ++ hs) := by
  show MadeOf ⟨orText f.sql g.sql, f.params ++ g.params⟩ (gs ++ hs)
  unfold orText
  split
  · next h => exact hf.append_of_empty_left h hg
  · split
    · next h => exact hf.append_of_empty_right hg h
    · have hsql : "(" ++ f.sql ++ ") OR (" ++ g.sql ++ ")" =
          "(" ++ f.sql ++ ")" ++ " OR " ++ ("(" ++ g.sql ++ ")") := by
        rw [show ") OR (" = ")" ++ " OR " ++ "(" by decide]
        simp only [String.append_assoc]
      rw [hsql]
      exact hf.parens.between settles_or hg.parens

theorem parenthesize (hf : f.MadeOf gs) : f.parenthesize.MadeOf gs := by
  unfold Fragment.parenthesize
  split
  · exact hf.parens
  · exact hf

/-- Fragments joined from the left are made of the leaves of all. -/
theorem foldl {join : Fragment → Fragment → Fragment}
    (hjoin : ∀ {f g gs hs}, MadeOf f gs → MadeOf g hs → (join f g).MadeOf (gs ++ hs))
    {α : Type} {render : α → Fragment} {parts : α → List Fragment} {as : List α}
    (has : ∀ a ∈ as, (render a).MadeOf (parts a)) (hf : f.MadeOf gs) :
    ((as.map render).foldl join f).MadeOf (gs ++ as.flatMap parts) := by
  induction as generalizing f gs with
  | nil =>
    rw [List.flatMap_nil, List.append_nil]
    exact hf
  | cons a as ih =>
    rw [List.map_cons, List.foldl_cons, List.flatMap_cons, ← List.append_assoc]
    exact ih (fun b hb => has b (List.mem_cons_of_mem a hb))
      (hjoin hf (has a List.mem_cons_self))

end MadeOf

end Fragment

namespace Condition

theorem leafFragments_all (cs : List Condition) :
    (all cs).leafFragments = cs.flatMap leafFragments := by
  unfold leafFragments
  rw [leaves_all, List.map_flatMap]

theorem leafFragments_any (cs : List Condition) :
    (any cs).leafFragments = cs.flatMap leafFragments := by
  unfold leafFragments
  rw [leaves_any, List.map_flatMap]

end Condition

namespace Fragment.MadeOf

theorem conjunction {cs : List Condition}
    (h : ∀ c ∈ cs, c.toFragment.MadeOf c.leafFragments) :
    (Fragment.conjunction (cs.map Condition.toFragment)).MadeOf
      (cs.flatMap Condition.leafFragments) := by
  unfold Fragment.conjunction
  rw [List.map_map]
  exact foldl MadeOf.and (fun c hc => (h c hc).parenthesize) empty

theorem disjunction {cs : List Condition}
    (h : ∀ c ∈ cs, c.toFragment.MadeOf c.leafFragments) :
    (Fragment.disjunction (cs.map Condition.toFragment)).MadeOf
      (cs.flatMap Condition.leafFragments) := by
  cases cs with
  | nil => exact empty
  | cons c cs =>
    exact foldl MadeOf.or (fun d hd => h d (List.mem_cons_of_mem c hd)) (h c List.mem_cons_self)

/-- A rendered condition is read as the row of its leaves. -/
theorem toFragment (c : Condition) : c.toFragment.MadeOf c.leafFragments := by
  induction c with
  | compare column op params => exact single _
  | raw f => exact single f
  | all cs ih =>
    rw [Condition.toFragment_all, Condition.leafFragments_all]
    exact conjunction ih
  | any cs ih =>
    rw [Condition.toFragment_any, Condition.leafFragments_any]
    exact disjunction ih

end Fragment.MadeOf

namespace Statement

open Fragment

variable {b : Select} {c : Clauses}

theorem matched_whereFragment_iff : b.whereFragment.Matched ↔
    placeholdersInRow .outside b.leaves = (b.leaves.flatMap Fragment.params).length := by
  have hmade : b.whereFragment.MadeOf b.leaves :=
    MadeOf.conjunction fun d _ => MadeOf.toFragment d
  have hcount : b.whereFragment.placeholders = placeholdersInRow .outside b.leaves :=
    hmade.count .outside
  unfold Matched
  rw [hcount, hmade.params]

/-! ## Accepted statements -/

/-- A fragment that is not matched stops the check, and it or one before it is reported. -/
theorem foldlM_join_of_not_matched {fs : List Fragment} (h : ∃ f ∈ fs, ¬ f.Matched)
    (condition : Fragment) :
    ∃ f ∈ fs, ¬ f.Matched ∧ fs.foldlM join condition = .error f.mismatch := by
  induction fs generalizing condition with
  | nil =>
    obtain ⟨f, hf, -⟩ := h
    cases hf
  | cons g fs ih =>
    by_cases hg : g.Matched
    · have hrest : ∃ f ∈ fs, ¬ f.Matched := by
        obtain ⟨f, hf, hne⟩ := h
        rcases List.mem_cons.mp hf with rfl | hf
        · exact absurd hg hne
        · exact ⟨f, hf, hne⟩
      obtain ⟨f, hf, hne, herror⟩ := ih hrest (condition.and g)
      refine ⟨f, List.mem_cons_of_mem g hf, hne, ?_⟩
      rw [List.foldlM_cons, join_of_matched hg]
      exact herror
    · refine ⟨g, List.mem_cons_self, hg, ?_⟩
      rw [List.foldlM_cons, join, validate_of_not_matched hg]
      rfl

theorem compile_of_accepts (h : Accepts b c) :
    compile b c = .ok ⟨text b c (joined b c), (joined b c).params⟩ := by
  unfold compile
  rw [condition_of_matched (matched_whereFragment_iff.mpr h.row) h.fragments]
  rfl

theorem compile_of_not_accepts (h : ¬ Accepts b c) :
    ∃ f ∈ b.whereFragment :: c.fragments, ¬ f.Matched ∧ compile b c = .error f.mismatch := by
  unfold compile condition
  by_cases hb : b.whereFragment.Matched
  · have hc : ∃ f ∈ c.fragments, ¬ f.Matched := by
      by_contra hall
      refine h ⟨matched_whereFragment_iff.mp hb, fun f hf => ?_⟩
      by_contra hne
      exact hall ⟨f, hf, hne⟩
    obtain ⟨f, hf, hne, herror⟩ := foldlM_join_of_not_matched hc b.whereFragment
    refine ⟨f, List.mem_cons_of_mem _ hf, hne, ?_⟩
    rw [validate_of_matched hb, herror]
    rfl
  · refine ⟨_, List.mem_cons_self, hb, ?_⟩
    rw [validate_of_not_matched hb]
    rfl

/-- Closed leaves are accepted if their own placeholders are as many as their parameters, taken
together. -/
theorem accepts_iff_of_closed (h : ∀ f ∈ b.leaves, f.Closed) : Accepts b c ↔
    ownPlaceholders b.leaves = (b.leaves.flatMap Fragment.params).length ∧
      ∀ f ∈ c.fragments, f.Matched := by
  rw [← placeholdersInRow_of_closed h]
  exact ⟨fun ha => ⟨ha.row, ha.fragments⟩, fun ⟨hrow, hfragments⟩ => ⟨hrow, hfragments⟩⟩

/-- A single closed leaf with another number of placeholders than of parameters is found. -/
theorem not_accepts_of_single (h : ∀ f ∈ b.leaves, f.Closed) {pre post : List Fragment}
    {l : Fragment} (hleaves : b.leaves = pre ++ l :: post) (hpre : ∀ f ∈ pre, f.Matched)
    (hpost : ∀ f ∈ post, f.Matched) (hl : ¬ l.Matched) : ¬ Accepts b c := by
  rw [accepts_iff_of_closed h]
  rintro ⟨hrow, -⟩
  rw [hleaves, ownPlaceholders_append, ownPlaceholders, ownPlaceholders_of_matched hpre,
    ownPlaceholders_of_matched hpost, List.flatMap_append, List.flatMap_cons, List.length_append,
    List.length_append] at hrow
  apply hl
  show l.placeholders = l.params.length
  omega

/-- A statement is compiled exactly if every fragment of its clauses has as many placeholders as
parameters and the row of all leaves of its base query has as many as their parameters together;
otherwise a fragment whose numbers differ is reported.  Among closed leaves numbers that differ
pass only by making up for each other: a single one is refused. -/
theorem compile_by_leaves (b : Select) (c : Clauses) :
    (Accepts b c → compile b c = .ok ⟨text b c (joined b c), (joined b c).params⟩) ∧
    (¬ Accepts b c → ∃ f ∈ b.whereFragment :: c.fragments, ¬ f.Matched ∧
      compile b c = .error f.mismatch) ∧
    ((∀ f ∈ b.leaves, f.Closed) →
      (Accepts b c ↔ ownPlaceholders b.leaves = (b.leaves.flatMap Fragment.params).length ∧
        ∀ f ∈ c.fragments, f.Matched) ∧
      ∀ pre l post, b.leaves = pre ++ l :: post → (∀ f ∈ pre, f.Matched) →
        (∀ f ∈ post, f.Matched) → ¬ l.Matched → ¬ Accepts b c) :=
  ⟨compile_of_accepts, compile_of_not_accepts, fun h => ⟨accepts_iff_of_closed h,
    fun _ _ _ hleaves hpre hpost hl => not_accepts_of_single h hleaves hpre hpost hl⟩⟩

/-- A base query with a parameter too many inside its groups. -/
def surplus : Select :=
  { Select.new "products" ["id"] with
    conditions := [.all [.raw ⟨"a = ?", [.integer 1]⟩, .any [.raw ⟨"b = 1", [.integer 5]⟩]]] }

theorem surplus_refused : ¬ Accepts surplus .empty ∧
    ∃ f ∈ [surplus.whereFragment], ¬ f.Matched ∧ compile surplus .empty = .error f.mismatch := by
  have hleaf : ¬ Matched ⟨"b = 1", [.integer 5]⟩ := by decide
  obtain ⟨-, hrefused, hclosed⟩ := compile_by_leaves surplus .empty
  have hnot : ¬ Accepts surplus .empty :=
    (hclosed (by decide)).2 [⟨"a = ?", [.integer 1]⟩] _ [] rfl (by decide) (by decide) hleaf
  exact ⟨hnot, hrefused hnot⟩

/-- A base query with a parameter too few in one condition and one too many in the other. -/
def crossed : Select :=
  { Select.new "products" ["id"] with
    conditions := [.raw ⟨"a = ?", []⟩, .raw ⟨"b = 1", [.integer 5]⟩] }

/-- Neither condition is matched, and yet the statement is compiled: the value given for the second
condition is bound in the first. -/
theorem crossed_compiled : (∀ f ∈ crossed.leaves, ¬ f.Matched) ∧
    compile crossed .empty =
      .ok ⟨"SELECT id FROM products WHERE a = ? AND b = 1", [.integer 5]⟩ := by
  refine ⟨by decide, ?_⟩
  rfl

end Statement

end IndexQuery
