import IndexQuery.Proofs.Scan.Leaves

/-!
# Fragments put together

What is put together from well-formed fragments is well formed.  If no leaf of a condition leaves a
literal open and each has as many placeholders as parameters, the same holds of the condition,
whatever its tree is, and its parameters are those of the leaves in order.  By `AND` fragments form
a monoid, in which placeholders add up behind a fragment that is closed.

    f.Balanced ↔ f.Closed ∧ f.validate = .ok ()                                  (balanced_iff)
    l.SoundLeaf → l.toFragment.Balanced                                    (SoundLeaf.balanced)
    f.Closed → (f.and g).placeholders = f.placeholders + g.placeholders       (placeholders_and)
    f.Closed → ((f.and g).Closed ↔ g.Closed)                                   (closed_and_iff)
-/

namespace IndexQuery

open Text

/-! ## Algorithm -/

/-- A leaf that is well formed by itself: a given fragment that is closed and accepted, or the
comparison of a column without quotes and placeholders with one value, and for membership with any
number of values. -/
inductive Condition.SoundLeaf : Condition → Prop where
  | raw {f : Fragment} (closed : f.Closed) (accepted : f.validate = .ok ()) : SoundLeaf (.raw f)
  | compare {column : String} {op : Operator} {params : List Param}
    (quiet : Quiet column.toList) (single : op ≠ .oneOf → params.length = 1) :
    SoundLeaf (.compare column op params)

namespace Fragment

/-! ## Closed fragments -/

theorem validate_eq_ok_iff {f : Fragment} : f.validate = .ok () ↔ f.Matched := by
  refine ⟨fun h => ?_, validate_of_matched⟩
  by_contra hf
  rw [validate_of_not_matched hf] at h
  cases h

theorem balanced_iff {f : Fragment} : f.Balanced ↔ f.Closed ∧ f.validate = .ok () := by
  rw [validate_eq_ok_iff]
  exact ⟨fun h => ⟨h.closed, h.matched⟩, fun ⟨hclosed, hmatched⟩ => ⟨hclosed, hmatched⟩⟩

theorem closed_iff_leave {f : Fragment} : f.Closed ↔ f.leave .outside = .outside :=
  settled_eq_outside_iff.symm

section

variable {f : Fragment} (hf : f.Closed) (g : Fragment)

include hf

/-- Behind a closed fragment another is read as it is by itself. -/
theorem placeholders_and : (f.and g).placeholders = f.placeholders + g.placeholders := by
  have hcount : (f.and g).placeholders = placeholdersInRow .outside [f, g] :=
    ((MadeOf.single f).and (MadeOf.single g)).count .outside
  rw [hcount, placeholdersInRow, placeholdersInRow, closed_iff_leave.mp hf]
  rfl

theorem closed_and_iff : (f.and g).Closed ↔ g.Closed := by
  have hleave : (f.and g).leave .outside = g.leave (f.leave .outside) :=
    ((MadeOf.single f).and (MadeOf.single g)).leave .outside
  rw [closed_iff_leave, hleave, closed_iff_leave.mp hf, closed_iff_leave]

end

end Fragment

namespace Condition

/-! ## Trees -/

theorem SoundLeaf.balanced {l : Condition} (h : l.SoundLeaf) : l.toFragment.Balanced := by
  cases h with
  | raw hclosed haccepted => exact Fragment.balanced_iff.mpr ⟨hclosed, haccepted⟩
  | compare hquiet hsingle => exact Predicate.scans_compareText hquiet _ hsingle

/-- A condition whose leaves are well formed is closed and accepted.  Its parameters are those of
its leaves from left to right.  To join fragments by `AND` is associative, and nothing is added by
the empty one; behind a closed fragment the placeholders of another are added to its own, and the
whole is closed exactly if the other is. -/
theorem toFragment_composes :
    (∀ c : Condition, (∀ l ∈ c.leaves, l.SoundLeaf) →
      c.toFragment.Closed ∧ c.toFragment.validate = .ok ()) ∧
    (∀ c : Condition, c.toFragment.params = c.leafFragments.flatMap Fragment.params) ∧
    (∀ f g h : Fragment, (f.and g).and h = f.and (g.and h)) ∧
    (∀ f : Fragment, Fragment.empty.and f = f ∧ f.and .empty = f) ∧
    ∀ f : Fragment, f.Closed → ∀ g : Fragment,
      (f.and g).placeholders = f.placeholders + g.placeholders ∧
      ((f.and g).Closed ↔ g.Closed) := by
  refine ⟨fun c hc => ?_, fun c => (Fragment.MadeOf.toFragment c).params, Fragment.and_assoc,
    fun f => ⟨Fragment.empty_and f, Fragment.and_empty f⟩,
    fun f hf g => ⟨Fragment.placeholders_and hf g, Fragment.closed_and_iff hf g⟩⟩
  have hbalanced : c.toFragment.Balanced :=
    Fragment.keptByJoining_balanced.of_leaves c fun l hl => (hc l hl).balanced
  exact Fragment.balanced_iff.mp hbalanced

/-- A literal that holds a quote and a placeholder, a list of values, and groups without members. -/
def mixed : Condition :=
  .any [.all [], .raw ⟨"title = 'it\\'s ?' AND id = ?", [.integer 1]⟩,
    .all [.compare "tags" .oneOf [.integer 2, .integer 3], .any [.all [], .any []],
      .compare "price" .greater [.integer 5]]]

theorem mixed_composes : (∀ l ∈ mixed.leaves, l.SoundLeaf) ∧
    mixed.toFragment =
      ⟨"(title = 'it\\'s ?' AND id = ?) OR (tags IN (?, ?) AND price > ?)",
        [.integer 1, .integer 2, .integer 3, .integer 5]⟩ ∧
    mixed.toFragment.Closed ∧ mixed.toFragment.validate = .ok () ∧
    (Fragment.and ⟨"title = 'it\\'s ?'", []⟩ mixed.toFragment).placeholders = 4 := by
  obtain ⟨htree, -, -, -, hjoined⟩ := toFragment_composes
  have hliteral : SoundLeaf (.raw ⟨"title = 'it\\'s ?' AND id = ?", [.integer 1]⟩) :=
    .raw (by decide) rfl
  have htags : SoundLeaf (.compare "tags" .oneOf [.integer 2, .integer 3]) :=
    .compare (by decide) (by decide)
  have hprice : SoundLeaf (.compare "price" .greater [.integer 5]) :=
    .compare (by decide) (by decide)
  have hleaves : ∀ l ∈ mixed.leaves, l.SoundLeaf :=
    List.forall_mem_cons.mpr ⟨hliteral,
      List.forall_mem_cons.mpr ⟨htags, List.forall_mem_singleton.mpr hprice⟩⟩
  obtain ⟨hclosed, haccepted⟩ := htree mixed hleaves
  exact ⟨hleaves, rfl, hclosed, haccepted, (hjoined _ (by decide) _).1⟩

end Condition

end IndexQuery
