import IndexQuery.Proofs.Reading.Comparison

/-!
# Reading rendered conditions

A rendered condition is read as the tree that it was rendered from, without the groups that hold no
comparison.  A fragment whose text shows no connective is a single operand, so parentheses are left
out only where none are needed.

    f.Says φ → g.Says ψ → (f.and g).Says (all [φ, ψ])    if no OR stands open      (Says.and)
    f.Says φ → g.Says ψ → (f.or g).Says (any [φ, ψ])                                (Says.or)
    c.toFragment.Renders c.formula.prune                               (renders_toFragment)
-/

namespace IndexQuery

open Text Token

/-! ## Texts and their formulas -/

/-- The text of a fragment is read as a formula, and is a single operand if it shows no
connective. -/
structure Fragment.Says (f : Fragment) (φ : Formula (List Token)) : Prop where
  count : marks (ofText f.sql) = f.params.length
  reads : Reads f.bound φ
  solid : f.isCompound = false → Solid f.bound

/-- A fragment says what a formula does, and nothing if there is none. -/
def Fragment.Renders (f : Fragment) : Option (Formula (List Token)) → Prop
  | none => f = .empty
  | some φ => f.Says φ

/-- A fragment says the conjunction of formulas, with no OR open. -/
structure Fragment.Conjoins (f : Fragment) (φs : List (Formula (List Token))) : Prop where
  renders : f.Renders (Formula.group? .all φs)
  noOr : unsplitFrom isOr 0 f.bound = true

/-- A fragment says the disjunction of formulas. -/
def Fragment.Disjoins (f : Fragment) (φs : List (Formula (List Token))) : Prop :=
  f.Renders (Formula.group? .any φs)

namespace Condition

mutual

/-- The formula that a condition stands for. -/
def formula : Condition → Formula (List Token)
  | .compare column op params => .atom (toFragment (.compare column op params)).bound
  | .raw f => .atom f.bound
  | .all cs => .all (formulas cs)
  | .any cs => .any (formulas cs)

/-- The formulas that the conditions of a list stand for. -/
def formulas : List Condition → List (Formula (List Token))
  | [] => []
  | c :: cs => formula c :: formulas cs

end

theorem formulas_eq_map (cs : List Condition) : formulas cs = cs.map formula := by
  induction cs with
  | nil => rfl
  | cons c cs ih => rw [formulas, ih, List.map_cons]

theorem prune_formula_all (cs : List Condition) :
    (all cs).formula.prune = Formula.group? .all (cs.filterMap fun c => c.formula.prune) := by
  rw [formula, Formula.prune_all, formulas_eq_map, List.filterMap_map]
  rfl

theorem prune_formula_any (cs : List Condition) :
    (any cs).formula.prune = Formula.group? .any (cs.filterMap fun c => c.formula.prune) := by
  rw [formula, Formula.prune_any, formulas_eq_map, List.filterMap_map]
  rfl

end Condition

namespace Fragment

variable {f g : Fragment} {φ ψ : Formula (List Token)}

/-! ## Tokens of joined fragments -/

theorem Says.sql_ne_empty (h : f.Says φ) : f.sql ≠ "" := by
  intro hf
  apply h.reads.nonempty
  unfold bound
  rw [hf]
  cases f.params <;> rfl

theorem Says.of_agrees (h : f.Says φ) (hφ : φ.Agrees ψ) : f.Says ψ :=
  ⟨h.count, h.reads.of_agrees hφ, h.solid⟩

theorem sql_and (hf : f.sql ≠ "") (hg : g.sql ≠ "") :
    (f.and g).sql = f.sql ++ " AND " ++ g.sql := by
  show andText f.sql g.sql = _
  rw [andText, if_neg hf, if_neg hg]

theorem sql_or (hf : f.sql ≠ "") (hg : g.sql ≠ "") :
    (f.or g).sql = "(" ++ f.sql ++ ") OR (" ++ g.sql ++ ")" := by
  show orText f.sql g.sql = _
  rw [orText, if_neg hf, if_neg hg]

theorem ofText_and (s t : String) :
    ofText (s ++ " AND " ++ t) = ofText s ++ ([andWord] ++ ofText t) := by
  rw [ofText_append (apart_of_getLast? rfl (by decide)), ofText_append (.inr (by decide)),
    List.append_assoc]
  rfl

theorem ofText_group (s : String) :
    ofText ("(" ++ s ++ ")") = .opening :: (ofText s ++ [.closing]) := by
  rw [ofText_append (.inr (by decide)), ofText_append (.inl (by decide)), List.append_assoc]
  rfl

theorem ofText_or (s t : String) :
    ofText ("(" ++ s ++ ") OR (" ++ t ++ ")") =
      [.opening] ++ (ofText s ++ ([.closing, orWord, .opening] ++ (ofText t ++ [.closing]))) := by
  rw [ofText_append (.inr (by decide)), ofText_append (apart_of_getLast? rfl (by decide)),
    ofText_append (.inr (by decide)), ofText_append (.inl (by decide)), List.append_assoc,
    List.append_assoc, List.append_assoc]
  rfl

theorem isCompound_and (hf : f.sql ≠ "") (hg : g.sql ≠ "") : (f.and g).isCompound = true := by
  have hinfix : " AND ".toList <:+: (f.and g).sql.toList := by
    rw [sql_and hf hg, String.toList_append, String.toList_append]
    exact List.infix_append _ _ _
  rw [isCompound, occursIn_eq_true_iff.mpr hinfix, Bool.true_or]

theorem isCompound_or (hf : f.sql ≠ "") (hg : g.sql ≠ "") : (f.or g).isCompound = true := by
  have hinfix : " OR ".toList <:+: (f.or g).sql.toList := by
    have hword : ") OR (".toList = [')'] ++ " OR ".toList ++ ['('] := by decide
    rw [sql_or hf hg]
    simp only [String.toList_append, hword]
    exact ⟨"(".toList ++ f.sql.toList ++ [')'], ['('] ++ g.sql.toList ++ ")".toList, by simp⟩
  rw [isCompound, occursIn_eq_true_iff.mpr hinfix, Bool.or_true]

/-! ## Joined fragments -/

theorem Says.bound_and (hf : f.Says φ) (hg : g.Says ψ) :
    (f.and g).bound = f.bound ++ andWord :: g.bound := by
  have hfill := fill_join hf.count hg.count (a := []) (b := [andWord]) (c := []) rfl rfl
  rw [List.append_nil, List.append_nil] at hfill
  unfold bound
  rw [sql_and hf.sql_ne_empty hg.sql_ne_empty, ofText_and]
  exact hfill

theorem Says.and (hf : f.Says φ) (hg : g.Says ψ) (hfOr : unsplitFrom isOr 0 f.bound = true)
    (hgOr : unsplitFrom isOr 0 g.bound = true) : (f.and g).Says (.all [φ, ψ]) := by
  constructor
  · rw [sql_and hf.sql_ne_empty hg.sql_ne_empty, ofText_and, marks_append, marks_append, hf.count,
      hg.count]
    simp [params_and, marks, andWord]
  · rw [hf.bound_and hg]
    exact hf.reads.and hg.reads hfOr hgOr
  · intro h
    rw [isCompound_and hf.sql_ne_empty hg.sql_ne_empty] at h
    cases h

theorem Says.or (hf : f.Says φ) (hg : g.Says ψ) : (f.or g).Says (.any [φ, ψ]) := by
  have hsql := sql_or hf.sql_ne_empty hg.sql_ne_empty
  have hbound : (f.or g).bound = .opening :: (f.bound ++ [.closing]) ++
      orWord :: (.opening :: (g.bound ++ [.closing])) := by
    have hfill := fill_join hf.count hg.count (a := [.opening])
      (b := [.closing, orWord, .opening]) (c := [.closing]) rfl rfl
    unfold bound
    rw [hsql, ofText_or]
    refine hfill.trans ?_
    simp
  constructor
  · rw [hsql, ofText_or]
    simp only [marks_append, hf.count, hg.count]
    simp [params_or, marks, orWord]
  · rw [hbound]
    exact hf.reads.group.or hg.reads.group
  · intro h
    rw [isCompound_or hf.sql_ne_empty hg.sql_ne_empty] at h
    cases h

/-- With parentheses if its text shows a connective, a fragment is a single operand. -/
theorem Says.parenthesize (hf : f.Says φ) :
    f.parenthesize.Says φ ∧ Solid f.parenthesize.bound := by
  unfold Fragment.parenthesize
  split
  · have hbound : (⟨"(" ++ f.sql ++ ")", f.params⟩ : Fragment).bound =
        .opening :: (f.bound ++ [.closing]) := by
      unfold bound
      rw [ofText_group, fill_group hf.count]
    have hsolid : Solid (⟨"(" ++ f.sql ++ ")", f.params⟩ : Fragment).bound :=
      hbound ▸ solid_group hf.reads.closed
    refine ⟨⟨?_, hbound ▸ hf.reads.group, fun _ => hsolid⟩, hsolid⟩
    have hmarks : marks (.opening :: (ofText f.sql ++ [.closing])) = marks (ofText f.sql) := by
      simp [marks]
    rw [ofText_group, hmarks, hf.count]
  · next h => exact ⟨hf, hf.solid (eq_false_of_ne_true h)⟩

/-! ## Lists of fragments -/

theorem Renders.parenthesize {o : Option (Formula (List Token))} (h : f.Renders o) :
    f.parenthesize.Renders o ∧ unsplitFrom isOr 0 f.parenthesize.bound = true := by
  cases o with
  | none =>
    obtain rfl : f = empty := h
    have hempty : empty.parenthesize = empty := by decide
    exact ⟨hempty, by decide⟩
  | some φ =>
    obtain ⟨hclaim, hsolid⟩ := Says.parenthesize h
    exact ⟨hclaim, hsolid.noOr⟩

theorem empty_or (f : Fragment) : empty.or f = f := by
  simp [Fragment.or, orText, empty]

theorem or_empty (f : Fragment) : f.or empty = f := by
  cases f with
  | mk sql params => by_cases h : sql = "" <;> simp [Fragment.or, orText, empty, h]

theorem disjunction_eq_foldl (fs : List Fragment) :
    disjunction fs = fs.foldl Fragment.or empty := by
  cases fs with
  | nil => rfl
  | cons f fs => rw [disjunction, List.foldl_cons, empty_or]

theorem agrees_all_append (φ : Formula (List Token)) (φs : List (Formula (List Token))) :
    (Formula.all [.all φs, φ]).Agrees (.all (φs ++ [φ])) :=
  ⟨by simp, fun v => by simp⟩

theorem agrees_any_append (φ : Formula (List Token)) (φs : List (Formula (List Token))) :
    (Formula.any [.any φs, φ]).Agrees (.any (φs ++ [φ])) :=
  ⟨by simp, fun v => by simp⟩

theorem conjoins_empty : empty.Conjoins [] := ⟨rfl, rfl⟩

/-- One more member of a conjunction. -/
theorem Conjoins.and {φs : List (Formula (List Token))} (hf : f.Conjoins φs)
    {o : Option (Formula (List Token))} (hg : g.Renders o)
    (hOr : unsplitFrom isOr 0 g.bound = true) : (f.and g).Conjoins (φs ++ o.toList) := by
  cases o with
  | none =>
    obtain rfl : g = empty := hg
    rw [and_empty, Option.toList_none, List.append_nil]
    exact hf
  | some ψ =>
    have hg : g.Says ψ := hg
    cases φs with
    | nil =>
      obtain rfl : f = empty := hf.renders
      rw [empty_and]
      exact ⟨hg.of_agrees ⟨by simp, fun v => by simp⟩, hOr⟩
    | cons φ φs =>
      have hclaim : f.Says (.all (φ :: φs)) := hf.renders
      refine ⟨(hclaim.and hg hf.noOr hOr).of_agrees (agrees_all_append ψ (φ :: φs)), ?_⟩
      rw [hclaim.bound_and hg]
      exact unsplitFrom_and hclaim.reads.closed hf.noOr hOr

/-- One more member of a disjunction. -/
theorem Disjoins.or {φs : List (Formula (List Token))} (hf : f.Disjoins φs)
    {o : Option (Formula (List Token))} (hg : g.Renders o) :
    (f.or g).Disjoins (φs ++ o.toList) := by
  cases o with
  | none =>
    obtain rfl : g = empty := hg
    rw [or_empty, Option.toList_none, List.append_nil]
    exact hf
  | some ψ =>
    have hg : g.Says ψ := hg
    cases φs with
    | nil =>
      obtain rfl : f = empty := hf
      rw [empty_or]
      exact hg.of_agrees ⟨by simp, fun v => by simp⟩
    | cons φ φs =>
      have hclaim : f.Says (.any (φ :: φs)) := hf
      exact (hclaim.or hg).of_agrees (agrees_any_append ψ (φ :: φs))

theorem filterMap_cons_toList {α β : Type} (f : α → Option β) (a : α) (l : List α) :
    (a :: l).filterMap f = (f a).toList ++ l.filterMap f := by
  rw [List.filterMap_cons]
  cases f a <;> rfl

theorem conjoins_foldl {α : Type} {member : α → Fragment}
    {meaning : α → Option (Formula (List Token))} {l : List α}
    (h : ∀ a ∈ l, (member a).Renders (meaning a) ∧ unsplitFrom isOr 0 (member a).bound = true)
    {φs : List (Formula (List Token))} (hf : f.Conjoins φs) :
    ((l.map member).foldl Fragment.and f).Conjoins (φs ++ l.filterMap meaning) := by
  induction l generalizing f φs with
  | nil =>
    rw [List.filterMap_nil, List.append_nil]
    exact hf
  | cons a l ih =>
    obtain ⟨ha, hOr⟩ := h a List.mem_cons_self
    have hrest := ih (fun b hb => h b (List.mem_cons_of_mem a hb)) (hf.and ha hOr)
    rw [List.map_cons, List.foldl_cons, filterMap_cons_toList, ← List.append_assoc]
    exact hrest

theorem disjoins_foldl {α : Type} {member : α → Fragment}
    {meaning : α → Option (Formula (List Token))} {l : List α}
    (h : ∀ a ∈ l, (member a).Renders (meaning a)) {φs : List (Formula (List Token))}
    (hf : f.Disjoins φs) :
    ((l.map member).foldl Fragment.or f).Disjoins (φs ++ l.filterMap meaning) := by
  induction l generalizing f φs with
  | nil =>
    rw [List.filterMap_nil, List.append_nil]
    exact hf
  | cons a l ih =>
    have hrest := ih (fun b hb => h b (List.mem_cons_of_mem a hb)) (hf.or (h a List.mem_cons_self))
    rw [List.map_cons, List.foldl_cons, filterMap_cons_toList, ← List.append_assoc]
    exact hrest

/-- A conjunction of fragments says the conjunction of what they say. -/
theorem conjoins_conjunction {α : Type} {member : α → Fragment}
    {meaning : α → Option (Formula (List Token))} {l : List α}
    (h : ∀ a ∈ l, (member a).Renders (meaning a)) :
    (conjunction (l.map member)).Conjoins (l.filterMap meaning) := by
  unfold conjunction
  rw [List.map_map]
  exact conjoins_foldl (fun a ha => (h a ha).parenthesize) conjoins_empty

theorem disjoins_disjunction {α : Type} {member : α → Fragment}
    {meaning : α → Option (Formula (List Token))} {l : List α}
    (h : ∀ a ∈ l, (member a).Renders (meaning a)) :
    (disjunction (l.map member)).Disjoins (l.filterMap meaning) := by
  have hempty : Fragment.empty.Disjoins [] := rfl
  rw [disjunction_eq_foldl]
  exact disjoins_foldl h hempty

theorem says_of_isComparison (h : IsComparison (ofText f.sql) f.params.length) :
    f.Says (.atom f.bound) :=
  ⟨h.count, (h.toIsAtom.fill f.params).reads, fun _ => (h.toIsAtom.fill f.params).toSolid⟩

end Fragment

/-- A condition whose leaves are comparisons is rendered as its formula. -/
theorem Condition.renders_toFragment (c : Condition)
    (h : ∀ l ∈ c.leaves, IsComparison (ofText l.toFragment.sql) l.toFragment.params.length) :
    c.toFragment.Renders c.formula.prune := by
  induction c with
  | compare column op params =>
    exact Fragment.says_of_isComparison (h _ (List.mem_singleton_self _))
  | raw f => exact Fragment.says_of_isComparison (h _ (List.mem_singleton_self _))
  | all cs ih =>
    rw [leaves_all] at h
    rw [toFragment_all, prune_formula_all]
    exact (Fragment.conjoins_conjunction fun c hc =>
      ih c hc fun l hl => h l (List.mem_flatMap.mpr ⟨c, hc, hl⟩)).renders
  | any cs ih =>
    rw [leaves_any] at h
    rw [toFragment_any, prune_formula_any]
    exact Fragment.disjoins_disjunction fun c hc =>
      ih c hc fun l hl => h l (List.mem_flatMap.mpr ⟨c, hc, hl⟩)

end IndexQuery
