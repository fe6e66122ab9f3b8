import IndexQuery.Proofs.Reading.Operands

/-!
# Joined fragments

A fragment that is a condition by itself stays one in every way to join it with others.  With OR
between them, fragments are read as a disjunction, whatever they hold.  With AND between them they
are a row, in which a fragment that shows a connective stands between parentheses.  An OR of which
the text shows nothing, in small letters or next to a line break, stays open in the row.

    f.WellFormed → g.WellFormed → (f.or g).WellFormed                            (WellFormed.or)
    Reads (disjunction fs).tokens (any (fs.map …))                            (reads_disjunction)
    (conjunction fs).tokens = row (fs.map …)                                 (tokens_conjunction)
    an OR stands open in f.parenthesize ↔ f.HidesOr            (WellFormed.unsplitFrom_parenthesize)
-/

namespace IndexQuery

open Text Token

namespace Fragment

/-! ## Algorithm -/

/-- An OR stands outside the parentheses of a text that shows no connective. -/
def HidesOr (f : Fragment) : Prop := ¬ f.IsOperand ∧ f.isCompound = false

instance (f : Fragment) : Decidable f.HidesOr :=
  inferInstanceAs (Decidable (¬ f.IsOperand ∧ f.isCompound = false))

variable {f g : Fragment} {fs : List Fragment}

/-! ## Pairs of fragments -/

theorem WellFormed.count (h : f.WellFormed) : marks (lex f.sql) = f.params.length :=
  (marks_lex f.sql).trans h.balanced.count

theorem WellFormed.sql_ne_empty (h : f.WellFormed) : f.sql ≠ "" := h.states.nonempty

theorem WellFormed.reads (h : f.WellFormed) : Reads f.tokens (read f.tokens) := h.states.reads

theorem WellFormed.and (hf : f.WellFormed) (hg : g.WellFormed) : (f.and g).WellFormed := by
  have hlex : lex (f.and g).sql = lex f.sql ++ andWord :: lex g.sql := by
    rw [sql_and hf.sql_ne_empty hg.sql_ne_empty, lex_and hf.balanced.closed]
  refine ⟨hf.balanced.and hg.balanced, ?_, ?_⟩
  · rw [hlex]
    exact closesFrom_connect (fun _ => rfl) (by decide) hf.closed hg.closed
  · rw [hlex]
    simp

theorem WellFormed.lex_or (hf : f.WellFormed) (hg : g.WellFormed) :
    lex (f.or g).sql = [.opening] ++ (lex f.sql ++ ([.closing, orWord, .opening] ++
      (lex g.sql ++ [.closing]))) := by
  rw [sql_or hf.sql_ne_empty hg.sql_ne_empty, Token.lex_or hf.balanced.closed hg.balanced.closed]

theorem WellFormed.or (hf : f.WellFormed) (hg : g.WellFormed) : (f.or g).WellFormed := by
  have hgroups : lex (f.or g).sql = .opening :: (lex f.sql ++ [.closing]) ++
      orWord :: .opening :: (lex g.sql ++ [.closing]) := by
    rw [hf.lex_or hg]
    simp
  refine ⟨hf.balanced.or hg.balanced, ?_, ?_⟩
  · rw [hgroups]
    exact closesFrom_connect (fun _ => rfl) (by decide) (closesFrom_group hf.closed)
      (closesFrom_group hg.closed)
  · rw [hgroups]
    exact List.cons_ne_nil _ _

/-- A disjunction of two texts is read as the disjunction of what they say. -/
theorem WellFormed.reads_or (hf : f.WellFormed) (hg : g.WellFormed) {φ ψ : Formula (List Token)}
    (hφ : Reads f.tokens φ) (hψ : Reads g.tokens ψ) : Reads (f.or g).tokens (.any [φ, ψ]) := by
  have htokens : (f.or g).tokens = .opening :: (f.tokens ++ [.closing]) ++
      orWord :: .opening :: (g.tokens ++ [.closing]) := by
    have hfill := fill_join hf.count hg.count (a := [.opening])
      (b := [.closing, orWord, .opening]) (c := [.closing]) rfl rfl
    unfold tokens
    rw [hf.lex_or hg, params_or, hfill]
    simp
  rw [htokens]
  exact hφ.group.or hψ.group

theorem WellFormed.lex_group (h : f.WellFormed) :
    lex ("(" ++ f.sql ++ ")") = .opening :: (lex f.sql ++ [.closing]) := by
  have hlex := Token.lex_group h.balanced.closed ""
  rwa [String.append_empty] at hlex

theorem parenthesize_of_compound (h : f.isCompound = true) :
    f.parenthesize = ⟨"(" ++ f.sql ++ ")", f.params⟩ := if_pos h

theorem parenthesize_of_not_compound (h : f.isCompound = false) : f.parenthesize = f :=
  if_neg (Bool.eq_false_iff.mp h)

theorem WellFormed.parenthesize (h : f.WellFormed) : f.parenthesize.WellFormed := by
  cases hcompound : f.isCompound with
  | true =>
    have hbalanced := h.balanced.parenthesize
    rw [parenthesize_of_compound hcompound] at hbalanced ⊢
    refine ⟨hbalanced, ?_, ?_⟩
    · rw [h.lex_group]
      exact closesFrom_group h.closed
    · rw [h.lex_group]
      exact List.cons_ne_nil _ _
  | false =>
    rw [parenthesize_of_not_compound hcompound]
    exact h

theorem WellFormed.tokens_group (h : f.WellFormed) :
    (⟨"(" ++ f.sql ++ ")", f.params⟩ : Fragment).tokens = .opening :: (f.tokens ++ [.closing]) := by
  unfold tokens
  rw [h.lex_group, fill_group h.count]

/-- Parentheses around a text do not change what it says. -/
theorem WellFormed.reads_parenthesize (h : f.WellFormed) :
    Reads f.parenthesize.tokens (read f.tokens) := by
  cases hcompound : f.isCompound with
  | true =>
    rw [parenthesize_of_compound hcompound, h.tokens_group]
    exact h.reads.group
  | false =>
    rw [parenthesize_of_not_compound hcompound]
    exact h.reads

/-- Only a hidden OR stands open in a member of a conjunction. -/
theorem WellFormed.unsplitFrom_parenthesize (h : f.WellFormed) :
    unsplitFrom isOr 0 f.parenthesize.tokens = false ↔ f.HidesOr := by
  cases hcompound : f.isCompound with
  | true =>
    have hsolid := solid_group h.reads.closed
    rw [parenthesize_of_compound hcompound, h.tokens_group, hsolid.noOr]
    simp [HidesOr, hcompound]
  | false =>
    rw [parenthesize_of_not_compound hcompound, unsplitFrom_tokens]
    simp [HidesOr, IsOperand, hcompound]

theorem WellFormed.hidesOr_parenthesize (h : f.WellFormed) :
    f.parenthesize.HidesOr ↔ f.HidesOr := by
  cases hcompound : f.isCompound with
  | true =>
    have hoperand : f.parenthesize.IsOperand := by
      rw [parenthesize_of_compound hcompound]
      show unsplitFrom isOr 0 (lex ("(" ++ f.sql ++ ")")) = true
      rw [h.lex_group]
      exact (solid_group h.closed).noOr
    simp [HidesOr, hoperand, hcompound]
  | false => rw [parenthesize_of_not_compound hcompound]

/-! ## Lists of fragments -/

theorem conjunction_cons (f : Fragment) (fs : List Fragment) :
    conjunction (f :: fs) = (fs.map Fragment.parenthesize).foldl Fragment.and f.parenthesize := by
  rw [conjunction, List.map_cons, List.foldl_cons, empty_and]

theorem wellFormed_map_parenthesize (h : ∀ f ∈ fs, f.WellFormed) :
    ∀ g ∈ fs.map Fragment.parenthesize, g.WellFormed := by
  intro g hg
  obtain ⟨f, hf, rfl⟩ := List.mem_map.mp hg
  exact (h f hf).parenthesize

theorem WellFormed.conjunction (h : ∀ f ∈ fs, f.WellFormed) (hne : fs ≠ []) :
    (Fragment.conjunction fs).WellFormed := by
  obtain ⟨f, fs, rfl⟩ := List.exists_cons_of_ne_nil hne
  obtain ⟨hf, hfs⟩ := List.forall_mem_cons.mp (wellFormed_map_parenthesize h)
  rw [conjunction_cons]
  exact KeptByJoining.foldl WellFormed.and hfs hf

theorem WellFormed.disjunction (h : ∀ f ∈ fs, f.WellFormed) (hne : fs ≠ []) :
    (Fragment.disjunction fs).WellFormed := by
  obtain ⟨f, fs, rfl⟩ := List.exists_cons_of_ne_nil hne
  obtain ⟨hf, hfs⟩ := List.forall_mem_cons.mp h
  exact KeptByJoining.foldl WellFormed.or hfs hf

/-- Several fragments that are joined show a connective. -/
theorem isCompound_foldl {join : Fragment → Fragment → Fragment}
    (hjoin : ∀ {f g}, f.WellFormed → g.WellFormed → (join f g).WellFormed)
    (hcompound : ∀ {f g : Fragment}, f.sql ≠ "" → g.sql ≠ "" → (join f g).isCompound = true)
    (hf : f.WellFormed) (hfs : ∀ g ∈ fs, g.WellFormed) (hne : fs ≠ []) :
    (fs.foldl join f).isCompound = true := by
  obtain ⟨gs, g, rfl⟩ : ∃ gs g, fs = gs ++ [g] := ⟨_, _, (List.dropLast_append_getLast hne).symm⟩
  have hgs : (gs.foldl join f).WellFormed :=
    KeptByJoining.foldl hjoin (fun k hk => hfs k (List.mem_append_left _ hk)) hf
  have hg : g.WellFormed := hfs g (List.mem_append_right gs (List.mem_singleton_self g))
  rw [List.foldl_append]
  exact hcompound hgs.sql_ne_empty hg.sql_ne_empty

theorem isCompound_conjunction (h : ∀ f ∈ fs, f.WellFormed) (hlength : 1 < fs.length) :
    (conjunction fs).isCompound = true := by
  obtain ⟨f, fs, rfl⟩ := List.exists_cons_of_length_pos (Nat.lt_of_succ_lt hlength)
  obtain ⟨hf, hfs⟩ := List.forall_mem_cons.mp (wellFormed_map_parenthesize h)
  have hne : fs ≠ [] := List.ne_nil_of_length_pos (Nat.lt_of_succ_lt_succ hlength)
  rw [conjunction_cons]
  exact isCompound_foldl WellFormed.and isCompound_and hf hfs (by simpa using hne)

theorem isCompound_disjunction (h : ∀ f ∈ fs, f.WellFormed) (hlength : 1 < fs.length) :
    (disjunction fs).isCompound = true := by
  obtain ⟨f, fs, rfl⟩ := List.exists_cons_of_length_pos (Nat.lt_of_succ_lt hlength)
  obtain ⟨hf, hfs⟩ := List.forall_mem_cons.mp h
  have hne : fs ≠ [] := List.ne_nil_of_length_pos (Nat.lt_of_succ_lt_succ hlength)
  exact isCompound_foldl WellFormed.or isCompound_or hf hfs hne

/-- The text of a conjunction is read as a row. -/
theorem tokens_conjunction (h : ∀ f ∈ fs, f.WellFormed) (hne : fs ≠ []) :
    (conjunction fs).tokens = row (fs.map fun f => f.parenthesize.tokens) := by
  unfold conjunction
  have hmembers := wellFormed_map_parenthesize h
  rw [tokens_foldl_and (fun g hg => ⟨(hmembers g hg).balanced, (hmembers g hg).sql_ne_empty⟩)
    (by simpa using hne), List.map_map]
  rfl

theorem WellFormed.reads_foldl_or (hf : f.WellFormed) (hfs : ∀ g ∈ fs, g.WellFormed)
    {φs : List (Formula (List Token))} (hφs : Reads f.tokens (.any φs)) :
    Reads (fs.foldl Fragment.or f).tokens (.any (φs ++ fs.map fun g => read g.tokens)) := by
  induction fs generalizing f φs with
  | nil =>
    rw [List.map_nil, List.append_nil]
    exact hφs
  | cons g fs ih =>
    obtain ⟨hg, hfs⟩ := List.forall_mem_cons.mp hfs
    have hor := (hf.reads_or hg hφs hg.reads).of_agrees (agrees_any_append _ φs)
    have hrest := ih (hf.or hg) hfs hor
    rwa [List.append_assoc] at hrest

/-- The text of a disjunction is read as the disjunction of what its members say. -/
theorem reads_disjunction (h : ∀ f ∈ fs, f.WellFormed) (hne : fs ≠ []) :
    Reads (disjunction fs).tokens (.any (fs.map fun f => read f.tokens)) := by
  obtain ⟨f, fs, rfl⟩ := List.exists_cons_of_ne_nil hne
  obtain ⟨hf, hfs⟩ := List.forall_mem_cons.mp h
  have hfirst : Reads f.tokens (.any [read f.tokens]) :=
    hf.reads.of_agrees ⟨by simp, fun v => by simp⟩
  exact hf.reads_foldl_or hfs hfirst

end Fragment

end IndexQuery
