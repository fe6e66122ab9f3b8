import IndexQuery.Proofs.Reading.Condition

/-!
# Texts that differ in single words

Two texts run parallel if they differ in nothing but words that stand before a blank, word by word.
Parallel texts put together are the same only if each pair of them is, since the first blank behind
a word shows where it ends.  Fragments with parallel texts and the same parameters stay such however
they are joined.

    s.Parallel t → (s ++ u = t ++ v ↔ s = t ∧ u = v)                    (Parallel.append_eq_iff)
    f.Twin E g → f'.Twin F g' → (f.and f').Twin (E ∧ F) (g.and g')                   (Twin.and)
    Along Twin E fs gs → (conjunction fs).Twin E (conjunction gs)             (Twin.conjunction)
-/

namespace IndexQuery

open Text Outcome

namespace Text

/-- Two texts that differ in single words at most. -/
inductive Parallel : List Char → List Char → Prop where
  | nil : Parallel [] []
  | char (c : Char) {s t : List Char} (h : Parallel s t) : Parallel (c :: s) (c :: t)
  | word {v w s t : List Char} (hv : ' ' ∉ v) (hw : ' ' ∉ w) (h : Parallel s t) :
    Parallel (v ++ ' ' :: s) (w ++ ' ' :: t)

/-- The first blank shows where a word ends. -/
theorem append_blank_eq_iff {v w s t : List Char} (hv : ' ' ∉ v) (hw : ' ' ∉ w) :
    v ++ ' ' :: s = w ++ ' ' :: t ↔ v = w ∧ s = t := by
  constructor
  · intro h
    induction v generalizing w with
    | nil =>
      cases w with
      | nil => exact ⟨rfl, List.tail_eq_of_cons_eq h⟩
      | cons d w =>
        rw [List.nil_append, List.cons_append, List.cons.injEq] at h
        exact absurd (h.1 ▸ List.mem_cons_self) hw
    | cons c v ih =>
      cases w with
      | nil =>
        rw [List.nil_append, List.cons_append, List.cons.injEq] at h
        exact absurd (h.1 ▸ List.mem_cons_self) hv
      | cons d w =>
        rw [List.cons_append, List.cons_append, List.cons.injEq] at h
        obtain ⟨rfl, hst⟩ := ih (fun hm => hv (List.mem_cons_of_mem c hm))
          (fun hm => hw (List.mem_cons_of_mem d hm)) h.2
        exact ⟨by rw [h.1], hst⟩
  · rintro ⟨rfl, rfl⟩
    rfl

namespace Parallel

variable {s t u v : List Char}

theorem refl (s : List Char) : Parallel s s := by
  induction s with
  | nil => exact .nil
  | cons c s ih => exact .char c ih

theorem append (h : Parallel s t) (h' : Parallel u v) : Parallel (s ++ u) (t ++ v) := by
  induction h with
  | nil => exact h'
  | char c _ ih => exact .char c ih
  | word hv hw _ ih =>
    rw [List.append_assoc, List.append_assoc]
    exact .word hv hw ih

theorem append_eq_iff (h : Parallel s t) : s ++ u = t ++ v ↔ s = t ∧ u = v := by
  induction h with
  | nil => simp
  | char c _ ih => simp [ih]
  | word hv hw _ ih =>
    rw [List.append_assoc, List.append_assoc, List.cons_append, List.cons_append,
      append_blank_eq_iff hv hw, append_blank_eq_iff hv hw, ih, and_assoc]

theorem eq_nil_iff (h : Parallel s t) : s = [] ↔ t = [] := by
  cases h with
  | nil => exact Iff.rfl
  | char c h => simp
  | word hv hw h => simp

/-- Strings put together from parallel ones. -/
theorem concat_eq_iff {s t u v : String} (h : Parallel s.toList t.toList) :
    s ++ u = t ++ v ↔ s = t ∧ u = v := by
  simp only [← String.toList_inj, String.toList_append]
  exact h.append_eq_iff

theorem concat {s t u v : String} (h : Parallel s.toList t.toList)
    (h' : Parallel u.toList v.toList) : Parallel (s ++ u).toList (t ++ v).toList := by
  rw [String.toList_append, String.toList_append]
  exact h.append h'

end Parallel

end Text

namespace Fragment

/-! ## Fragments -/

/-- Fragments with the same parameters and parallel texts, which are the same exactly if `E` is
true. -/
structure Twin (E : Prop) (f g : Fragment) : Prop where
  params : f.params = g.params
  compound : f.isCompound = g.isCompound
  text : Parallel f.sql.toList g.sql.toList
  equal : f.sql = g.sql ↔ E

namespace Twin

variable {E F : Prop} {f g f' g' : Fragment}

theorem refl (f : Fragment) : f.Twin True f :=
  ⟨rfl, rfl, .refl _, iff_of_true rfl trivial⟩

theorem of_iff (h : f.Twin E g) (hEF : E ↔ F) : f.Twin F g := propext hEF ▸ h

theorem sql_eq_empty_iff (h : f.Twin E g) : f.sql = "" ↔ g.sql = "" := by
  have hnil := h.text.eq_nil_iff
  simpa using hnil

theorem isEmpty_eq (h : f.Twin E g) : f.isEmpty = g.isEmpty := by
  unfold isEmpty
  rw [Bool.eq_iff_iff, beq_iff_eq, beq_iff_eq, h.sql_eq_empty_iff]

/-- Only the text decides whether a fragment is compound. -/
theorem isCompound_congr (h : f.sql = f'.sql) : f.isCompound = f'.isCompound := by
  unfold isCompound
  rw [h]

/-- Fragments with texts of twins. -/
theorem of_sql (h : f.Twin E g) (hf : f'.sql = f.sql) (hg : g'.sql = g.sql)
    (hparams : f'.params = g'.params) : f'.Twin E g' := by
  refine ⟨hparams, ?_, ?_, ?_⟩
  · rw [isCompound_congr hf, isCompound_congr hg, h.compound]
  · rw [hf, hg]
    exact h.text
  · rw [hf, hg]
    exact h.equal

/-- However two texts are joined, twins without text leave the other pair, and otherwise what is
joined with text between it is compound. -/
theorem join {join : Fragment → Fragment → Fragment}
    (hparams : ∀ f g, (join f g).params = f.params ++ g.params)
    (hleft : ∀ {f g}, f.sql = "" → (join f g).sql = g.sql)
    (hright : ∀ {f g}, g.sql = "" → (join f g).sql = f.sql)
    (hboth : ∀ {f g}, f.sql ≠ "" → g.sql ≠ "" → (join f g).isCompound = true)
    (htext : f.sql ≠ "" → f'.sql ≠ "" → g.sql ≠ "" → g'.sql ≠ "" →
      Parallel (join f f').sql.toList (join g g').sql.toList ∧
        ((join f f').sql = (join g g').sql ↔ f.sql = g.sql ∧ f'.sql = g'.sql))
    (h : f.Twin E g) (h' : f'.Twin F g') : (join f f').Twin (E ∧ F) (join g g') := by
  have hall : (join f f').params = (join g g').params := by
    rw [hparams, hparams, h.params, h'.params]
  by_cases hf : f.sql = ""
  · have hg := h.sql_eq_empty_iff.mp hf
    have hE : E := h.equal.mp (hf.trans hg.symm)
    exact (h'.of_sql (hleft hf) (hleft hg) hall).of_iff (by simp [hE])
  · have hg := fun hg => hf (h.sql_eq_empty_iff.mpr hg)
    by_cases hf' : f'.sql = ""
    · have hg' := h'.sql_eq_empty_iff.mp hf'
      have hF : F := h'.equal.mp (hf'.trans hg'.symm)
      exact (h.of_sql (hright hf') (hright hg') hall).of_iff (by simp [hF])
    · have hg' := fun hg' => hf' (h'.sql_eq_empty_iff.mpr hg')
      obtain ⟨hparallel, hequal⟩ := htext hf hf' hg hg'
      refine ⟨hall, ?_, hparallel, ?_⟩
      · rw [hboth hf hf', hboth hg hg']
      · rw [hequal, h.equal, h'.equal]

theorem and (h : f.Twin E g) (h' : f'.Twin F g') : (f.and f').Twin (E ∧ F) (g.and g') := by
  have hright : ∀ {f g : Fragment}, g.sql = "" → (f.and g).sql = f.sql := by
    intro f g hg
    show andText f.sql g.sql = f.sql
    unfold andText
    split
    · next hf => rw [hg, hf]
    · rfl
  refine join params_and (fun hf => if_pos hf) hright isCompound_and ?_ h h'
  intro hf hf' hg hg'
  have hword := h.text.concat (Parallel.refl " AND ".toList)
  rw [sql_and hf hf', sql_and hg hg', hword.concat_eq_iff, h.text.concat_eq_iff]
  exact ⟨hword.concat h'.text, by simp⟩

theorem or (h : f.Twin E g) (h' : f'.Twin F g') : (f.or f').Twin (E ∧ F) (g.or g') := by
  have hright : ∀ {f g : Fragment}, g.sql = "" → (f.or g).sql = f.sql := by
    intro f g hg
    show orText f.sql g.sql = f.sql
    unfold orText
    split
    · next hf => rw [hg, hf]
    · rfl
  refine join params_or (fun hf => if_pos hf) hright isCompound_or ?_ h h'
  intro hf hf' hg hg'
  have hopen := Parallel.refl "(".toList
  have hword := (hopen.concat h.text).concat (Parallel.refl ") OR (".toList)
  rw [sql_or hf hf', sql_or hg hg', (hword.concat h'.text).concat_eq_iff, hword.concat_eq_iff,
    (hopen.concat h.text).concat_eq_iff, hopen.concat_eq_iff]
  exact ⟨(hword.concat h'.text).concat (.refl _), by simp⟩

theorem parenthesize (h : f.Twin E g) : f.parenthesize.Twin E g.parenthesize := by
  have hopen := Parallel.refl "(".toList
  have hinner := hopen.concat h.text
  unfold Fragment.parenthesize
  rw [← h.compound]
  split
  · next hf =>
    have hcompound : ∀ {k : Fragment}, k.isCompound = true →
        (⟨"(" ++ k.sql ++ ")", k.params⟩ : Fragment).isCompound = true := by
      intro k hk
      unfold isCompound at hk ⊢
      simp only [Bool.or_eq_true, occursIn_eq_true_iff, String.toList_append] at hk ⊢
      have hinfix : k.sql.toList <:+: "(".toList ++ k.sql.toList ++ ")".toList :=
        List.infix_append _ _ _
      exact hk.imp (fun hand => hand.trans hinfix) fun hor => hor.trans hinfix
    refine ⟨h.params, ?_, hinner.concat (.refl _), ?_⟩
    · rw [hcompound hf, hcompound (h.compound ▸ hf)]
    · rw [hinner.concat_eq_iff, hopen.concat_eq_iff, h.equal]
      simp
  · exact h

/-- Twins joined from the left, one after another. -/
theorem foldl {join : Fragment → Fragment → Fragment}
    (hjoin : ∀ {E F f g f' g'}, Twin E f g → Twin F f' g' → Twin (E ∧ F) (join f f') (join g g'))
    {fs gs : List Fragment} (h : f.Twin E g) (hs : Along Twin F fs gs) :
    (fs.foldl join f).Twin (E ∧ F) (gs.foldl join g) := by
  induction hs generalizing E f g with
  | nil => exact h.of_iff (iff_of_eq (and_true E)).symm
  | cons hfirst _ ih => exact (ih (hjoin h hfirst)).of_iff (by tauto)

theorem conjunction {fs gs : List Fragment} (h : Along Twin E fs gs) :
    (Fragment.conjunction fs).Twin E (Fragment.conjunction gs) :=
  (foldl and (refl .empty) (h.map fun hfirst => hfirst.parenthesize)).of_iff
    (iff_of_eq (true_and E))

theorem disjunction {fs gs : List Fragment} (h : Along Twin E fs gs) :
    (Fragment.disjunction fs).Twin E (Fragment.disjunction gs) := by
  rw [disjunction_eq_foldl, disjunction_eq_foldl]
  exact (foldl or (refl .empty) h).of_iff (iff_of_eq (true_and E))

end Twin

/-! ## Inequalities -/

/-- A word between blanks does not begin in front of them. -/
theorem occursIn_append_blank {v : List Char} (hv : ' ' ∉ v) (pat s : List Char) :
    occursIn (' ' :: pat) (v ++ s) = occursIn (' ' :: pat) s := by
  induction v with
  | nil => rfl
  | cons c v ih =>
    have hc : ' ' ≠ c := fun h => hv (h ▸ List.mem_cons_self)
    have hprefix : (' ' :: pat).isPrefixOf (c :: (v ++ s)) = false := by
      simp [List.isPrefixOf, hc]
    rw [List.cons_append, occursIn, hprefix, Bool.false_or,
      ih fun hm => hv (List.mem_cons_of_mem c hm)]

/-- Inequalities of two words are twins. -/
theorem twin_inequality {v w : String} (hv : ' ' ∉ v.toList) (hw : ' ' ∉ w.toList)
    (ps : List Param) :
    (⟨v ++ " <> ?", ps⟩ : Fragment).Twin (v = w) ⟨w ++ " <> ?", ps⟩ := by
  have hcompound : ∀ {u : String}, ' ' ∉ u.toList →
      (⟨u ++ " <> ?", ps⟩ : Fragment).isCompound = false := by
    intro u hu
    have hand : " AND ".toList = ' ' :: "AND ".toList := by decide
    have hor : " OR ".toList = ' ' :: "OR ".toList := by decide
    unfold isCompound
    dsimp only
    rw [String.toList_append, hand, hor, occursIn_append_blank hu, occursIn_append_blank hu]
    decide
  refine ⟨rfl, ?_, ?_, ?_⟩
  · rw [hcompound hv, hcompound hw]
  · have hsymbol : " <> ?".toList = ' ' :: "<> ?".toList := by decide
    dsimp only
    rw [String.toList_append, String.toList_append, hsymbol]
    exact .word hv hw (.refl _)
  · exact String.append_left_inj " <> ?"

end Fragment

end IndexQuery
