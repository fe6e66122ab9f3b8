import IndexQuery.Proofs.Scan.Leaves

/-!
# Statements with any fragments

Fragments are checked by themselves and then written one behind another, so a literal that one of
them leaves open goes on in the next, where it hides placeholders or is closed by a quote that was
to open one.  A reader of a compiled statement therefore finds what a reader of the row of its
pieces finds: the leaves of the base query, the fragments, the search terms and the options.  If no
piece leaves a literal open, that is a placeholder for each parameter; behind a literal that is left
open and not closed again, it is none.

    p ≠ .outside → '\'' ∉ cs → placeholdersFrom p cs = 0        (placeholdersFrom_of_inside)
    compile b c = .ok s → placeholdersFrom .outside s.sql.toList =
      placeholdersInRow .outside (b.leaves ++ pieces c)              (placeholders_of_compile)
    s.Aligned ↔ the pieces behind the base query show as many placeholders as they have parameters
                                                                        (aligned_iff_pieces)
    every piece is closed → Scans s.sql.toList s.params.length           (scans_of_closed)
-/

namespace IndexQuery

open Text Outcome

/-! ## Algorithm -/

namespace Statement

/-- A reader of the whole text finds one placeholder for each parameter. -/
def Aligned (s : Statement) : Prop := placeholdersFrom .outside s.sql.toList = s.params.length

instance (s : Statement) : Decidable s.Aligned :=
  inferInstanceAs (Decidable (placeholdersFrom .outside s.sql.toList = s.params.length))

/-- What is written behind the conditions of a base query and may hold a quote or a placeholder:
the fragments, the search terms and the options. -/
def pieces (c : Clauses) : List Fragment :=
  c.fragments ++ [matchFragment c.matching, ⟨trailing c.options.clause?, []⟩]

/-- Where the conditions of a base query leave a reader. -/
def entry (b : Select) : Place := b.leaves.foldl Fragment.leave .outside

/-- Whatever is named around the conditions is an identifier. -/
structure Named (b : Select) (c : Clauses) : Prop where
  index : isIdentifier b.index = true
  columns : ∀ column ∈ b.columns, isIdentifier column = true
  order : ∀ t ∈ b.orderBy, isIdentifier t.column = true
  options : ∀ o ∈ c.options.entries, OptionSet.check o.1 o.2 = .ok ()

end Statement

/-! ## Places -/

namespace Text

theorem settled_next (p : Place) {c : Char} (h : c ≠ '\'') : (p.next c).settled = p.settled := by
  cases p with
  | outside => rw [Place.next, if_neg h]
  | literal =>
    rw [Place.next, if_neg h]
    split <;> rfl
  | escaped => rfl

section

variable {cs : List Char}

/-- A text without quote leaves a reader inside a literal, or outside, as it finds one. -/
theorem settled_after (h : '\'' ∉ cs) (p : Place) : (p.after cs).settled = p.settled := by
  induction cs generalizing p with
  | nil => rfl
  | cons c cs ih =>
    obtain ⟨hc, hcs⟩ := not_or.mp (List.mem_cons.not.mp h)
    rw [after_cons, ih hcs, settled_next p (Ne.symm hc)]

/-- Inside a literal that is not closed there are no placeholders. -/
theorem placeholdersFrom_of_inside {p : Place} (hp : p ≠ .outside) (h : '\'' ∉ cs) :
    placeholdersFrom p cs = 0 := by
  induction cs generalizing p with
  | nil => rfl
  | cons c cs ih =>
    obtain ⟨hc, hcs⟩ := not_or.mp (List.mem_cons.not.mp h)
    have hnext : p.next c ≠ .outside := by
      rw [Ne, ← settled_eq_outside_iff, settled_next p (Ne.symm hc), settled_eq_outside_iff]
      exact hp
    rw [placeholdersFrom, if_neg fun h => hp h.1, ih hnext hcs]

/-- A quiet text is read over wherever a reader stands. -/
theorem Quiet.placeholdersFrom (h : Quiet cs) (p : Place) : placeholdersFrom p cs = 0 := by
  by_cases hp : p = .outside
  · rw [hp]
    exact h.scans.count
  · exact placeholdersFrom_of_inside hp fun hquote => (h _ hquote).1 rfl

theorem Quiet.settled_after (h : Quiet cs) (p : Place) : (p.after cs).settled = p.settled :=
  Text.settled_after (fun hquote => (h _ hquote).1 rfl) p

end

end Text

namespace Fragment

/-- Behind a literal that is left open, pieces without quotes show no placeholders. -/
theorem placeholdersInRow_of_inside {p : Place} (hp : p ≠ .outside) {fs : List Fragment}
    (h : ∀ f ∈ fs, '\'' ∉ f.sql.toList) : placeholdersInRow p fs = 0 := by
  induction fs generalizing p with
  | nil => rfl
  | cons f fs ih =>
    have hf := h f List.mem_cons_self
    have hleave : f.leave p ≠ .outside := by
      rw [Ne, leave, settled_eq_outside_iff, ← settled_eq_outside_iff, settled_after hf,
        settled_eq_outside_iff]
      exact hp
    rw [placeholdersInRow, placeholdersFrom_of_inside hp hf,
      ih hleave fun g hg => h g (List.mem_cons_of_mem f hg)]

/-- Closed pieces leave a reader outside. -/
theorem foldl_leave_of_closed {fs : List Fragment} (h : ∀ f ∈ fs, f.Closed) :
    fs.foldl leave .outside = .outside := by
  induction fs with
  | nil => rfl
  | cons f fs ih =>
    have hleave : f.leave .outside = .outside := congrArg Place.settled (h f List.mem_cons_self)
    rw [List.foldl_cons, hleave, ih fun g hg => h g (List.mem_cons_of_mem f hg)]

end Fragment

/-! ## Whole texts -/

namespace Statement

open Fragment

variable {b : Select} {c : Clauses} {s : Statement}

/-- A clause behind a blank is read alike with and without a backslash before it. -/
theorem trailing_settled (clause : Option String) (p : Place) :
    placeholdersFrom p (trailing clause).toList =
        placeholdersFrom p.settled (trailing clause).toList ∧
      (p.after (trailing clause).toList).settled =
        (p.settled.after (trailing clause).toList).settled := by
  cases clause with
  | none => exact ⟨rfl, (settled_settled p).symm⟩
  | some s =>
    have htext : (trailing (some s)).toList = ' ' :: s.toList := by simp [trailing]
    rw [htext]
    cases p <;> exact ⟨rfl, rfl⟩

/-- The condition of a statement is read as the row of leaves, fragments and search terms. -/
theorem madeOf_joined (b : Select) (c : Clauses) :
    (joined b c).MadeOf (b.leaves ++ c.fragments ++ [matchFragment c.matching]) := by
  have hwhere : b.whereFragment.MadeOf b.leaves :=
    MadeOf.conjunction fun d _ => MadeOf.toFragment d
  have hfragments : ((c.fragments.map id).foldl Fragment.and b.whereFragment).MadeOf
      (b.leaves ++ c.fragments.flatMap fun f => [f]) :=
    MadeOf.foldl MadeOf.and (fun f _ => MadeOf.single f) hwhere
  rw [List.map_id, List.flatMap_singleton'] at hfragments
  exact hfragments.and (MadeOf.single _)

theorem quiet_trailing {clause : Option String} (h : ∀ s ∈ clause, Quiet s.toList) :
    Quiet (trailing clause).toList := by
  have hblank : Quiet " ".toList := by decide
  cases clause with
  | none => exact nofun
  | some s => exact hblank.concat (h s rfl)

/-- The condition stands in a statement with a word before it, if there is any. -/
theorem read_where (f : Fragment) :
    placeholdersFrom .outside (if f.isEmpty then "" else " WHERE " ++ f.sql).toList =
        placeholdersFrom .outside f.sql.toList ∧
      Place.outside.after (if f.isEmpty then "" else " WHERE " ++ f.sql).toList =
        Place.outside.after f.sql.toList := by
  split
  · next hempty =>
    rw [beq_iff_eq.mp hempty]
    exact ⟨rfl, rfl⟩
  · have hword : Scans " WHERE ".toList 0 := by decide
    rw [String.toList_append, placeholdersFrom_append, after_append, hword.closed, hword.count,
      Nat.zero_add]
    exact ⟨rfl, rfl⟩

/-- A reader of the whole statement finds what a reader of its pieces finds, and is left where they
leave one. -/
theorem read_text (h : Named b c) :
    placeholdersFrom .outside (text b c (joined b c)).toList =
        placeholdersInRow .outside (b.leaves ++ pieces c) ∧
      (Place.outside.after (text b c (joined b c)).toList).settled =
        (b.leaves ++ pieces c).foldl leave .outside := by
  have hselect := Select.scans_selectClause h.index h.columns
  have htail := quiet_trailing (Select.quiet_tailClause h.order)
  obtain ⟨hcount, hafter⟩ := read_where (joined b c)
  have hmade := madeOf_joined b c
  have hleave : (Place.outside.after (joined b c).sql.toList).settled =
      (b.leaves ++ c.fragments ++ [matchFragment c.matching]).foldl leave .outside :=
    hmade.leave .outside
  have hplaceholders : placeholdersFrom .outside (joined b c).sql.toList =
      placeholdersInRow .outside (b.leaves ++ c.fragments ++ [matchFragment c.matching]) :=
    hmade.count .outside
  have hrow : b.leaves ++ pieces c = (b.leaves ++ c.fragments ++ [matchFragment c.matching]) ++
      [⟨trailing c.options.clause?, []⟩] := by simp [pieces]
  -- the reader of the options stands where the condition has left it, but for a backslash
  have hoptions := trailing_settled c.options.clause?
    ((Place.outside.after (joined b c).sql.toList).after (trailing b.tailClause?).toList)
  rw [htail.settled_after, hleave] at hoptions
  have hend : (text b c (joined b c)).toList = b.selectClause.toList ++
      ((if (joined b c).isEmpty then "" else " WHERE " ++ (joined b c).sql).toList ++
        ((trailing b.tailClause?).toList ++ (trailing c.options.clause?).toList)) := by
    simp [text, String.toList_append, List.append_assoc]
  generalize b.leaves ++ c.fragments ++ [matchFragment c.matching] = row at *
  rw [hend, hrow, placeholdersInRow_append, List.foldl_append]
  constructor
  · rw [placeholdersFrom_append, hselect.count, hselect.closed, placeholdersFrom_append, hcount,
      hafter, placeholdersFrom_append, htail.placeholdersFrom, hoptions.1, hplaceholders,
      Nat.zero_add, Nat.zero_add]
    rfl
  · rw [after_append, hselect.closed, after_append, hafter, after_append, hoptions.2]
    rfl

/-! ## Alignment -/

/-- A statement that is compiled has been checked. -/
theorem accepts_of_compile (h : compile b c = .ok s) :
    Accepts b c ∧ s = ⟨text b c (joined b c), (joined b c).params⟩ := by
  by_cases haccepts : Accepts b c
  · exact ⟨haccepts, Except.ok.inj (h.symm.trans (compile_of_accepts haccepts))⟩
  · obtain ⟨f, -, -, herror⟩ := compile_of_not_accepts haccepts
    rw [herror] at h
    cases h

theorem params_joined_eq (b : Select) (c : Clauses) : (joined b c).params =
    b.leaves.flatMap Fragment.params ++ (pieces c).flatMap Fragment.params := by
  rw [(madeOf_joined b c).params]
  simp [pieces]

theorem scans_options (h : Named b c) : Scans (trailing c.options.clause?).toList 0 :=
  scans_trailing (OptionSet.scans_clause h.options)

/-- Every piece of a statement that is compiled has as many placeholders as parameters by itself. -/
theorem matched_pieces (h : Named b c) (haccepts : Accepts b c) : ∀ f ∈ pieces c, f.Matched := by
  intro f hf
  rcases List.mem_append.mp hf with hf | hf
  · exact haccepts.fragments f hf
  · rcases List.mem_pair.mp hf with rfl | rfl
    · exact (balanced_matchFragment c.matching).matched
    · exact (scans_options h).count

theorem closed_pieces (h : Named b c) (hfragments : ∀ f ∈ c.fragments, f.Closed) :
    ∀ f ∈ pieces c, f.Closed := by
  intro f hf
  rcases List.mem_append.mp hf with hf | hf
  · exact hfragments f hf
  · rcases List.mem_pair.mp hf with rfl | rfl
    · exact (balanced_matchFragment c.matching).closed
    · exact (scans_options h).closed

section

variable (h : Named b c) (hs : compile b c = .ok s)

include h hs

theorem placeholders_of_compile : placeholdersFrom .outside s.sql.toList =
    placeholdersInRow .outside (b.leaves ++ pieces c) := by
  obtain ⟨-, rfl⟩ := accepts_of_compile hs
  exact (read_text h).1

/-- The conditions of the base query are checked as a row, so only what stands behind them can put
placeholders and parameters out of step. -/
theorem aligned_iff_pieces : s.Aligned ↔
    placeholdersInRow (entry b) (pieces c) = ((pieces c).flatMap Fragment.params).length := by
  have hcount := placeholders_of_compile h hs
  obtain ⟨haccepts, rfl⟩ := accepts_of_compile hs
  have hrow := haccepts.row
  rw [placeholdersInRow_append] at hcount
  show placeholdersFrom .outside (text b c (joined b c)).toList = (joined b c).params.length ↔ _
  rw [hcount, params_joined_eq, List.length_append, hrow]
  exact Nat.add_left_cancel_iff

theorem scans_of_closed (hentry : entry b = .outside)
    (hfragments : ∀ f ∈ c.fragments, f.Closed) : Scans s.sql.toList s.params.length := by
  have hclosed := closed_pieces h hfragments
  have haligned : s.Aligned := by
    rw [aligned_iff_pieces h hs, hentry, placeholdersInRow_of_closed hclosed,
      ownPlaceholders_of_matched (matched_pieces h (accepts_of_compile hs).1)]
  obtain ⟨-, rfl⟩ := accepts_of_compile hs
  have hend := (read_text h).2
  rw [List.foldl_append] at hend
  refine ⟨settled_eq_outside_iff.mp (hend.trans ?_), haligned⟩
  show (pieces c).foldl leave (entry b) = .outside
  rw [hentry, foldl_leave_of_closed hclosed]

/-- Behind a literal that is left open and never closed no parameter finds its placeholder. -/
theorem aligned_iff_of_open {pre post : List Fragment} (hpieces : pieces c = pre ++ post)
    (hpre : placeholdersInRow (entry b) pre = (pre.flatMap Fragment.params).length)
    (hopen : pre.foldl leave (entry b) ≠ .outside) (hpost : ∀ f ∈ post, '\'' ∉ f.sql.toList) :
    s.Aligned ↔ ∀ f ∈ post, f.params = [] := by
  rw [aligned_iff_pieces h hs, hpieces, placeholdersInRow_append, hpre,
    placeholdersInRow_of_inside hopen hpost, List.flatMap_append, List.length_append,
    ← List.flatMap_eq_nil_iff, ← List.length_eq_zero_iff]
  omega

/-- A reader of a compiled statement finds the placeholders that the row of its leaves, fragments,
search terms and options shows, each being read from where the one before has left the reader.
There is one for each parameter exactly if that holds behind the leaves; it does if the leaves and
every fragment close their literals, and then the reader ends outside; behind a literal that is left
open and never closed it does only if nothing there has a parameter. -/
theorem aligned_iff_of_compile :
    placeholdersFrom .outside s.sql.toList =
      placeholdersInRow .outside (b.leaves ++ pieces c) ∧
    (s.Aligned ↔
      placeholdersInRow (entry b) (pieces c) = ((pieces c).flatMap Fragment.params).length) ∧
    (entry b = .outside → (∀ f ∈ c.fragments, f.Closed) →
      Scans s.sql.toList s.params.length) ∧
    ∀ pre post, pieces c = pre ++ post →
      placeholdersInRow (entry b) pre = (pre.flatMap Fragment.params).length →
      pre.foldl leave (entry b) ≠ .outside → (∀ f ∈ post, '\'' ∉ f.sql.toList) →
      (s.Aligned ↔ ∀ f ∈ post, f.params = []) :=
  ⟨placeholders_of_compile h hs, aligned_iff_pieces h hs, scans_of_closed h hs,
    fun _ _ hpieces hpre hopen hpost => aligned_iff_of_open h hs hpieces hpre hopen hpost⟩

end

/-- Fragments for products, the first of which holds a literal. -/
def pair (first : String) : Clauses :=
  { Clauses.empty with fragments := [⟨first, []⟩, ⟨"b = ?", [.integer 1]⟩] }

theorem closed_pair_aligned : Named (.new "products" ["id"]) (pair "a = 'x?'") ∧
    compile (.new "products" ["id"]) (pair "a = 'x?'") =
      .ok ⟨"SELECT id FROM products WHERE a = 'x?' AND b = ?", [.integer 1]⟩ ∧
    Scans "SELECT id FROM products WHERE a = 'x?' AND b = ?".toList 1 := by
  have hnamed : Named (.new "products" ["id"]) (pair "a = 'x?'") :=
    ⟨by decide, by decide, by decide, by decide⟩
  obtain ⟨-, -, hscans, -⟩ := aligned_iff_of_compile hnamed rfl
  exact ⟨hnamed, rfl, hscans rfl (by decide)⟩

/-- Each fragment has as many placeholders as parameters, and yet the statement has a parameter and
no placeholder for it.  As conditions of a base query the same two are refused. -/
theorem open_pair_not_aligned : Named (.new "products" ["id"]) (pair "a = 'x") ∧
    (∀ f ∈ (pair "a = 'x").fragments, f.Matched) ∧
    (∃ s, compile (.new "products" ["id"]) (pair "a = 'x") = .ok s ∧
      s = ⟨"SELECT id FROM products WHERE a = 'x AND b = ?", [.integer 1]⟩ ∧ ¬ s.Aligned) ∧
    compile { Select.new "products" ["id"] with
        conditions := (pair "a = 'x").fragments.map .raw } .empty =
      .error (.malformedFragment "a = 'x AND b = ?" 0 1) :=
  ⟨⟨by decide, by decide, by decide, by decide⟩, by decide, ⟨_, rfl, rfl, by decide⟩, rfl⟩

end Statement

end IndexQuery
