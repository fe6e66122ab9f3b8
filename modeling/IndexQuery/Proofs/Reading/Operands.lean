import IndexQuery.Proofs.Layout
import IndexQuery.Proofs.Reading.Lexer
import IndexQuery.Proofs.Reading.Row
import IndexQuery.Proofs.Reading.Statement

/-!
# Fragments from outside as operands

A search can be given any fragment, and a statement joins fragments with AND as they stand.
Conditions of the base query are put between parentheses before they are joined, so each of them is
one operand.  A fragment is one only if no OR stands outside its own parentheses, or if nothing else
is joined to it.  An open OR splits the whole condition: the rows behind it need not meet what
stands before it.

    the comparisons of the text are those of its operands, in order
    no fragment with an open OR, or a single operand →
      the text means the conjunction of its operands
    operands without a comparison in common → the text means their conjunction only then
                                                                      (reads_conjunction)
-/

namespace IndexQuery

open Text Token

/-! ## Algorithm -/

namespace Fragment

/-- The tokens of a fragment with literals, its parameters in the place of its placeholders. -/
def tokens (f : Fragment) : List Token := fill f.params (lex f.sql)

/-- A fragment that is a condition by itself: its literals and parentheses are closed, and each of
its parameters has a placeholder. -/
structure WellFormed (f : Fragment) : Prop where
  balanced : f.Balanced
  closed : closesFrom 0 (lex f.sql) = true
  nonempty : lex f.sql ≠ []

/-- No OR stands outside the parentheses of a fragment. -/
def IsOperand (f : Fragment) : Prop := unsplitFrom isOr 0 (lex f.sql) = true

instance (f : Fragment) : Decidable f.IsOperand :=
  inferInstanceAs (Decidable (unsplitFrom isOr 0 (lex f.sql) = true))

end Fragment

/-- A comparison of a column, with one value for each placeholder. -/
def Condition.OfColumn : Condition → Prop
  | .compare column op params =>
    isIdentifier column = true ∧ isConnective column = false ∧
      (op.symbol?.isSome = true → params.length = 1)
  | .raw _ | .all _ | .any _ => False

namespace Statement

/-- A condition of the base query as an operand, with what it says, if it adds anything. -/
def unit? (d : Condition) : Option (Fragment × Formula (List Token)) :=
  d.formula.prune.map fun φ => (d.toFragment.parenthesize, φ)

/-- The operands of a statement's condition, each with what it says by itself: the conditions of the
base query, the fragments and the search terms. -/
def units (b : Select) (c : Clauses) : List (Fragment × Formula (List Token)) :=
  b.conditions.filterMap unit? ++ c.fragments.map (fun f => (f, read f.tokens)) ++
    c.matching.queryText?.toList.map fun text => (⟨"MATCH(?)", [.string text]⟩,
      .atom [.word "MATCH".toList, .opening, .value (.string text), .closing])

/-- The conjunction of the operands. -/
def conjunction (b : Select) (c : Clauses) : Formula (List Token) :=
  .all ((units b c).map Prod.snd)

end Statement

/-! ## Rendered conditions -/

namespace Fragment

variable {f : Fragment}

theorem tokens_eq_bound (h : Plain f.sql.toList) : f.tokens = f.bound := by
  unfold tokens bound
  rw [lex_eq_ofText h]

theorem Says.balanced {φ : Formula (List Token)} (hf : f.Says φ) (h : Plain f.sql.toList) :
    f.Balanced := by
  refine ⟨h.after, ?_⟩
  rw [← marks_lex, lex_eq_ofText h, hf.count]

theorem plain_placeholderList (n : Nat) : Plain (placeholderList n).toList := by
  unfold placeholderList
  induction n with
  | zero => decide
  | succ n ih =>
    cases n with
    | zero => decide
    | succ n =>
      have hmark : Plain "?".toList := by decide
      have hcomma : Plain ", ".toList := by decide
      rw [List.replicate_succ, List.replicate_succ, String.intercalate_cons_cons,
        ← List.replicate_succ]
      exact (hmark.concat hcomma).concat ih

theorem keptByJoining_plain : KeptByJoining fun f => Plain f.sql.toList := by
  have hopen : Plain "(".toList := by decide
  have hclose : Plain ")".toList := by decide
  constructor
  · show Plain "".toList
    decide
  · intro f g hf hg
    have hword : Plain " AND ".toList := by decide
    show Plain (andText f.sql g.sql).toList
    unfold andText
    split
    · exact hg
    · split
      · exact hf
      · exact (hf.concat hword).concat hg
  · intro f g hf hg
    have hword : Plain ") OR (".toList := by decide
    show Plain (orText f.sql g.sql).toList
    unfold orText
    split
    · exact hg
    · split
      · exact hf
      · exact (((hopen.concat hf).concat hword).concat hg).concat hclose
  · intro f hf
    unfold Fragment.parenthesize
    split
    · exact (hopen.concat hf).concat hclose
    · exact hf

end Fragment

namespace Condition

variable {l : Condition}

theorem plain_compareText {column : String} (hc : isIdentifier column = true) (op : Operator)
    (n : Nat) : Plain (compareText column op n).toList := by
  have hcolumn := plain_identifier hc
  have hblank : Plain " ".toList := by decide
  have hmark : Plain " ?".toList := by decide
  have hopen : Plain " IN (".toList := by decide
  have hclose : Plain ")".toList := by decide
  unfold compareText
  split
  · next symbol h =>
    have hsymbol : Plain symbol.toList := by
      cases op <;> cases h <;> decide
    exact ((hcolumn.concat hblank).concat hsymbol).concat hmark
  · exact ((hcolumn.concat hopen).concat (Fragment.plain_placeholderList n)).concat hclose

/-- A comparison of a column is an atom of plain text. -/
theorem OfColumn.isComparison (h : l.OfColumn) :
    Token.IsComparison (ofText l.toFragment.sql) l.toFragment.params.length ∧
      Plain l.toFragment.sql.toList := by
  cases l with
  | compare column op params =>
    obtain ⟨hcolumn, hconnective, hcount⟩ := h
    rw [toFragment]
    refine ⟨?_, plain_compareText hcolumn op params.length⟩
    by_cases hsearch : op = .search
    · -- a search on a column is written like a list of values
      subst hsearch
      have hlist : IsComparison (ofText (compareText column .oneOf params.length)) params.length :=
        Predicate.isComparison_compareText hcolumn hconnective (fun h => absurd rfl h) (by decide)
      exact hlist
    · refine Predicate.isComparison_compareText hcolumn hconnective (fun hlist => hcount ?_) hsearch
      cases op with
      | oneOf => exact absurd rfl hlist
      | search => exact absurd rfl hsearch
      | _ => rfl
  | raw f => exact h.elim
  | all cs => exact h.elim
  | any cs => exact h.elim

end Condition

/-! ## Operands -/

/-- A fragment with text that is read as a formula. -/
structure Fragment.States (f : Fragment) (φ : Formula (List Token)) : Prop where
  balanced : f.Balanced
  reads : Reads f.tokens φ
  nonempty : f.sql ≠ ""

namespace Fragment

variable {f : Fragment} {φ : Formula (List Token)}

theorem Says.states (hf : f.Says φ) (h : Plain f.sql.toList) : f.States φ :=
  ⟨hf.balanced h, tokens_eq_bound h ▸ hf.reads, hf.sql_ne_empty⟩

theorem unsplitFrom_tokens (f : Fragment) :
    unsplitFrom isOr 0 f.tokens = unsplitFrom isOr 0 (lex f.sql) :=
  unsplitFrom_fill (fun _ => isKeyword_of_not_word) f.params 0 (lex f.sql)

theorem fill_ne_nil {ts : List Token} (h : ts ≠ []) (ps : List Param) : fill ps ts ≠ [] := by
  obtain ⟨t, ts, rfl⟩ := List.exists_cons_of_ne_nil h
  cases ps with
  | nil => exact List.cons_ne_nil t ts
  | cons p ps =>
    rw [fill]
    split <;> exact List.cons_ne_nil _ _

theorem WellFormed.states (h : f.WellFormed) : f.States (read f.tokens) := by
  have hclosed : closesFrom 0 f.tokens = true := (closesFrom_fill _ _ _).trans h.closed
  refine ⟨h.balanced, Reads.of_closed hclosed (fill_ne_nil h.nonempty _), fun hempty => ?_⟩
  apply h.nonempty
  rw [hempty]
  rfl

end Fragment

namespace Statement

/-- A condition of comparisons is an operand in which no OR stands open, or adds nothing. -/
theorem states_of_unit {d : Condition} (hd : ∀ l ∈ d.leaves, l.OfColumn) :
    (unit? d = none ∧ d.toFragment.parenthesize = .empty) ∨
      ∃ φ, unit? d = some (d.toFragment.parenthesize, φ) ∧ d.toFragment.parenthesize.States φ ∧
        d.toFragment.parenthesize.IsOperand := by
  have hplain : Plain d.toFragment.parenthesize.sql.toList :=
    Fragment.keptByJoining_plain.parenthesize
      (Fragment.keptByJoining_plain.of_leaves d fun l hl => (hd l hl).isComparison.2)
  obtain ⟨hrenders, hOr⟩ :=
    (d.renders_toFragment fun l hl => (hd l hl).isComparison.1).parenthesize
  rw [← Fragment.tokens_eq_bound hplain, Fragment.unsplitFrom_tokens] at hOr
  unfold unit?
  cases hprune : d.formula.prune with
  | none =>
    rw [hprune] at hrenders
    exact .inl ⟨rfl, hrenders⟩
  | some φ =>
    rw [hprune] at hrenders
    have hclaim : d.toFragment.parenthesize.Says φ := hrenders
    exact .inr ⟨φ, rfl, hclaim.states hplain, hOr⟩

theorem states_match (text : String) :
    (⟨"MATCH(?)", [.string text]⟩ : Fragment).States
        (.atom [.word "MATCH".toList, .opening, .value (.string text), .closing]) ∧
      (⟨"MATCH(?)", [.string text]⟩ : Fragment).IsOperand := by
  have hplain : Plain "MATCH(?)".toList := by decide
  have hoperand : unsplitFrom isOr 0 (lex "MATCH(?)") = true := by decide
  exact ⟨(says_match text).1.states hplain, hoperand⟩

variable {b : Select} {c : Clauses}

/-- Every operand states what it says. -/
theorem states_of_mem_units (hb : ∀ d ∈ b.conditions, ∀ l ∈ d.leaves, l.OfColumn)
    (hc : ∀ f ∈ c.fragments, f.WellFormed) {u : Fragment × Formula (List Token)}
    (hu : u ∈ units b c) : u.1.States u.2 ∧ (u.1.IsOperand ∨ u.1 ∈ c.fragments) := by
  rcases List.mem_append.mp hu with hu | hu
  · rcases List.mem_append.mp hu with hu | hu
    · obtain ⟨d, hd, hunit⟩ := List.mem_filterMap.mp hu
      rcases states_of_unit (hb d hd) with ⟨hnone, -⟩ | ⟨φ, hsome, hstates, hoperand⟩
      · rw [hnone] at hunit
        cases hunit
      · rw [hsome] at hunit
        cases hunit
        exact ⟨hstates, .inl hoperand⟩
    · obtain ⟨f, hf, rfl⟩ := List.mem_map.mp hu
      exact ⟨(hc f hf).states, .inr hf⟩
  · obtain ⟨text, -, rfl⟩ := List.mem_map.mp hu
    obtain ⟨hstates, hoperand⟩ := states_match text
    exact ⟨hstates, .inl hoperand⟩

/-- The condition of a statement is made of its operands. -/
theorem joined_eq_foldl_units (hb : ∀ d ∈ b.conditions, ∀ l ∈ d.leaves, l.OfColumn) :
    joined b c = ((units b c).map Prod.fst).foldl Fragment.and .empty := by
  have hbase : ∀ {ds : List Condition}, (∀ d ∈ ds, ∀ l ∈ d.leaves, l.OfColumn) → ∀ f : Fragment,
      (ds.map fun d => d.toFragment.parenthesize).foldl Fragment.and f =
        ((ds.filterMap unit?).map Prod.fst).foldl Fragment.and f := by
    intro ds hds
    induction ds with
    | nil => exact fun f => rfl
    | cons d ds ih =>
      intro f
      have hrest := ih fun e he => hds e (List.mem_cons_of_mem d he)
      rcases states_of_unit (hds d List.mem_cons_self) with ⟨hnone, hempty⟩ | ⟨φ, hsome, -⟩
      · rw [List.map_cons, List.foldl_cons, hempty, Fragment.and_empty, hrest,
          List.filterMap_cons_none hnone]
      · rw [List.map_cons, List.foldl_cons, hrest, List.filterMap_cons_some hsome, List.map_cons,
          List.foldl_cons]
  have hfragments : (c.fragments.map fun f => (f, read f.tokens)).map Prod.fst = c.fragments := by
    rw [List.map_map]
    exact List.map_id _
  have hmatch : (c.matching.queryText?.toList.map fun text =>
      ((⟨"MATCH(?)", [.string text]⟩ : Fragment),
        Formula.atom [Token.word "MATCH".toList, .opening, .value (.string text), .closing])).map
        Prod.fst =
      c.matching.queryText?.toList.map fun text => ⟨"MATCH(?)", [.string text]⟩ := by
    rw [List.map_map]
    rfl
  rw [joined_eq_foldl]
  unfold operands units
  rw [List.map_append, List.map_append, hfragments, hmatch, List.foldl_append, List.foldl_append,
    List.foldl_append, List.foldl_append, hbase hb]

end Statement

namespace Fragment

/-- The tokens of fragments with AND between them. -/
theorem tokens_row {fs : List Fragment} (h : ∀ f ∈ fs, f.Balanced) (hne : fs ≠ []) :
    fill (fs.flatMap params) (lex (" AND ".intercalate (fs.map sql))) = row (fs.map tokens) := by
  induction fs with
  | nil => exact absurd rfl hne
  | cons f fs ih =>
    have hf := h f List.mem_cons_self
    cases fs with
    | nil =>
      rw [List.map_singleton, List.map_singleton, List.flatMap_singleton,
        String.intercalate_singleton, row_singleton]
      rfl
    | cons g fs =>
      have hrest := ih (fun k hk => h k (List.mem_cons_of_mem f hk)) (List.cons_ne_nil g fs)
      have hmarks : marks (lex f.sql) = f.params.length := (marks_lex f.sql).trans hf.count
      have hword : ∀ ps ts, fill ps (andWord :: ts) = andWord :: fill ps ts := by
        intro ps ts
        show fill ps ([andWord] ++ ts) = [andWord] ++ fill ps ts
        exact fill_unmarked rfl ps ts
      rw [List.map_cons, List.map_cons] at hrest ⊢
      rw [List.map_cons, List.map_cons, String.intercalate_cons_cons, List.flatMap_cons,
        lex_and hf.closed, fill_append hmarks, hword, hrest, row_cons]
      rfl

theorem texts_eq_map {fs : List Fragment} (h : ∀ f ∈ fs, f.sql ≠ "") : texts fs = fs.map sql := by
  refine List.filter_eq_self.mpr fun s hs => ?_
  obtain ⟨f, hf, rfl⟩ := List.mem_map.mp hs
  exact bne_iff_ne.mpr (h f hf)

/-- Joined fragments with text are read as a row. -/
theorem tokens_foldl_and {fs : List Fragment} (h : ∀ f ∈ fs, f.Balanced ∧ f.sql ≠ "")
    (hne : fs ≠ []) : (fs.foldl Fragment.and .empty).tokens = row (fs.map tokens) := by
  have hsql : (fs.foldl Fragment.and .empty).sql = " AND ".intercalate (fs.map sql) := by
    rw [sql_foldl_and, texts_cons_of_empty rfl, texts_eq_map fun f hf => (h f hf).2]
  have hparams : (fs.foldl Fragment.and .empty).params = fs.flatMap params := by
    rw [params_foldl_and]
    rfl
  rw [tokens, hsql, hparams, tokens_row (fun f hf => (h f hf).1) hne]

end Fragment

namespace Statement

variable {b : Select} {c : Clauses}

/-- The operands of a condition as tokens. -/
def tokenUnits (b : Select) (c : Clauses) : List (List Token × Formula (List Token)) :=
  (units b c).map fun u => (u.1.tokens, u.2)

theorem reads_of_mem_tokenUnits (hb : ∀ d ∈ b.conditions, ∀ l ∈ d.leaves, l.OfColumn)
    (hc : ∀ f ∈ c.fragments, f.WellFormed) : ∀ o ∈ tokenUnits b c, Reads o.1 o.2 := by
  intro o ho
  obtain ⟨u, hu, rfl⟩ := List.mem_map.mp ho
  exact (states_of_mem_units hb hc hu).1.reads

theorem conjunction_eq : conjunction b c = .all ((tokenUnits b c).map Prod.snd) := by
  unfold conjunction tokenUnits
  rw [List.map_map]
  rfl

theorem isEmpty_joined (hb : ∀ d ∈ b.conditions, ∀ l ∈ d.leaves, l.OfColumn)
    (hc : ∀ f ∈ c.fragments, f.WellFormed) : (joined b c).isEmpty = (units b c).isEmpty := by
  have htexts : Fragment.texts ((units b c).map Prod.fst) =
      ((units b c).map Prod.fst).map Fragment.sql := by
    refine Fragment.texts_eq_map fun f hf => ?_
    obtain ⟨u, hu, rfl⟩ := List.mem_map.mp hf
    exact (states_of_mem_units hb hc hu).1.nonempty
  have hempty := Fragment.intercalate_texts_eq_empty_iff ((units b c).map Prod.fst)
  unfold Fragment.isEmpty
  rw [joined_eq_foldl_units hb, Fragment.sql_foldl_and, Fragment.texts_cons_of_empty rfl,
    Bool.eq_iff_iff, beq_iff_eq, hempty, htexts, List.isEmpty_iff, List.map_eq_nil_iff,
    List.map_eq_nil_iff]

/-- The tokens of a condition are those of its operands in a row. -/
theorem tokens_joined (hb : ∀ d ∈ b.conditions, ∀ l ∈ d.leaves, l.OfColumn)
    (hc : ∀ f ∈ c.fragments, f.WellFormed) (hne : units b c ≠ []) :
    fill (joined b c).params (lex (joined b c).sql) = row ((tokenUnits b c).map Prod.fst) := by
  have hunits : ∀ f ∈ (units b c).map Prod.fst, f.Balanced ∧ f.sql ≠ "" := by
    intro f hf
    obtain ⟨u, hu, rfl⟩ := List.mem_map.mp hf
    have hstates := (states_of_mem_units hb hc hu).1
    exact ⟨hstates.balanced, hstates.nonempty⟩
  have htokens := Fragment.tokens_foldl_and hunits (by simpa using hne)
  rw [← joined_eq_foldl_units hb] at htokens
  refine htokens.trans ?_
  unfold tokenUnits
  rw [List.map_map, List.map_map]
  rfl

theorem compile_eq_joined (hb : ∀ d ∈ b.conditions, ∀ l ∈ d.leaves, l.OfColumn)
    (hc : ∀ f ∈ c.fragments, f.WellFormed) :
    compile b c = .ok ⟨text b c (joined b c), (joined b c).params⟩ := by
  have hwhere : b.whereFragment.Balanced := by
    apply Fragment.keptByJoining_balanced.conjunction
    intro f hf
    obtain ⟨d, hd, rfl⟩ := List.mem_map.mp hf
    refine Fragment.keptByJoining_balanced.of_leaves d fun l hl => ?_
    obtain ⟨hcomparison, hplain⟩ := (hb d hd l hl).isComparison
    exact (Fragment.says_of_isComparison hcomparison).balanced hplain
  unfold compile
  rw [condition_eq_joined hwhere fun f hf => (hc f hf).balanced]
  rfl

/-- If no OR stands open in an operand, or there is only one, the text of the condition is read as
the conjunction of its operands. -/
theorem reads_row (hb : ∀ d ∈ b.conditions, ∀ l ∈ d.leaves, l.OfColumn)
    (hc : ∀ f ∈ c.fragments, f.WellFormed) (hne : units b c ≠ [])
    (h : (units b c).length = 1 ∨ ∀ f ∈ c.fragments, f.IsOperand) :
    Reads (row ((tokenUnits b c).map Prod.fst)) (conjunction b c) := by
  rw [conjunction_eq]
  refine Reads.row_of_single_or (reads_of_mem_tokenUnits hb hc) (by simpa [tokenUnits] using hne)
    (h.imp (fun hlength => by rwa [tokenUnits, List.length_map]) fun hoperands o ho => ?_)
  obtain ⟨u, hu, rfl⟩ := List.mem_map.mp ho
  have hoperand : u.1.IsOperand := (states_of_mem_units hb hc hu).2.elim id (hoperands u.1)
  exact (Fragment.unsplitFrom_tokens u.1).trans hoperand

/-- If no two operands have a comparison in common, an open OR in one of several fragments changes
the meaning. -/
theorem exists_conjunction_ne (hb : ∀ d ∈ b.conditions, ∀ l ∈ d.leaves, l.OfColumn)
    (hc : ∀ f ∈ c.fragments, f.WellFormed) (hlength : 1 < (units b c).length)
    (hdisjoint : (units b c).Pairwise fun u t => List.Disjoint u.2.atoms t.2.atoms)
    {f : Fragment} (hf : f ∈ c.fragments) (hopen : ¬f.IsOperand) :
    ∃ v, (read (row ((tokenUnits b c).map Prod.fst))).eval v = true ∧
      (conjunction b c).eval v = false := by
  have hmem : (f.tokens, read f.tokens) ∈ tokenUnits b c := by
    refine List.mem_map.mpr ⟨(f, read f.tokens), ?_, rfl⟩
    exact List.mem_append_left _ (List.mem_append_right _ (List.mem_map.mpr ⟨f, hf, rfl⟩))
  have hsplit : unsplitFrom isOr 0 f.tokens = false := by
    rw [Fragment.unsplitFrom_tokens]
    exact eq_false_of_ne_true hopen
  rw [conjunction_eq]
  exact exists_row_ne (reads_of_mem_tokenUnits hb hc) (by rwa [tokenUnits, List.length_map])
    (List.pairwise_map.mpr hdisjoint) ⟨_, hmem, hsplit⟩

/-- The text of a condition with fragments from outside.  Its comparisons are those of its operands.
If no OR stands open in a fragment, or there is only one operand, the text means the conjunction of
the operands; if no two operands have a comparison in common, it means their conjunction only
then. -/
theorem reads_conjunction (hb : ∀ d ∈ b.conditions, ∀ l ∈ d.leaves, l.OfColumn)
    (hc : ∀ f ∈ c.fragments, f.WellFormed) :
    ∃ s w, compile b c = .ok s ∧
      s.sql = b.selectClause ++ (if (units b c).isEmpty then "" else " WHERE " ++ w) ++
        trailing b.tailClause? ++ trailing c.options.clause? ∧
      (units b c ≠ [] →
        (read (fill s.params (lex w))).atoms = (conjunction b c).atoms ∧
        (((units b c).length = 1 ∨ ∀ f ∈ c.fragments, f.IsOperand) →
          ∀ v, (read (fill s.params (lex w))).eval v = (conjunction b c).eval v) ∧
        ((units b c).Pairwise (fun u t => List.Disjoint u.2.atoms t.2.atoms) →
          (∀ v, (read (fill s.params (lex w))).eval v = (conjunction b c).eval v) →
          (units b c).length = 1 ∨ ∀ f ∈ c.fragments, f.IsOperand)) := by
  refine ⟨_, (joined b c).sql, compile_eq_joined hb hc, ?_, fun hne => ?_⟩
  · rw [← isEmpty_joined hb hc]
    rfl
  · rw [tokens_joined hb hc hne]
    refine ⟨?_, fun h => (reads_row hb hc hne h).read.2, fun hdisjoint hall => ?_⟩
    · rw [conjunction_eq]
      exact atoms_row (reads_of_mem_tokenUnits hb hc) (by simpa [tokenUnits] using hne)
    · by_cases hlength : (units b c).length = 1
      · exact .inl hlength
      · refine .inr fun f hf => Decidable.byContradiction fun hopen => ?_
        have hpos := List.length_pos_iff.mpr hne
        obtain ⟨v, htrue, hfalse⟩ := exists_conjunction_ne hb hc (by omega) hdisjoint hf hopen
        rw [hall v, hfalse] at htrue
        cases htrue

/-- A price above five. -/
def priceAbove : Select :=
  (Select.new "products" ["id"]).withCondition (.compare "price" .greater [.integer 5])

theorem ofColumn_priceAbove : ∀ d ∈ priceAbove.conditions, ∀ l ∈ d.leaves, l.OfColumn := by
  intro d hd l hl
  obtain rfl := List.mem_singleton.mp hd
  obtain rfl := List.mem_singleton.mp hl
  exact ⟨by decide, by decide, fun _ => rfl⟩

/-- Either of two comparisons, in parentheses. -/
def eitherGrouped : Fragment := ⟨"(a = ? OR name = 'this OR that')", [.integer 1]⟩

theorem wellFormed_grouped : eitherGrouped.WellFormed :=
  ⟨⟨by decide, by decide⟩, by decide, by decide⟩

theorem units_grouped : units priceAbove (Clauses.empty.withFragment eitherGrouped) =
    [(⟨"price > ?", [.integer 5]⟩,
        .atom [.word "price".toList, .symbol '>', .value (.integer 5)]),
      (eitherGrouped, .any [.all [.any
        [.all [.atom [.word ['a'], .symbol '=', .value (.integer 1)]],
          .all [.atom [.word "name".toList, .symbol '=', .word "'this OR that'".toList]]]]])] := rfl

theorem priceAbove_conjoined : ∃ s w,
    compile priceAbove (Clauses.empty.withFragment eitherGrouped) = .ok s ∧
    (∀ v, (read (fill s.params (lex w))).eval v =
      (conjunction priceAbove (Clauses.empty.withFragment eitherGrouped)).eval v) ∧
    ((units priceAbove (Clauses.empty.withFragment eitherGrouped)).length = 1 ∨
      ∀ f ∈ (Clauses.empty.withFragment eitherGrouped).fragments, f.IsOperand) := by
  have hwellFormed : ∀ f ∈ (Clauses.empty.withFragment eitherGrouped).fragments, f.WellFormed := by
    intro f hf
    obtain rfl := List.mem_singleton.mp hf
    exact wellFormed_grouped
  have hoperand : ∀ f ∈ (Clauses.empty.withFragment eitherGrouped).fragments, f.IsOperand := by
    intro f hf
    obtain rfl := List.mem_singleton.mp hf
    decide
  have hdisjoint : (units priceAbove (Clauses.empty.withFragment eitherGrouped)).Pairwise
      fun u t => List.Disjoint u.2.atoms t.2.atoms := by
    rw [units_grouped]
    simp
  obtain ⟨s, w, hs, -, hrest⟩ := reads_conjunction ofColumn_priceAbove hwellFormed
  obtain ⟨-, hconj, honly⟩ := hrest (by rw [units_grouped]; exact List.cons_ne_nil _ _)
  have heval := hconj (.inr hoperand)
  exact ⟨s, w, hs, heval, honly hdisjoint heval⟩

/-- Either of two comparisons, without parentheses. -/
def eitherOpen : Fragment := ⟨"a = ? OR b = ?", [.integer 1, .integer 2]⟩

theorem read_open : read (fill [.integer 5, .integer 1, .integer 2]
      (lex "price > ? AND a = ? OR b = ?")) =
    .any [.all [.atom [.word "price".toList, .symbol '>', .value (.integer 5)],
        .atom [.word ['a'], .symbol '=', .value (.integer 1)]],
      .all [.atom [.word ['b'], .symbol '=', .value (.integer 2)]]] := rfl

theorem conjunction_open : conjunction priceAbove (Clauses.empty.withFragment eitherOpen) =
    .all [.atom [.word "price".toList, .symbol '>', .value (.integer 5)],
      .any [.all [.atom [.word ['a'], .symbol '=', .value (.integer 1)]],
        .all [.atom [.word ['b'], .symbol '=', .value (.integer 2)]]]] := rfl

/-- The second comparison alone is enough for the text, whatever the price is. -/
theorem priceAbove_not_conjoined :
    (∀ d ∈ priceAbove.conditions, ∀ l ∈ d.leaves, l.OfColumn) ∧ eitherOpen.WellFormed ∧
    compile priceAbove (Clauses.empty.withFragment eitherOpen) =
      .ok ⟨"SELECT id FROM products WHERE price > ? AND a = ? OR b = ?",
        [.integer 5, .integer 1, .integer 2]⟩ ∧
    ∃ v, (read (fill [.integer 5, .integer 1, .integer 2]
        (lex "price > ? AND a = ? OR b = ?"))).eval v = true ∧
      (conjunction priceAbove (Clauses.empty.withFragment eitherOpen)).eval v = false := by
  have hwellFormed : eitherOpen.WellFormed := ⟨⟨by decide, by decide⟩, by decide, by decide⟩
  refine ⟨ofColumn_priceAbove, hwellFormed, rfl,
    fun ts => ts.head? == some (.word ['b']), ?_, ?_⟩
  · rw [read_open]
    simp
  · rw [conjunction_open]
    simp

end Statement

end IndexQuery
