import IndexQuery.Proofs.Addressing
import IndexQuery.Proofs.Integers
import IndexQuery.Proofs.Scan.Statement
import IndexQuery.Proofs.Selection.Row

/-!
# Rows that filter and exclude select

On a new query a filter by a lookup selects the rows in whose column every integer is related to the
value, and an exclusion those in whose column none is.  For a column with one integer these are
complements.  For a column with a set they are not: a set with members on either side of the bound
is selected by neither.

    q₁.selects? row = some (all integers of the column are related to the value)
    q₂.selects? row = some (no integer of the column is)                  (exclude_selects_iff)
-/

namespace IndexQuery

open Text Outcome Token

/-- Fields of which documents hold integers. -/
def Field.IsIntegral (f : Field) : Prop :=
  match f.kind with
  | .multi32 | .multi64 | .primaryKey => True
  | .scalar => f.type = .integer ∨ f.type = .bigInt
  | .fullText => False

/-- A row holds sets in the columns of multi-value fields and single integers in others. -/
def Row.Suits (row : Row) (f : Field) : Prop :=
  match row f.storageColumn with
  | .one _ => f.isMultiValue = false
  | .many _ _ => f.isMultiValue = true

/-- Whether a row satisfies the condition that the statement of a query states. -/
def Query.selects? (q : Query) (row : Row) : Option Bool :=
  match Statement.condition q.base q.clauses with
  | .ok f => row.holds? f.bound
  | .error _ => none

/-! ## Integers as parameters -/

theorem Param.Holds.integer?_eq {p : Param} {n : Int} (h : p.Holds n) : p.integer? = some n := by
  cases h <;> rfl

theorem Field.IsIntegral.takesIntegers {f : Field} (h : f.IsIntegral) : f.TakesIntegers := by
  unfold IsIntegral at h
  unfold TakesIntegers
  cases hkind : f.kind with
  | fullText =>
    rw [hkind] at h
    exact absurd h id
  | _ =>
    rw [hkind] at h
    exact h

/-- The parameter of an integer field is the integer that the value stands for. -/
theorem Value.integer?_of_bind {f : Field} (hf : f.IsIntegral) {v : Value} (hv : v ≠ .null)
    {p : Param} (h : f.bind v = .ok p) : ∃ n, v.toInteger? = some n ∧ p.integer? = some n := by
  obtain ⟨n, hn, -, hholds⟩ := (Field.bind_eq_ok_iff hf.takesIntegers hv).mp h
  exact ⟨n, hn, hholds.integer?_eq⟩

/-! ## Conditions of single comparisons -/

namespace Fragment

/-- A text without blanks in front does not matter for connectives between blanks. -/
theorem occursIn_append {cs : List Char} (h : ∀ c ∈ cs, c ≠ ' ') (pat ds : List Char) :
    occursIn (' ' :: pat) (cs ++ ds) = occursIn (' ' :: pat) ds := by
  induction cs with
  | nil => rfl
  | cons c cs ih =>
    have hc : (' ' == c) = false := by simpa using Ne.symm (h c List.mem_cons_self)
    rw [List.cons_append, occursIn, List.isPrefixOf, hc, Bool.false_and, Bool.false_or]
    exact ih fun d hd => h d (List.mem_cons_of_mem c hd)

/-- A name compared with a value shows no connective, whatever the name is. -/
theorem isCompound_compare {column s : String} (hc : isIdentifier column = true)
    (hand : occursIn " AND ".toList s.toList = false)
    (hor : occursIn " OR ".toList s.toList = false) (ps : List Param) :
    (⟨column ++ s, ps⟩ : Fragment).isCompound = false := by
  have hblank : ∀ c ∈ column.toList, c ≠ ' ' := by
    rintro c hmem rfl
    exact absurd (isTail_of_mem hc hmem) (by decide)
  have handText : " AND ".toList = ' ' :: "AND ".toList := by decide
  have horText : " OR ".toList = ' ' :: "OR ".toList := by decide
  unfold isCompound
  rw [String.toList_append, handText, horText, occursIn_append hblank, occursIn_append hblank,
    ← handText, ← horText, hand, hor]
  rfl

theorem isCompound_compareText {column : String} (hc : isIdentifier column = true)
    {op : Operator} (hop : op ≠ .oneOf) (hs : op ≠ .search) (n : Nat) (ps : List Param) :
    (⟨Condition.compareText column op n, ps⟩ : Fragment).isCompound = false := by
  have hsymbol : ∀ s : String, occursIn " AND ".toList (" " ++ s ++ " ?").toList = false →
      occursIn " OR ".toList (" " ++ s ++ " ?").toList = false →
      (⟨column ++ " " ++ s ++ " ?", ps⟩ : Fragment).isCompound = false := by
    intro s hand hor
    have hassoc : column ++ " " ++ s ++ " ?" = column ++ (" " ++ s ++ " ?") := by
      rw [String.append_assoc, String.append_assoc, String.append_assoc]
    rw [hassoc]
    exact isCompound_compare hc hand hor ps
  cases op with
  | oneOf => exact absurd rfl hop
  | search => exact absurd rfl hs
  | exact => exact hsymbol "=" (by decide) (by decide)
  | greater => exact hsymbol ">" (by decide) (by decide)
  | greaterEqual => exact hsymbol ">=" (by decide) (by decide)
  | less => exact hsymbol "<" (by decide) (by decide)
  | lessEqual => exact hsymbol "<=" (by decide) (by decide)
  | notEqual => exact hsymbol "<>" (by decide) (by decide)

end Fragment

/-- No set is compared by an inequality. -/
theorem Predicate.isMultiValue_of_notEqual {marker : String} {p : Predicate} {g : Fragment}
    (hop : p.operator = .notEqual) (h : p.States marker g) : p.field.isMultiValue = false := by
  have htext := h.text
  unfold comparisonText? at htext
  rw [hop] at htext
  cases hm : p.field.isMultiValue with
  | false => rfl
  | true =>
    rw [hm, if_pos rfl] at htext
    cases htext

namespace Index

variable {i : Index} {q₀ q : Query} {us : List Update}

theorem Reaches.condition_eq (hi : i.Valid) (h : i.Reaches us q) :
    Statement.condition q.base q.clauses = .ok (Statement.joined q.base q.clauses) :=
  Statement.condition_eq_joined (h.balanced_whereFragment hi) (h.balanced_fragments hi)

/-- A query with nothing but one comparison states that comparison. -/
theorem Reaches.condition_of_predicateUpdates (hi : i.Valid) {p : Predicate}
    {vs ws : List Update} (h : i.Reaches (vs ++ ws) q) (hvs : i.predicateUpdates p = .ok vs)
    (hws : ws = [] ∨ ws = [.negation]) (hp : p.field ∈ i.schema.fields)
    (hs : p.operator ≠ .search) (ho : p.operator ≠ .oneOf) :
    ∃ g, Statement.condition q.base q.clauses = .ok g ∧ p.States i.settings.marker g := by
  have hextra : ws.filterMap Update.condition? = [] ∧ ws.filterMap Update.fragment? = [] ∧
      ws.filterMap Update.terms? = [] := by
    rcases hws with rfl | rfl
    · exact ⟨rfl, rfl, rfl⟩
    · exact ⟨rfl, rfl, rfl⟩
  have hconditions := h.conditions
  have hfragments := h.fragments
  have hmatching := h.matching
  rw [List.filterMap_append, hextra.1, List.append_nil] at hconditions
  rw [List.filterMap_append, hextra.2.1, List.append_nil] at hfragments
  rw [List.filterMap_append, hextra.2.2, List.append_nil] at hmatching
  have hjoined := h.condition_eq hi
  unfold Statement.joined Select.whereFragment at hjoined
  rw [hconditions, hfragments, hmatching] at hjoined
  obtain ⟨form, hform, hvs⟩ := bind_eq_ok.mp hvs
  rcases Predicate.form_eq_ok hform with ⟨hop, -⟩ | ⟨-, g, rfl, hg⟩ | ⟨-, -, hm, rfl⟩
  · exact absurd hop hs
  · cases hvs
    refine ⟨g, hjoined.trans ?_, hg⟩
    show Except.ok ((Fragment.empty.and g).and .empty) = _
    rw [Fragment.empty_and, Fragment.and_empty]
  · obtain ⟨c, hc, rfl⟩ := map_eq_ok.mp hvs
    have hstates : p.States i.settings.marker c.toFragment := Predicate.states_of_ofLookup hm hc
    obtain ⟨ps, -, -, -, -, -, rfl⟩ := Predicate.ofLookup_eq_ok hc
    refine ⟨_, hjoined.trans ?_, hstates⟩
    show Except.ok ((Fragment.empty.and (Fragment.parenthesize _)).and .empty) = _
    rw [Fragment.empty_and, Fragment.and_empty, Condition.toFragment, Fragment.parenthesize,
      Fragment.isCompound_compareText (hi.sound.column _ hp) ho hs]
    rfl

/-- A filter by one lookup makes the changes of its predicate. -/
theorem reaches_of_filter (hi : i.Valid) (hq₀ : i.query = .ok q₀) {key : String} {x : Operand}
    (h : q₀.filter [(key, x)] = .ok q) :
    ∃ f op vs, i.resolver.resolve key = .ok (f, op) ∧
      i.predicateUpdates ⟨f, op, x⟩ = .ok vs ∧ i.Reaches vs q := by
  have hcall : q₀.applyAll [.filter [(key, x)]] = .ok q := (bind_pure _).trans h
  obtain ⟨vs, hvs, hreach⟩ := reaches_of_applyAll hi hq₀ hcall
  rw [Query.collect_singleton] at hvs
  have hvs : collect i.lookupUpdates [(key, x)] = .ok vs := hvs
  rw [Query.collect_singleton] at hvs
  obtain ⟨⟨f, op⟩, hr, hvs⟩ := bind_eq_ok.mp hvs
  exact ⟨f, op, vs, hr, hvs, hreach⟩

/-- An exclusion of one lookup makes the changes of the negated predicate. -/
theorem reaches_of_exclude (hi : i.Valid) (hq₀ : i.query = .ok q₀) {key : String} {x : Operand}
    (h : q₀.exclude [(key, x)] = .ok q) :
    ∃ f op vs, i.resolver.resolveNegated key = .ok (f, op) ∧
      i.predicateUpdates ⟨f, op, x⟩ = .ok vs ∧ i.Reaches (vs ++ [.negation]) q := by
  have hcall : q₀.applyAll [.exclude [(key, x)]] = .ok q := (bind_pure _).trans h
  obtain ⟨vs, hvs, hreach⟩ := reaches_of_applyAll hi hq₀ hcall
  rw [Query.collect_singleton] at hvs
  have hvs : collect i.exclusionUpdates [(key, x)] = .ok vs := hvs
  rw [Query.collect_singleton] at hvs
  obtain ⟨⟨f, op⟩, hr, hvs⟩ := bind_eq_ok.mp hvs
  obtain ⟨ws, hws, hvs⟩ := bind_eq_ok.mp hvs
  cases hvs
  exact ⟨f, op, ws, hr, hws, hreach⟩

/-- A filter by a lookup and its exclusion use the same field and inverse operators. -/
theorem inverse_of_resolve {r : Resolver} {key : String} {f f' : Field} {op op' : Operator}
    (h : r.resolve key = .ok (f, op)) (h' : r.resolveNegated key = .ok (f', op')) :
    f' = f ∧ op.inverse? = some op' := by
  obtain ⟨k, hk, h⟩ := bind_eq_ok.mp h
  obtain ⟨g, hg, h⟩ := bind_eq_ok.mp h
  obtain ⟨o, ho, h⟩ := bind_eq_ok.mp h
  cases h
  obtain ⟨k', hk', h'⟩ := bind_eq_ok.mp h'
  obtain ⟨o', ho', h'⟩ := bind_eq_ok.mp h'
  obtain ⟨g', hg', h'⟩ := bind_eq_ok.mp h'
  cases h'
  rw [hk] at hk'
  cases hk'
  rw [hg] at hg'
  cases hg'
  refine ⟨rfl, ?_⟩
  unfold Resolver.negatedOperator at ho'
  cases hoperator : k.operator with
  | none =>
    rw [hoperator] at ho ho'
    cases ho
    cases ho'
    rfl
  | some name =>
    rw [hoperator] at ho ho'
    unfold Resolver.operatorFor at ho
    dsimp only at ho ho'
    cases hname : Operator.ofName? name with
    | none =>
      rw [hname] at ho
      cases ho
    | some o =>
      rw [hname] at ho ho'
      cases ho
      rw [Option.bind_some] at ho'
      split at ho'
      · next hinverse =>
        cases ho'
        exact hinverse
      · cases ho'

/-- What the condition of a query with one comparison says of a row. -/
theorem selects?_of_condition {g : Fragment} {p : Predicate} {row : Row} {v : Value} {m : Int}
    (hq : Statement.condition q.base q.clauses = .ok g) (hi : i.Valid)
    (hg : p.States i.settings.marker g) (hp : p.field ∈ i.schema.fields)
    (hx : p.operand = .scalar v) (hint : p.field.IsIntegral) (ho : p.operator ≠ .oneOf)
    (hexact : p.field.isMultiValue = true → p.operator ≠ .exact)
    (hvalue : ∀ q, p.field.bind v = .ok q → q.integer? = some m) (hrow : row.Suits p.field) :
    q.selects? row =
      some ((row p.field.storageColumn).values.all fun n => p.operator.relates n m) := by
  obtain ⟨f, op, x⟩ := p
  cases hx
  have hc := hi.sound.column f hp
  unfold Query.selects?
  rw [hq]
  unfold Row.Suits at hrow
  dsimp only at *
  cases hcell : row f.storageColumn with
  | one n =>
    rw [hcell] at hrow
    have hfull : f.isFullText = false := by
      unfold Field.IsIntegral at hint
      unfold Field.isFullText
      cases hkind : f.kind with
      | fullText =>
        rw [hkind] at hint
        exact absurd hint id
      | _ => rfl
    rw [Predicate.holds?_of_states hg hc hrow hfull ho hvalue hcell]
    simp [Cell.values]
  | many n ns =>
    rw [hcell] at hrow
    exact Predicate.holds?_of_states_many hg hc hrow ho (hexact hrow) hvalue hcell

/-- Whether none is and whether not every one is come to the same only if they are all alike. -/
theorem all_not_eq_iff {l : List Int} (hl : l ≠ []) (related : Int → Bool) :
    (l.all fun n => !related n) = !l.all related ↔
      (∀ n ∈ l, related n = true) ∨ ∀ n ∈ l, related n = false := by
  cases hall : l.all related with
  | true =>
    have htrue := List.all_eq_true.mp hall
    constructor
    · intro _
      exact .inl htrue
    · intro _
      obtain ⟨n, hn⟩ := List.exists_mem_of_ne_nil l hl
      exact List.all_eq_false.mpr ⟨n, hn, by rw [htrue n hn]; decide⟩
  | false =>
    have hfalse : ¬∀ n ∈ l, related n = true := by
      rw [← List.all_eq_true, hall]
      decide
    have hnone : (l.all fun n => !related n) = true ↔ ∀ n ∈ l, related n = false := by
      rw [List.all_eq_true]
      simp only [Bool.not_eq_true']
    exact hnone.trans ⟨.inr, fun h => h.resolve_left hfalse⟩

theorem ne_of_inverse? {op op' : Operator} (h : op.inverse? = some op') :
    op ≠ .oneOf ∧ op ≠ .search ∧ op' ≠ .oneOf ∧ op' ≠ .search ∧ op' ≠ .exact ∧
      (op = .exact → op' = .notEqual) := by
  cases op <;> cases h <;> decide

/-- A filter selects the rows in which every integer of the column is related to the value, and the
exclusion those in which none is.  So they are complements for a column with one integer, and for a
set exactly if it lies on one side of the bound. -/
theorem exclude_selects_iff (hi : i.Valid) {q₀ q₁ q₂ : Query} (hq₀ : i.query = .ok q₀)
    {key : String} {v : Value} (hv : v ≠ .null)
    (h₁ : q₀.filter [(key, .scalar v)] = .ok q₁) (h₂ : q₀.exclude [(key, .scalar v)] = .ok q₂)
    {f : Field} {op : Operator} (hr : i.resolver.resolve key = .ok (f, op))
    (hint : f.IsIntegral) {row : Row} (hrow : row.Suits f) :
    ∃ m, v.toInteger? = some m ∧
      q₁.selects? row = some ((row f.storageColumn).values.all fun n => op.relates n m) ∧
      q₂.selects? row = some ((row f.storageColumn).values.all fun n => !op.relates n m) ∧
      (f.isMultiValue = false → q₂.selects? row = (q₁.selects? row).map not) ∧
      (q₂.selects? row = (q₁.selects? row).map not ↔
        (∀ n ∈ (row f.storageColumn).values, op.relates n m = true) ∨
          ∀ n ∈ (row f.storageColumn).values, op.relates n m = false) := by
  obtain ⟨f₁, op₁, us, hr₁, hus, hreach₁⟩ := reaches_of_filter hi hq₀ h₁
  rw [hr] at hr₁
  cases hr₁
  obtain ⟨f₂, op', ws, hr₂, hws, hreach₂⟩ := reaches_of_exclude hi hq₀ h₂
  obtain ⟨rfl, hinverse⟩ := inverse_of_resolve hr hr₂
  obtain ⟨ho, hs, ho', hs', hexact', hnotEqual⟩ := ne_of_inverse? hinverse
  have hf := Resolver.mem_of_resolve hi.sound hr
  rw [← List.append_nil us] at hreach₁
  obtain ⟨g₁, hg₁, hstates₁⟩ :=
    hreach₁.condition_of_predicateUpdates hi hus (.inl rfl) hf hs ho
  obtain ⟨g₂, hg₂, hstates₂⟩ :=
    hreach₂.condition_of_predicateUpdates hi hws (.inr rfl) hf hs' ho'
  -- A set has no inequality, so equality with a set is never excluded.
  have hexact : f₂.isMultiValue = true → op ≠ .exact := by
    rintro hm rfl
    have hsingle := Predicate.isMultiValue_of_notEqual (hnotEqual rfl) hstates₂
    rw [hm] at hsingle
    cases hsingle
  obtain ⟨q, hbind, -⟩ := hstates₁.params_eq
  obtain ⟨m, hm, hq⟩ := Value.integer?_of_bind hint hv hbind
  have hvalue : ∀ p, f₂.bind v = .ok p → p.integer? = some m := by
    intro p hp
    rw [hbind] at hp
    cases hp
    exact hq
  have hselect₁ := selects?_of_condition hg₁ hi hstates₁ hf rfl hint ho hexact hvalue hrow
  have hselect₂ := selects?_of_condition hg₂ hi hstates₂ hf rfl hint ho' (fun _ => hexact') hvalue
    hrow
  simp only [Operator.relates_inverse hinverse] at hselect₂
  have hne : (row f₂.storageColumn).values ≠ [] := by
    cases row f₂.storageColumn <;> exact List.cons_ne_nil _ _
  have hiff : q₂.selects? row = (q₁.selects? row).map not ↔
      (∀ n ∈ (row f₂.storageColumn).values, op.relates n m = true) ∨
        ∀ n ∈ (row f₂.storageColumn).values, op.relates n m = false := by
    rw [hselect₁, hselect₂, Option.map_some, Option.some.injEq]
    exact all_not_eq_iff hne _
  refine ⟨m, hm, hselect₁, hselect₂, fun hsingle => hiff.mpr ?_, hiff⟩
  unfold Row.Suits at hrow
  cases hcell : row f₂.storageColumn with
  | one n => cases h : op.relates n m <;> simp [Cell.values, h]
  | many n ns =>
    rw [hcell, hsingle] at hrow
    cases hrow

/-- A set above the bound is selected by the filter and not by the exclusion. -/
theorem products_complements : ∃ q₀ q₁ q₂, products.query = .ok q₀ ∧
    q₀.filter [("tags__gte", .scalar (.int 5))] = .ok q₁ ∧
    q₀.exclude [("tags__gte", .scalar (.int 5))] = .ok q₂ ∧
    q₁.selects? (fun _ => .many 6 [10]) = some true ∧
    q₂.selects? (fun _ => .many 6 [10]) = some false := by
  obtain ⟨o, ho, hquery⟩ := query_eq_ok products_valid
  cases ho
  have hrow : Row.Suits (fun _ => .many 6 [10]) (.multi32 "tags") := rfl
  obtain ⟨m, hm, hselect₁, hselect₂, -, -⟩ := exclude_selects_iff products_valid hquery
    (fun h => Value.noConfusion h : Value.int 5 ≠ .null)
    (rfl : Query.filter _ [("tags__gte", .scalar (.int 5))] = .ok _)
    (rfl : Query.exclude _ [("tags__gte", .scalar (.int 5))] = .ok _)
    (rfl : products.resolver.resolve "tags__gte" = .ok (.multi32 "tags", .greaterEqual))
    trivial hrow
  cases hm
  exact ⟨_, _, _, hquery, rfl, rfl, hselect₁, hselect₂⟩

/-- A set with members on either side of the bound is selected by neither. -/
theorem products_not_complements : products.Valid ∧
    products.resolver.resolve "tags__gte" = .ok (.multi32 "tags", .greaterEqual) ∧
    (Field.multi32 "tags").IsIntegral ∧ Row.Suits (fun _ => .many 1 [10]) (.multi32 "tags") ∧
    ∃ q₀ q₁ q₂, products.query = .ok q₀ ∧
      q₀.filter [("tags__gte", .scalar (.int 5))] = .ok q₁ ∧
      q₀.exclude [("tags__gte", .scalar (.int 5))] = .ok q₂ ∧
      q₁.selects? (fun _ => .many 1 [10]) = some false ∧
      q₂.selects? (fun _ => .many 1 [10]) = some false := by
  obtain ⟨o, ho, hquery⟩ := query_eq_ok products_valid
  cases ho
  exact ⟨products_valid, rfl, trivial, rfl, _, _, _, hquery, rfl, rfl, by decide +kernel,
    by decide +kernel⟩

end Index

end IndexQuery
