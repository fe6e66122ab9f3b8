import IndexQuery.Proofs.Reading.Comparison

/-!
# Which rows a comparison selects

A row holds in each column one integer or a set of them that is not empty.  A comparison of a column
with a value relates the integer to the value; of a set it takes the least or the greatest member.
Either way a comparison with a lower or upper bound selects a row if every integer in the column is
on that side.

    row.holds? g.bound = some ((row column).values.all fun n => op.relates n m)
                                        (holds?_of_states, holds?_of_states_many)
    o.inverse? = some o' → o'.relates n m = !o.relates n m                  (relates_inverse)
-/

namespace IndexQuery

open Text Token

/-- What a row holds in a column. -/
inductive Cell where
  | one (n : Int)
  /-- A set, of which one member is set apart so that it is not empty. -/
  | many (n : Int) (ns : List Int)
  deriving DecidableEq, Repr

/-- A row gives what each column holds. -/
def Row : Type := String → Cell

/-! ## Algorithm -/

namespace Cell

/-- The integers in a column. -/
def values : Cell → List Int
  | .one n => [n]
  | .many n ns => n :: ns

/-- The least of some integers. -/
def least (n : Int) (ns : List Int) : Int := ns.foldl min n

/-- The greatest of some integers. -/
def greatest (n : Int) (ns : List Int) : Int := ns.foldl max n

end Cell

/-- The integer that a parameter is. -/
def Param.integer? : Param → Option Int
  | .integer n => some n.toInt
  | .unsigned n => some n.toNat
  | .string _ | .float _ | .null => none

/-- Whether an operator relates an integer to a value. -/
def Operator.relates (o : Operator) (n m : Int) : Bool :=
  match o with
  | .exact => n == m
  | .notEqual => n != m
  | .greater => m < n
  | .greaterEqual => m ≤ n
  | .less => n < m
  | .lessEqual => n ≤ m
  | .oneOf | .search => false

namespace Row

/-- The operator that symbols stand for, and the value behind them. -/
def relation? : List Token → Option (Operator × Param)
  | [.symbol '=', .value p] => some (.exact, p)
  | [.symbol '<', .symbol '>', .value p] => some (.notEqual, p)
  | [.symbol '>', .value p] => some (.greater, p)
  | [.symbol '>', .symbol '=', .value p] => some (.greaterEqual, p)
  | [.symbol '<', .value p] => some (.less, p)
  | [.symbol '<', .symbol '=', .value p] => some (.lessEqual, p)
  | _ => none

/-- Whether an integer is related to a value as the tokens say. -/
def related? (n : Int) (ts : List Token) : Option Bool := do
  let (o, p) ← relation? ts
  return o.relates n (← p.integer?)

/-- Whether a row satisfies a comparison, if the tokens are one that suits the column. -/
def holds? (row : Row) : List Token → Option Bool
  | [.word f, .opening, .word c, .symbol ',', .value p, .closing] =>
    match row (String.ofList c) with
    | .one _ => none
    | .many n ns => if f = "IN".toList then p.integer?.map (n :: ns).contains else none
  | .word f :: .opening :: .word c :: .closing :: r =>
    match row (String.ofList c) with
    | .one _ => none
    | .many n ns =>
      if f = "LEAST".toList then related? (Cell.least n ns) r
      else if f = "GREATEST".toList then related? (Cell.greatest n ns) r
      else none
  | .word c :: r =>
    match row (String.ofList c) with
    | .one n => related? n r
    | .many _ _ => none
  | _ => none

end Row

/-! ## Operators and their inverses -/

theorem Operator.relates_inverse {o o' : Operator} (h : o.inverse? = some o') (n m : Int) :
    o'.relates n m = !o.relates n m := by
  cases o with
  | exact =>
    cases h
    rfl
  | greater =>
    cases h
    simp only [relates, ← decide_not, Int.not_lt]
  | greaterEqual =>
    cases h
    simp only [relates, ← decide_not, Int.not_le]
  | less =>
    cases h
    simp only [relates, ← decide_not, Int.not_lt]
  | lessEqual =>
    cases h
    simp only [relates, ← decide_not, Int.not_le]
  | notEqual | oneOf | search => cases h

namespace Cell

theorem le_least_iff {m n : Int} {ns : List Int} : m ≤ least n ns ↔ ∀ k ∈ n :: ns, m ≤ k := by
  unfold least
  induction ns generalizing n with
  | nil => simp
  | cons k ns ih =>
    rw [List.foldl_cons, ih]
    simp only [List.mem_cons, forall_eq_or_imp, Int.le_min, and_assoc]

theorem lt_least_iff {m n : Int} {ns : List Int} : m < least n ns ↔ ∀ k ∈ n :: ns, m < k :=
  le_least_iff

theorem greatest_le_iff {m n : Int} {ns : List Int} :
    greatest n ns ≤ m ↔ ∀ k ∈ n :: ns, k ≤ m := by
  unfold greatest
  induction ns generalizing n with
  | nil => simp
  | cons k ns ih =>
    rw [List.foldl_cons, ih]
    simp only [List.mem_cons, forall_eq_or_imp, Int.max_le, and_assoc]

theorem greatest_lt_iff {m n : Int} {ns : List Int} :
    greatest n ns < m ↔ ∀ k ∈ n :: ns, k < m := by
  have h : greatest n ns ≤ m - 1 ↔ ∀ k ∈ n :: ns, k ≤ m - 1 := greatest_le_iff
  simpa only [Int.le_sub_one_iff] using h

end Cell

/-! ## Comparisons of columns -/

namespace Predicate

variable {marker : String} {f : Field} {op : Operator} {v : Value} {g : Fragment} {row : Row}
  {m : Int}

/-- The one parameter of a comparison with one value. -/
theorem States.params_eq (h : States marker ⟨f, op, .scalar v⟩ g) :
    ∃ q, f.bind v = .ok q ∧ g.params = [q] := by
  obtain ⟨q, qs, hq, hqs, hparams⟩ := Field.bindAll_cons_eq_ok.mp h.bound
  cases hqs
  exact ⟨q, hq, hparams⟩

theorem holds?_symbol (row : Row) (c : List Char) (x : Char) (ts : List Token) {n : Int}
    (h : row (String.ofList c) = .one n) :
    row.holds? (.word c :: .symbol x :: ts) = Row.related? n (.symbol x :: ts) := by
  show (match row (String.ofList c) with
    | .one n => Row.related? n (.symbol x :: ts)
    | .many _ _ => none) = _
  rw [h]

theorem related?_of_relation? {ts : List Token} {q : Param} (h : Row.relation? ts = some (op, q))
    (hq : q.integer? = some m) (n : Int) : Row.related? n ts = some (op.relates n m) := by
  unfold Row.related?
  rw [h]
  show (q.integer? >>= _) = _
  rw [hq]
  rfl

/-- One integer in the column is related to the value. -/
theorem holds?_of_states (h : States marker ⟨f, op, .scalar v⟩ g)
    (hc : isIdentifier f.storageColumn = true) (hm : f.isMultiValue = false)
    (hfull : f.isFullText = false) (hop : op ≠ .oneOf)
    (hvalue : ∀ q, f.bind v = .ok q → q.integer? = some m) {n : Int}
    (hrow : row f.storageColumn = .one n) : row.holds? g.bound = some (op.relates n m) := by
  obtain ⟨q, hq, hparams⟩ := h.params_eq
  have htext := h.text
  unfold comparisonText? at htext
  rw [hm, hparams, if_neg Bool.false_ne_true] at htext
  have hsymbol : ∀ (s : String) (x : Char) (ts : List Token),
      ofText s = .symbol x :: ts → marks (.symbol x :: ts) = 0 →
      Row.relation? (.symbol x :: (ts ++ [.value q])) = some (op, q) →
      f.storageColumn ++ " " ++ s ++ " ?" = g.sql → row.holds? g.bound = some (op.relates n m) := by
    intro s x ts hs hmarks hrelation hsql
    have hfill : Token.fill [q] (.symbol x :: ts ++ [.mark]) = .symbol x :: ts ++ [.value q] :=
      fill_unmarked hmarks [q] [.mark]
    have hbound : g.bound = .word f.storageColumn.toList :: .symbol x :: (ts ++ [.value q]) := by
      unfold Fragment.bound
      rw [← hsql, hparams, ofText_compare hc, hs, Token.fill, if_neg fun h => Token.noConfusion h,
        hfill]
      rfl
    rw [hbound, holds?_symbol row _ x _ (by rw [String.ofList_toList]; exact hrow)]
    exact related?_of_relation? hrelation (hvalue q hq) n
  cases op with
  | oneOf => exact absurd rfl hop
  | search => cases htext
  | notEqual =>
    have hcolumn : inequalityColumn marker f = f.storageColumn := by
      unfold inequalityColumn
      rw [hfull]
      rfl
    refine hsymbol "<>" '<' [.symbol '>'] (by decide) (by decide) rfl ?_
    rw [← Option.some.inj htext, hcolumn, String.append_assoc, String.append_assoc]
    rfl
  | exact =>
    exact hsymbol "=" '=' [] (by decide) (by decide) rfl (Option.some.inj htext)
  | greater =>
    exact hsymbol ">" '>' [] (by decide) (by decide) rfl (Option.some.inj htext)
  | greaterEqual =>
    exact hsymbol ">=" '>' [.symbol '='] (by decide) (by decide) rfl (Option.some.inj htext)
  | less =>
    exact hsymbol "<" '<' [] (by decide) (by decide) rfl (Option.some.inj htext)
  | lessEqual =>
    exact hsymbol "<=" '<' [.symbol '='] (by decide) (by decide) rfl (Option.some.inj htext)

theorem holds?_call (row : Row) (function c : List Char) (ts : List Token) {n : Int}
    {ns : List Int} (h : row (String.ofList c) = .many n ns) :
    row.holds? (.word function :: .opening :: .word c :: .closing :: ts) =
      if function = "LEAST".toList then Row.related? (Cell.least n ns) ts
      else if function = "GREATEST".toList then Row.related? (Cell.greatest n ns) ts
      else none := by
  show (match row (String.ofList c) with
    | .one _ => none
    | .many n ns =>
      if function = "LEAST".toList then Row.related? (Cell.least n ns) ts
      else if function = "GREATEST".toList then Row.related? (Cell.greatest n ns) ts
      else none) = _
  rw [h]

/-- Every integer in the column is related to the value, if the operator is an ordering. -/
theorem holds?_of_states_many (h : States marker ⟨f, op, .scalar v⟩ g)
    (hc : isIdentifier f.storageColumn = true) (hm : f.isMultiValue = true)
    (hop : op ≠ .oneOf) (hexact : op ≠ .exact)
    (hvalue : ∀ q, f.bind v = .ok q → q.integer? = some m) {n : Int} {ns : List Int}
    (hrow : row f.storageColumn = .many n ns) :
    row.holds? g.bound = some ((n :: ns).all fun k => op.relates k m) := by
  obtain ⟨q, hq, hparams⟩ := h.params_eq
  have htext := h.text
  unfold comparisonText? at htext
  rw [hm, if_pos rfl] at htext
  have hbound : ∀ (function : String) (ts : List Token),
      ofText g.sql = .word function.toList :: .opening :: .word f.storageColumn.toList ::
        .closing :: (ts ++ [.mark]) → marks ts = 0 →
      g.bound = .word function.toList :: .opening :: .word f.storageColumn.toList ::
        .closing :: (ts ++ [.value q]) := by
    intro function ts htokens hmarks
    have hprefix : marks ([.word function.toList, .opening, .word f.storageColumn.toList,
        .closing] ++ ts) = 0 := by
      rw [marks_append, hmarks]
      simp [marks]
    have hfill := fill_unmarked hprefix [q] [.mark]
    unfold Fragment.bound
    rw [htokens, hparams]
    exact hfill
  have hcell : row (String.ofList f.storageColumn.toList) = .many n ns := by
    rw [String.ofList_toList]
    exact hrow
  -- The member that the function takes is related to the value exactly if all members are.
  have hextreme : ∀ (function : String) (k : Int) (ts : List Token),
      ofText g.sql = .word function.toList :: .opening :: .word f.storageColumn.toList ::
        .closing :: (ts ++ [.mark]) → marks ts = 0 →
      Row.relation? (ts ++ [.value q]) = some (op, q) →
      (if function.toList = "LEAST".toList then Row.related? (Cell.least n ns) (ts ++ [.value q])
        else if function.toList = "GREATEST".toList then
          Row.related? (Cell.greatest n ns) (ts ++ [.value q])
        else none) = Row.related? k (ts ++ [.value q]) →
      op.relates k m = (n :: ns).all (fun k => op.relates k m) →
      row.holds? g.bound = some ((n :: ns).all fun k => op.relates k m) := by
    intro function k ts htokens hmarks hrelation hfunction hall
    rw [hbound function ts htokens hmarks, holds?_call row _ _ _ hcell, hfunction, ← hall]
    exact related?_of_relation? hrelation (hvalue q hq) k
  cases op with
  | oneOf => exact absurd rfl hop
  | exact => exact absurd rfl hexact
  | search => cases htext
  | notEqual => cases htext
  | greater =>
    refine hextreme "LEAST" (Cell.least n ns) [.symbol '>'] ?_ (by decide) rfl (if_pos rfl) ?_
    · rw [← Option.some.inj htext]
      exact ofText_wrap hc (by decide) (by decide)
    · rw [Bool.eq_iff_iff, List.all_eq_true]
      simpa only [Operator.relates, decide_eq_true_eq] using Cell.lt_least_iff
  | greaterEqual =>
    refine hextreme "LEAST" (Cell.least n ns) [.symbol '>', .symbol '='] ?_ (by decide) rfl
      (if_pos rfl) ?_
    · rw [← Option.some.inj htext]
      exact ofText_wrap hc (by decide) (by decide)
    · rw [Bool.eq_iff_iff, List.all_eq_true]
      simpa only [Operator.relates, decide_eq_true_eq] using Cell.le_least_iff
  | less =>
    refine hextreme "GREATEST" (Cell.greatest n ns) [.symbol '<'] ?_ (by decide) rfl
      ((if_neg (by decide)).trans (if_pos rfl)) ?_
    · rw [← Option.some.inj htext]
      exact ofText_wrap hc (by decide) (by decide)
    · rw [Bool.eq_iff_iff, List.all_eq_true]
      simpa only [Operator.relates, decide_eq_true_eq] using Cell.greatest_lt_iff
  | lessEqual =>
    refine hextreme "GREATEST" (Cell.greatest n ns) [.symbol '<', .symbol '='] ?_ (by decide) rfl
      ((if_neg (by decide)).trans (if_pos rfl)) ?_
    · rw [← Option.some.inj htext]
      exact ofText_wrap hc (by decide) (by decide)
    · rw [Bool.eq_iff_iff, List.all_eq_true]
      simpa only [Operator.relates, decide_eq_true_eq] using Cell.greatest_le_iff

end Predicate

end IndexQuery
