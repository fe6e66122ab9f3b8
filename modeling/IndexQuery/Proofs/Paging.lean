import IndexQuery.Proofs.Interleaving
import IndexQuery.Proofs.Legible.Text

/-!
# Ranges of rows

A query holds its range of rows twice, for itself and in its base query, and every call keeps the
two the same.  The range is decided by the last limit and the last offset of a run: the limit asked
for, or the default, or, once rows are skipped, the greatest limit.  A base query given from outside
has no say in it.

    i.queryWith b = .ok q₀ → (q₀.run cs).limit = i.rowCount cs                   (limit_run)
    i.queryWith b = .ok q₀ → (q₀.run cs).offset = skippedRows cs                  (offset_run)
    i.Valid → i.rowCount cs = some n → n ≤ i.settings.maxLimit                   (rowCount_le)
    rangeText skipped count = rangeText skipped' count' ↔
      skipped = skipped' ∧ count = count'                                   (rangeText_inj)
    i.query.applyAll cs = .ok q → the LIMIT of q is that of rowCount and skippedRows
                                                                           (rows_of_applyAll)
-/

namespace IndexQuery

open Text Outcome

/-! ## Algorithm -/

namespace Call

/-- The number of rows that a call asks for. -/
def take? : Call → Option UInt64
  | .take count => some count
  | _ => none

/-- The number of rows that a call skips. -/
def skip? : Call → Option UInt64
  | .skip count => some count
  | _ => none

end Call

/-- How many rows are skipped after calls: as many as the last one says that skips any. -/
def skippedRows (cs : List Call) : UInt64 := (cs.filterMap Call.skip?).getLast?.getD 0

/-- How many rows are returned at most after calls: what the last limit asks for, but no more than
the index allows; without a limit the default, and without a default the greatest number as soon as
rows are skipped. -/
def Index.rowCount (i : Index) (cs : List Call) : Option UInt64 :=
  match (cs.filterMap Call.take?).getLast?, i.settings.defaultLimit,
    (cs.filterMap Call.skip?).getLast? with
  | some count, _, _ => some (min count i.settings.maxLimit)
  | none, some count, _ => some count
  | none, none, some _ => some i.settings.maxLimit
  | none, none, none => none

/-- A range of rows as it stands in a statement; rows are skipped only if there are any to skip. -/
def rangeText (skipped count : UInt64) : String :=
  if 0 < skipped then "LIMIT " ++ decimal skipped.toNat ++ ", " ++ decimal count.toNat
  else "LIMIT " ++ decimal count.toNat

/-! ## Texts of ranges -/

theorem Select.limitClause?_eq (b : Select) : b.limitClause? = b.limit.map (rangeText b.offset) :=
  rfl

theorem Statement.trailing_tailClause? (b : Select) :
    trailing b.tailClause? = trailing b.orderClause? ++ trailing b.limitClause? := by
  unfold Select.tailClause?
  cases b.orderClause? with
  | none => cases b.limitClause? <;> simp [trailing]
  | some o => cases b.limitClause? <;> simp [trailing, String.append_assoc]

/-- The order and the range of rows stand behind the condition of a statement. -/
theorem Query.sql_of_compile {q : Query} {s : Statement} (h : q.compile = .ok s) :
    ∃ f, Statement.condition q.base q.clauses = .ok f ∧
      s.sql = q.base.selectClause ++ (if f.isEmpty then "" else " WHERE " ++ f.sql) ++
        Statement.trailing q.base.orderClause? ++ Statement.trailing q.base.limitClause? ++
        Statement.trailing q.clauses.options.clause? := by
  obtain ⟨f, hf, rfl⟩ := map_eq_ok.mp h
  refine ⟨f, hf, ?_⟩
  show Statement.text q.base q.clauses f = _
  unfold Statement.text
  rw [Statement.trailing_tailClause?]
  simp only [String.append_assoc]

/-- The characters of a range behind the word. -/
theorem toList_rangeText (skipped count : UInt64) :
    (rangeText skipped count).toList = "LIMIT ".toList ++
      if 0 < skipped then
        Nat.toDigits 10 skipped.toNat ++ (", ".toList ++ Nat.toDigits 10 count.toNat)
      else Nat.toDigits 10 count.toNat ++ [] := by
  unfold rangeText
  split <;> simp [decimal]

/-- Different ranges are written differently. -/
theorem rangeText_inj {skipped skipped' count count' : UInt64} :
    rangeText skipped count = rangeText skipped' count' ↔
      skipped = skipped' ∧ count = count' := by
  refine ⟨fun h => ?_, fun ⟨hs, hc⟩ => by rw [hs, hc]⟩
  have hlist := congrArg String.toList h
  rw [toList_rangeText, toList_rangeText] at hlist
  have hbody := List.append_cancel_left hlist
  have hcomma : ∀ r : List Char, Stops Char.isDigit (", ".toList ++ r) :=
    fun r => stops_cons.mpr rfl
  have hend := Stops.nil Char.isDigit
  by_cases hs : 0 < skipped
  · by_cases hs' : 0 < skipped'
    · rw [if_pos hs, if_pos hs'] at hbody
      obtain ⟨hskipped, hrest⟩ := toDigits_append_inj (hcomma _) (hcomma _) hbody
      have hcount := List.append_cancel_left hrest
      rw [← List.append_nil (Nat.toDigits 10 count.toNat),
        ← List.append_nil (Nat.toDigits 10 count'.toNat)] at hcount
      exact ⟨UInt64.toNat_inj.mp hskipped,
        UInt64.toNat_inj.mp (toDigits_append_inj hend hend hcount).1⟩
    · rw [if_pos hs, if_neg hs'] at hbody
      cases (toDigits_append_inj (hcomma _) hend hbody).2
  · by_cases hs' : 0 < skipped'
    · rw [if_neg hs, if_pos hs'] at hbody
      cases (toDigits_append_inj hend (hcomma _) hbody).2
    · rw [if_neg hs, if_neg hs'] at hbody
      have hzero : ∀ {n : UInt64}, ¬ 0 < n → n = 0 := fun h =>
        UInt64.le_zero_iff.mp (UInt64.not_lt.mp h)
      exact ⟨(hzero hs).trans (hzero hs').symm,
        UInt64.toNat_inj.mp (toDigits_append_inj hend hend hbody).1⟩

/-! ## Ranges after runs -/

namespace Index

variable {i : Index} {b : Select} {q₀ : Query}

theorem take_effect (i : Index) (c : Call) :
    (i.effect c).filterMap Update.take? = c.take?.toList := by
  cases c with
  | take count => rfl
  | _ => exact filterMap_effect_of_part? Update.part_of_take? rfl (by simp [Call.part?])

theorem skip_effect (i : Index) (c : Call) :
    (i.effect c).filterMap Update.skip? = c.skip?.toList := by
  cases c with
  | skip count => rfl
  | _ => exact filterMap_effect_of_part? Update.part_of_skip? rfl (by simp [Call.part?])

theorem filterMap_take (i : Index) (cs : List Call) :
    (cs.flatMap i.effect).filterMap Update.take? = cs.filterMap Call.take? := by
  rw [List.filterMap_flatMap, List.filterMap_eq_flatMap_toList]
  simp only [take_effect]

theorem filterMap_skip (i : Index) (cs : List Call) :
    (cs.flatMap i.effect).filterMap Update.skip? = cs.filterMap Call.skip? := by
  rw [List.filterMap_flatMap, List.filterMap_eq_flatMap_toList]
  simp only [skip_effect]

theorem offset_run (h : i.queryWith b = .ok q₀) (cs : List Call) :
    (q₀.run cs).offset = skippedRows cs := by
  obtain ⟨o, -, rfl⟩ := eq_of_queryWith h
  rw [Query.run_eq, Query.offset_updateAll, filterMap_skip]
  rfl

theorem limit_run (h : i.queryWith b = .ok q₀) (cs : List Call) :
    (q₀.run cs).limit = i.rowCount cs := by
  obtain ⟨o, -, rfl⟩ := eq_of_queryWith h
  rw [Query.run_eq, Query.limit_updateAll, filterMap_take, filterMap_skip]
  unfold rowCount
  cases (cs.filterMap Call.take?).getLast? with
  | some count => rfl
  | none =>
    cases i.settings.defaultLimit with
    | some count => exact ite_self _
    | none =>
      cases hskip : cs.filterMap Call.skip? with
      | nil => rfl
      | cons n ns =>
        rw [List.getLast?_cons]
        rfl

/-- The base query of a run has the range of the run, whatever range it was given with. -/
theorem paged_run (h : i.queryWith b = .ok q₀) (cs : List Call) : (q₀.run cs).Paged := by
  obtain ⟨o, -, rfl⟩ := eq_of_queryWith h
  rw [Query.run_eq]
  exact Query.Paged.updateAll ⟨rfl, rfl⟩ _

theorem limitClause?_run (h : i.queryWith b = .ok q₀) (cs : List Call) :
    (q₀.run cs).base.limitClause? = (i.rowCount cs).map (rangeText (skippedRows cs)) := by
  rw [Select.limitClause?_eq, (paged_run h cs).limit, (paged_run h cs).offset, limit_run h,
    offset_run h]

/-- No number of rows is above the greatest one that the index allows. -/
theorem rowCount_le (hi : i.Valid) {cs : List Call} {n : UInt64} (h : i.rowCount cs = some n) :
    n ≤ i.settings.maxLimit := by
  obtain ⟨-, -, -, hdefault, -⟩ := Settings.validate_eq_ok hi.validate
  unfold rowCount at h
  unfold Settings.checkDefaultLimit at hdefault
  split at h
  · cases h
    exact Std.min_le_right
  · next count _ hcount =>
    cases h
    rw [hcount] at hdefault
    dsimp only at hdefault
    split at hdefault
    · cases hdefault
    · next hle => exact UInt64.not_lt.mp hle
  · cases h
    exact UInt64.le_refl _
  · cases h

/-! ## Ranges in statements -/

/-- The query of a valid index exists.  After calls that succeed it and its base query have the same
range of rows, which the last limit and the last offset decide, with no more rows than the index
allows; the statement states this range and no other. -/
theorem rows_of_applyAll (hi : i.Valid) :
    ∃ q₀, i.query = .ok q₀ ∧ ∀ cs q, q₀.applyAll cs = .ok q →
      q.base.offset = q.offset ∧ q.base.limit = q.limit ∧
      q.offset = skippedRows cs ∧ q.limit = i.rowCount cs ∧
      (∀ n, i.rowCount cs = some n → n ≤ i.settings.maxLimit) ∧
      ∃ s, q.compile = .ok s ∧ s.sql = q.base.selectClause ++
        Statement.whereClause (Fragment.texts (Statement.operands q.base q.clauses)) ++
        Statement.trailing q.base.orderClause? ++
        Statement.trailing ((i.rowCount cs).map (rangeText (skippedRows cs))) ++
        Statement.trailing q.clauses.options.clause? := by
  obtain ⟨o, -, hquery⟩ := query_eq_ok hi
  refine ⟨_, hquery, fun cs q hq => ?_⟩
  obtain ⟨us, -, hreaches⟩ := reaches_of_applyAll hi hquery hq
  have hrun := Query.run_of_applyAll hq
  have hpaged := paged_run hquery cs
  have hoffset := offset_run hquery cs
  have hlimit := limit_run hquery cs
  have hclause := limitClause?_run hquery cs
  rw [hrun] at hpaged hoffset hlimit hclause
  refine ⟨hpaged.offset, hpaged.limit, hoffset, hlimit, fun n => rowCount_le hi, _,
    hreaches.compile_eq hi, ?_⟩
  rw [Statement.text_joined, Statement.trailing_tailClause?, hclause]
  simp only [String.append_assoc]

/-- Limits and offsets among other calls: the last limit is above the greatest one. -/
def pagingCalls : List Call :=
  [.skip 30, .take 7, .filter [("price__gt", .scalar (.int 3))], .take 5000, .orderBy ["-price"],
    .skip 20, .matchText ["lamp"]]

theorem products_paged : ∃ q₀ q s, products.query = .ok q₀ ∧
    q₀.applyAll pagingCalls = .ok q ∧ q.base.offset = 20 ∧ q.base.limit = some 1000 ∧
    q.compile = .ok s ∧ s.sql = q.base.selectClause ++
      Statement.whereClause (Fragment.texts (Statement.operands q.base q.clauses)) ++
      " ORDER BY price_attr DESC" ++ " LIMIT 20, 1000" ++
      Statement.trailing q.clauses.options.clause? := by
  obtain ⟨q₀, hq₀, hrun⟩ := rows_of_applyAll products_valid
  have hq := hrun pagingCalls
  cases hq₀
  obtain ⟨hoffset, hlimit, hskipped, hcount, -, s, hs, hsql⟩ := hq _ rfl
  exact ⟨_, _, s, rfl, rfl, hoffset.trans hskipped, hlimit.trans hcount, hs, hsql⟩

/-! ## Base queries with a range of their own -/

/-- Calls that ask for no range of rows leave the default of the index. -/
theorem range_of_unpaged (i : Index) {cs : List Call}
    (hcs : ∀ c ∈ cs, c.take? = none ∧ c.skip? = none) :
    i.rowCount cs = i.settings.defaultLimit ∧ skippedRows cs = 0 := by
  have htake : cs.filterMap Call.take? = [] :=
    List.filterMap_eq_nil_iff.mpr fun c hc => (hcs c hc).1
  have hskip : cs.filterMap Call.skip? = [] :=
    List.filterMap_eq_nil_iff.mpr fun c hc => (hcs c hc).2
  unfold rowCount skippedRows
  rw [htake, hskip]
  cases i.settings.defaultLimit <;> exact ⟨rfl, rfl⟩

/-- A valid index takes any base query.  After calls that succeed, none of which asks for a range of
rows, the range is the default of the index; a base query keeps a limit of its own exactly if it is
this default and no rows are skipped. -/
theorem limit_of_queryWith (hi : i.Valid) (b : Select) :
    ∃ q₀, i.queryWith b = .ok q₀ ∧ ∀ cs q, q₀.applyAll cs = .ok q →
      (∀ c ∈ cs, c.take? = none ∧ c.skip? = none) →
      q.base.limitClause? = i.settings.defaultLimit.map (rangeText 0) ∧
      (∀ s, q.compile = .ok s → ∃ f, Statement.condition q.base q.clauses = .ok f ∧
        s.sql = q.base.selectClause ++ (if f.isEmpty then "" else " WHERE " ++ f.sql) ++
          Statement.trailing q.base.orderClause? ++
          Statement.trailing (i.settings.defaultLimit.map (rangeText 0)) ++
          Statement.trailing q.clauses.options.clause?) ∧
      ∀ n, b.limit = some n → (q.base.limitClause? = b.limitClause? ↔
        i.settings.defaultLimit = some n ∧ b.offset = 0) := by
  obtain ⟨q₀, hquery⟩ := exists_queryWith hi.validate b
  refine ⟨q₀, hquery, fun cs q hq hcs => ?_⟩
  obtain ⟨hcount, hskipped⟩ := i.range_of_unpaged hcs
  have hclause := limitClause?_run hquery cs
  rw [Query.run_of_applyAll hq, hcount, hskipped] at hclause
  refine ⟨hclause, fun s hs => ?_, fun n hn => ?_⟩
  · rw [← hclause]
    exact Query.sql_of_compile hs
  · rw [hclause, Select.limitClause?_eq, hn, Option.map_some]
    cases i.settings.defaultLimit with
    | none => exact ⟨nofun, nofun⟩
    | some count =>
      rw [Option.map_some, Option.some_inj, rangeText_inj, Option.some_inj]
      exact ⟨fun ⟨hs, hc⟩ => ⟨hc, hs.symm⟩, fun ⟨hc, hs⟩ => ⟨hs.symm, hc⟩⟩

/-- Products in an index with a default limit, or with none. -/
def productsWithDefault (limit : Option UInt64) : Index :=
  ⟨products.schema, { Settings.standard with defaultLimit := limit }⟩

/-- A base query with a range of its own. -/
def rangedProducts (offset limit : UInt64) : Select :=
  (Select.new "products" ["id"]).withLimits offset (some limit)

/-- A call that asks for no range of rows. -/
def priceCall : Call := .filter [("price__gt", .scalar (.int 3))]

theorem products_keep_limit : (productsWithDefault (some 5)).Valid ∧
    ∃ q₀ q s, (productsWithDefault (some 5)).queryWith (rangedProducts 0 5) = .ok q₀ ∧
      q₀.applyAll [priceCall] = .ok q ∧ q.compile = .ok s ∧
      q.base.limitClause? = (rangedProducts 0 5).limitClause? := by
  have hvalid : (productsWithDefault (some 5)).Valid :=
    ⟨⟨"products", products.schema.fields.tail, rfl⟩, rfl⟩
  obtain ⟨q₀, hq₀, hrun⟩ := limit_of_queryWith hvalid (rangedProducts 0 5)
  have hq := hrun [priceCall]
  cases hq₀
  obtain ⟨-, -, hkeep⟩ := hq _ rfl fun c hc => by
    rw [List.mem_singleton.mp hc]
    exact ⟨rfl, rfl⟩
  exact ⟨hvalid, _, _, _, rfl, rfl, rfl, (hkeep 5 rfl).mpr ⟨rfl, rfl⟩⟩

/-- A base query that states a range of its own loses it: to the default of the index if there is
one, and to no range at all if there is none. -/
theorem products_lose_limit : (rangedProducts 20 10).limitClause? = some "LIMIT 20, 10" ∧
    (∀ limit, limit = none ∨ limit = some 5 → (productsWithDefault limit).Valid ∧
      10 ≤ (productsWithDefault limit).settings.maxLimit) ∧
    (∃ q₀ q, (productsWithDefault (some 5)).queryWith (rangedProducts 20 10) = .ok q₀ ∧
      q₀.applyAll [priceCall] = .ok q ∧ q.compile =
        .ok ⟨"SELECT id FROM products WHERE price_attr > ? LIMIT 5", [.integer 3]⟩) ∧
    ∃ q₀ q, (productsWithDefault none).queryWith (rangedProducts 20 10) = .ok q₀ ∧
      q₀.applyAll [priceCall] = .ok q ∧ q.compile =
        .ok ⟨"SELECT id FROM products WHERE price_attr > ?", [.integer 3]⟩ := by
  refine ⟨rfl, fun limit hlimit => ?_, ⟨_, _, rfl, rfl, rfl⟩, _, _, rfl, rfl, rfl⟩
  rcases hlimit with rfl | rfl
  · exact ⟨⟨⟨"products", products.schema.fields.tail, rfl⟩, rfl⟩, by decide⟩
  · exact ⟨⟨⟨"products", products.schema.fields.tail, rfl⟩, rfl⟩, by decide⟩

end Index

end IndexQuery
