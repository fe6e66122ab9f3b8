import IndexQuery.Proofs.Documents.Settings
import IndexQuery.Proofs.Options
import IndexQuery.Proofs.Paging
import Mathlib.Data.List.Nodup

/-!
# Integers among the options of a document

A settings document may give an option any integer.  Sixty-four bits with sign hold it or it is read
in binary, and every query writes what was read: the same digits if the bits hold it, and else the
shortest decimal of the binary number, which ends in three zeros at least.

    ofJson? (.number n) = some v → (v.text = signedDecimal n.integer ↔ n.Fits ∨ n.IsShortest)
                                                                       (text_of_integer_iff)
    doc.GivesOption name v → parse text = .ok s → v is read as the last value of name in s
                                                                       (exists_of_givesOption)
    every query of the index states that value, unless a call sets the option
                                                                       (rendersOption_run)
-/

namespace IndexQuery

open Text Outcome Json

/-! ## Algorithm -/

/-- A settings document gives a value to an option: a pair of the two is among the default options,
and no pair behind it has the name. -/
def Json.GivesOption (doc : Json) (name : String) (v : Json) : Prop :=
  ∃ marker keyAlias defaultLimit maxLimit before after,
    doc.record? Settings.parts = some [marker, keyAlias, defaultLimit, maxLimit,
      some (.array (before ++ .array [.string (some name), v] :: after))] ∧
    ∀ w, .array [.string (some name), w] ∉ after

/-- A query states an option once and with a value in the given text, and every statement of the
query ends in the clause that states its options. -/
structure Query.RendersOption (q : Query) (name text : String) : Prop where
  entry : ∃ before value after, q.clauses.options.entries = before ++ (name, value) :: after ∧
    value.text = text ∧ name ∉ before.map Prod.fst ∧ name ∉ after.map Prod.fst
  clause : ∀ s, q.compile = .ok s → ∃ front, s.sql = front ++ " OPTION " ++
    ", ".intercalate (q.clauses.options.entries.map OptionSet.entryText)

/-! ## Texts of integers -/

namespace OptionValue

variable {n : Numeral} {v : OptionValue}

theorem text_of_fits (hn : n.IsInteger) (hfits : n.Fits) (h : ofJson? (.number n) = some v) :
    v.text = signedDecimal n.integer := by
  have hint : (Int64.ofInt n.integer).toInt = n.integer :=
    (Numeral.ofInt_eq_iff hfits.1 hfits.2.1).mp rfl
  have hread := (Numeral.toInt64?_eq_some_iff hn.whole).mpr ⟨hfits, hint⟩
  unfold ofJson? at h
  dsimp only at h
  rw [hread] at h
  cases h
  exact congrArg signedDecimal hint

theorem exists_float_of_not_fits (hn : n.IsInteger) (hfits : ¬ n.Fits)
    (h : ofJson? (.number n) = some v) :
    ∃ x, (Json.number n).toBinary64? = some x ∧ v = .float x := by
  unfold ofJson? at h
  cases hread : (Json.number n).toInt64? with
  | some i => exact absurd ((Numeral.toInt64?_eq_some_iff hn.whole).mp hread).1 hfits
  | none =>
    dsimp only at h
    rw [hread] at h
    obtain ⟨x, hx, hv⟩ := Option.map_eq_some_iff.mp h
    exact ⟨x, hx, hv.symm⟩

/-- The zero behind a minus sign keeps its sign. -/
theorem text_of_minusZero (hn : n.IsInteger) (hzero : n.IsMinusZero)
    (h : ofJson? (.number n) = some v) : v.text = "-0" := by
  have hdigits : digitsValue n.whole = 0 := by
    have hinteger := hzero.2
    unfold Numeral.integer at hinteger
    split at hinteger <;> omega
  obtain ⟨x, hx, rfl⟩ := exists_float_of_not_fits hn (fun hfits => hfits.2.2 hzero) h
  rw [Numeral.toBinary64?_of_lt hn.whole (by rw [hdigits]; decide), hdigits, hzero.1] at hx
  cases hx
  decide +kernel

/-- A large integer is read as a number whose shortest decimal ends in three zeros at least. -/
theorem exists_exponent_of_not_fits (hn : n.IsInteger) (hne : n.integer ≠ 0) (hfits : ¬ n.Fits)
    {x : Binary64} (hx : (Json.number n).toBinary64? = some x) :
    ∃ e : Nat, (x.shortest .up).exponent = (e + 3 : Nat) := by
  have hlarge := Numeral.large_of_not_fits hn hne hfits hx
  have hexponent := Binary64.three_le_exponent_shortest .up hlarge.units
  exact ⟨((x.shortest .up).exponent - 3).toNat, by omega⟩

theorem text_of_not_fits_iff (hn : n.IsInteger) (hne : n.integer ≠ 0) (hfits : ¬ n.Fits)
    (h : ofJson? (.number n) = some v) : v.text = signedDecimal n.integer ↔ n.IsShortest := by
  obtain ⟨x, hx, rfl⟩ := exists_float_of_not_fits hn hfits h
  obtain ⟨e, he⟩ := exists_exponent_of_not_fits hn hne hfits hx
  have hlarge := Numeral.large_of_not_fits hn hne hfits hx
  have hunits : x.units ≠ 0 := by
    have hpos : 0 < Binary64.largeUnits := by decide
    exact Nat.ne_of_gt (Nat.lt_of_lt_of_le hpos hlarge.units)
  have hsign : x.isNegative = decide (n.integer < 0) := by
    rw [hlarge.sign]
    unfold Numeral.integer at hne ⊢
    cases n.negative
    · exact (decide_eq_false (by simp only [Bool.false_eq_true, reduceIte]; omega)).symm
    · exact (decide_eq_true (by simp only [reduceIte] at hne ⊢; omega)).symm
  refine (Binary64.Layout.text_eq_signedDecimal_iff (l := statementLayout) rfl rfl hlarge.finite
    hunits he hne hsign).trans ⟨fun heq => ⟨hne, x, _, hx, he, heq⟩, ?_⟩
  rintro ⟨-, y, k, hy, hk, heq⟩
  obtain rfl : x = y := Option.some.inj (hx.symm.trans hy)
  obtain rfl : e + 3 = k := Int.ofNat.inj (he.symm.trans hk)
  exact heq

/-- No integer beyond sixty-four bits is written as it is unless it ends in three zeros. -/
theorem emod_of_isShortest (hn : n.IsInteger) (hfits : ¬ n.Fits) (h : n.IsShortest) :
    n.integer % 1000 = 0 := by
  obtain ⟨hne, x, k, hx, hk, heq⟩ := h
  obtain ⟨e, he⟩ := exists_exponent_of_not_fits hn hne hfits hx
  obtain rfl : e + 3 = k := Int.ofNat.inj (he.symm.trans hk)
  have hsplit : powerOfTen (e + 3) = powerOfTen e * 1000 := Nat.pow_add 10 e 3
  rw [hsplit, ← Nat.mul_assoc] at heq
  omega

/-- An integer is written as it is if sixty-four bits hold it, and else exactly if it is a shortest
decimal. -/
theorem text_of_integer_iff (hn : n.IsInteger) (h : ofJson? (.number n) = some v) :
    v.text = signedDecimal n.integer ↔ n.Fits ∨ n.IsShortest := by
  by_cases hfits : n.Fits
  · exact ⟨fun _ => .inl hfits, fun _ => text_of_fits hn hfits h⟩
  · by_cases hzero : n.integer = 0
    · have hminus : n.IsMinusZero := by
        refine Classical.byContradiction fun hminus => hfits ⟨?_, ?_, hminus⟩ <;> rw [hzero] <;>
          decide
      rw [text_of_minusZero hn hminus h, hzero]
      refine ⟨fun heq => absurd heq (by decide), ?_⟩
      rintro (hfits' | hshortest)
      · exact absurd hfits' hfits
      · exact absurd hzero hshortest.1
    · refine (text_of_not_fits_iff hn hzero hfits h).trans ⟨.inr, ?_⟩
      rintro (hfits' | hshortest)
      · exact absurd hfits' hfits
      · exact hshortest

end OptionValue

/-! ## Lists of documents -/

namespace Json

variable {α β : Type} {f : α → Option β} {as cs : List α} {b : α} {bs : List β}

/-- An element of a list is read on its own. -/
theorem mapM_append_cons (h : (as ++ b :: cs).mapM f = some bs) :
    ∃ as' b' cs', f b = some b' ∧ cs.mapM f = some cs' ∧ bs = as' ++ b' :: cs' := by
  rw [List.mapM_append, List.mapM_cons] at h
  obtain ⟨as', -, h⟩ := Option.bind_eq_some_iff.mp h
  obtain ⟨ds, hds, h⟩ := Option.bind_eq_some_iff.mp h
  obtain ⟨b', hb, hds⟩ := Option.bind_eq_some_iff.mp hds
  obtain ⟨cs', hcs, hds⟩ := Option.bind_eq_some_iff.mp hds
  cases hds
  cases h
  exact ⟨as', b', cs', hb, hcs, rfl⟩

/-- What stands in a list that was read was read from an element. -/
theorem exists_of_mem_mapM (h : as.mapM f = some bs) {c : β} (hc : c ∈ bs) :
    ∃ a ∈ as, f a = some c := by
  induction as generalizing bs with
  | nil =>
    cases h
    cases hc
  | cons a as ih =>
    rw [List.mapM_cons] at h
    obtain ⟨b, hb, h⟩ := Option.bind_eq_some_iff.mp h
    obtain ⟨ds, hds, h⟩ := Option.bind_eq_some_iff.mp h
    cases h
    rcases List.mem_cons.mp hc with rfl | hc
    · exact ⟨a, List.mem_cons_self, hb⟩
    · obtain ⟨d, hd, hread⟩ := ih hds hc
      exact ⟨d, List.mem_cons_of_mem a hd, hread⟩

end Json

/-! ## Options of a document -/

namespace Settings

variable {text name : String} {doc v : Json} {s : Settings}

/-- An option is read from a pair that has its name. -/
theorem eq_pair_of_optionOfJson? {value : OptionValue} (h : optionOfJson? v = some (name, value)) :
    ∃ w, v = .array [.string (some name), w] ∧ OptionValue.ofJson? w = some value := by
  obtain ⟨⟨first, w⟩, hpair, h⟩ := Option.bind_eq_some_iff.mp h
  obtain ⟨name', hname, h⟩ := Option.bind_eq_some_iff.mp h
  obtain ⟨value', hvalue, h⟩ := Option.bind_eq_some_iff.mp h
  cases h
  unfold pair? at hpair
  split at hpair
  · cases hpair
    unfold Json.text? at hname
    split at hname
    · cases hname
      exact ⟨w, rfl, hvalue⟩
    · cases hname
  · cases hpair

theorem parse_eq_ok (hdoc : Json.ofText? text = some doc) (h : parse text = .ok s) :
    ofJson? doc = some s ∧ s.validate = .ok () := by
  unfold parse at h
  rw [hdoc, Option.bind_some] at h
  cases hread : ofJson? doc with
  | none =>
    rw [hread] at h
    cases h
  | some s' =>
    rw [hread] at h
    obtain ⟨s'', hs, h⟩ := bind_eq_ok.mp h
    cases hs
    obtain ⟨⟨⟩, hvalid, h⟩ := bind_eq_ok.mp h
    cases h
    exact ⟨rfl, hvalid⟩

/-- What a document gives to an option is read, and is the last value of the option. -/
theorem exists_of_givesOption (hgives : doc.GivesOption name v) (h : ofJson? doc = some s) :
    ∃ before value after, OptionValue.ofJson? v = some value ∧
      s.defaultOptions = before ++ (name, value) :: after ∧ name ∉ after.map Prod.fst := by
  obtain ⟨marker, keyAlias, defaultLimit, maxLimit, before, after, hrecord, hlast⟩ := hgives
  unfold ofJson? at h
  rw [hrecord] at h
  obtain ⟨marker, -, h⟩ := Option.bind_eq_some_iff.mp h
  obtain ⟨keyAlias, -, h⟩ := Option.bind_eq_some_iff.mp h
  obtain ⟨defaultLimit, -, h⟩ := Option.bind_eq_some_iff.mp h
  obtain ⟨maxLimit, -, h⟩ := Option.bind_eq_some_iff.mp h
  obtain ⟨options, hoptions, h⟩ := Option.bind_eq_some_iff.mp h
  cases h
  obtain ⟨front, ⟨name', value⟩, back, hread, hback, rfl⟩ := Json.mapM_append_cons hoptions
  obtain ⟨w, hw, hvalue⟩ := eq_pair_of_optionOfJson? hread
  cases hw
  refine ⟨front, value, back, hvalue, rfl, fun hmem => ?_⟩
  obtain ⟨⟨name', value'⟩, he, rfl⟩ := List.mem_map.mp hmem
  obtain ⟨u, hu, hread'⟩ := Json.exists_of_mem_mapM hback he
  obtain ⟨w', rfl, -⟩ := eq_pair_of_optionOfJson? hread'
  exact hlast w' hu

end Settings

/-! ## Options of a run -/

namespace OptionSet

/-- The last value that is written to a name is found under it. -/
theorem lookup_reverse_of_last {before after : List (String × OptionValue)} {name : String}
    {value : OptionValue} (h : name ∉ after.map Prod.fst) :
    (before ++ (name, value) :: after).reverse.lookup name = some value := by
  have hnone : after.reverse.lookup name = none := by
    refine List.lookup_eq_none_iff.mpr fun e he => ?_
    refine bne_iff_ne.mpr fun heq => h ?_
    rw [heq]
    exact List.mem_map_of_mem (List.mem_reverse.mp he)
  rw [List.reverse_append, List.reverse_cons, List.lookup_append, List.lookup_append, hnone]
  simp

/-- An entry that is found stands once among entries with different names. -/
theorem exists_split_of_get? {es : List (String × OptionValue)} {name : String}
    {value : OptionValue} (hes : (es.map Prod.fst).Nodup)
    (h : (⟨es⟩ : OptionSet).get? name = some value) :
    ∃ before after, es = before ++ (name, value) :: after ∧ name ∉ before.map Prod.fst ∧
      name ∉ after.map Prod.fst := by
  unfold get? at h
  obtain ⟨⟨name', value'⟩, hfind, rfl⟩ := Option.map_eq_some_iff.mp h
  have hname := List.find?_some hfind
  obtain rfl : name' = name := beq_iff_eq.mp hname
  obtain ⟨before, after, rfl⟩ := List.append_of_mem (List.mem_of_find?_eq_some hfind)
  rw [List.map_append, List.map_cons, List.nodup_middle, List.nodup_cons, List.mem_append,
    not_or] at hes
  exact ⟨before, after, rfl, hes.1.1, hes.1.2⟩

end OptionSet

namespace Index

variable {i : Index} {q₀ : Query}

/-- A default option that no call sets is stated by every query of a run. -/
theorem rendersOption_run {b : Select} (hq₀ : i.queryWith b = .ok q₀) {name : String}
    {value : OptionValue} {before after : List (String × OptionValue)}
    (hdefault : i.settings.defaultOptions = before ++ (name, value) :: after)
    (hlast : name ∉ after.map Prod.fst) {cs : List Call}
    (hcs : ∀ c ∈ cs, name ∉ c.written.map Prod.fst) :
    (q₀.run cs).RendersOption name value.text := by
  have hentries := entries_run hq₀ cs
  rw [← OptionSet.foldl_put_eq_table] at hentries
  have hrest : name ∉ (after ++ cs.flatMap Call.written).map Prod.fst := by
    rw [List.map_append, List.mem_append, not_or]
    refine ⟨hlast, fun hmem => ?_⟩
    obtain ⟨e, he, heq⟩ := List.mem_map.mp hmem
    obtain ⟨c, hc, he⟩ := List.mem_flatMap.mp he
    exact hcs c hc (List.mem_map.mpr ⟨e, he, heq⟩)
  have hwrites : i.writes cs = before ++ (name, value) :: (after ++ cs.flatMap Call.written) := by
    unfold writes
    rw [hdefault, List.append_assoc, List.cons_append]
  have hget := OptionSet.get?_foldl_put (i.writes cs) name
  rw [hwrites, OptionSet.lookup_reverse_of_last hrest, ← hwrites, ← hentries] at hget
  have hnodup := OptionSet.nodup_names_foldl_put (i.writes cs)
  rw [← hentries] at hnodup
  obtain ⟨front, back, hsplit, hfront, hback⟩ := OptionSet.exists_split_of_get? hnodup hget
  refine ⟨⟨front, value, back, hsplit, rfl, hfront, hback⟩, fun s hs => ?_⟩
  obtain ⟨f, -, hsql⟩ := Query.sql_of_compile hs
  have hclause : Statement.trailing (q₀.run cs).clauses.options.clause? = " OPTION " ++
      ", ".intercalate ((q₀.run cs).clauses.options.entries.map OptionSet.entryText) := by
    have hne : (q₀.run cs).clauses.options.entries.isEmpty = false := by
      rw [hsplit]
      simp
    unfold OptionSet.clause?
    rw [hne, if_neg Bool.false_ne_true]
    exact String.append_assoc.symm
  rw [hclause, ← String.append_assoc] at hsql
  exact ⟨_, hsql⟩

/-- What a document gives to an option as an integer is stated by every query of the index, whatever
the query is based on, unless a call sets the option.  It is stated in its own digits exactly if
sixty-four bits with sign hold it or it is a shortest decimal, which no other integer is that does
not end in three zeros; and otherwise in those of the binary number that it is read as. -/
theorem integer_option_stated {text name : String} {doc : Json} {n : Numeral}
    (hdoc : Json.ofText? text = some doc) (hgives : doc.GivesOption name (.number n))
    (hn : n.IsInteger) (hs : Settings.parse text = .ok i.settings) :
    ∃ t, (∀ b, ∃ q₀, i.queryWith b = .ok q₀ ∧ ∀ cs : List Call,
        (∀ c ∈ cs, name ∉ c.written.map Prod.fst) → (q₀.run cs).RendersOption name t) ∧
      (t = signedDecimal n.integer ↔ n.Fits ∨ n.IsShortest) ∧
      (¬ n.Fits → (n.integer % 1000 ≠ 0 → t ≠ signedDecimal n.integer) ∧
        ∃ x, (Json.number n).toBinary64? = some x ∧ t = statementLayout.text x ∧
          (digitsValue n.whole < UInt64.size →
            x = .nearest n.negative (digitsValue n.whole) 1)) := by
  obtain ⟨hread, hvalid⟩ := Settings.parse_eq_ok hdoc hs
  obtain ⟨before, value, after, hvalue, hdefault, hlast⟩ :=
    Settings.exists_of_givesOption hgives hread
  have hiff := OptionValue.text_of_integer_iff hn hvalue
  refine ⟨value.text, fun b => ?_, hiff, fun hfits => ⟨fun hthousand heq => ?_, ?_⟩⟩
  · obtain ⟨q₀, hq₀⟩ := exists_queryWith hvalid b
    exact ⟨q₀, hq₀, fun cs hcs => rendersOption_run hq₀ hdefault hlast hcs⟩
  · exact hthousand (OptionValue.emod_of_isShortest hn hfits ((hiff.mp heq).resolve_left hfits))
  · obtain ⟨x, hx, rfl⟩ := OptionValue.exists_float_of_not_fits hn hfits hvalue
    refine ⟨x, hx, rfl, fun hlt => ?_⟩
    rw [Numeral.toBinary64?_of_lt hn.whole hlt] at hx
    exact (Option.some.inj hx).symm

/-- A document that gives an option the second integer that sixty-three bits do not hold. -/
def manyMatches : Json :=
  .object ([("default_options", .array [.array [.string (some "max_matches"),
    .number (.ofInt 9223372036854775809)]])].map memberOf)

/-- Products in an index with the settings of that document. -/
def productsManyMatches : Index :=
  ⟨products.schema, { Settings.standard with
    defaultOptions := [("max_matches", .float ⟨4890909195324358656⟩)] }⟩

theorem written_manyMatches : manyMatches.Written := by
  have hpair : Written (.array [.string (some "max_matches"),
      .number (.ofInt 9223372036854775809)]) := by
    refine .array fun v hv => ?_
    rcases List.mem_pair.mp hv with rfl | rfl
    · exact .string _
    · exact .integer _
  refine .object fun m hm => ?_
  rw [List.mem_singleton.mp hm]
  exact .array fun v hv => List.mem_singleton.mp hv ▸ hpair

theorem givesOption_manyMatches :
    manyMatches.GivesOption "max_matches" (.number (.ofInt 9223372036854775809)) :=
  ⟨none, none, none, none, [], [], rfl, fun _ => List.not_mem_nil⟩

theorem products_many_matches : Json.ofText? manyMatches.toText = some manyMatches ∧
    manyMatches.GivesOption "max_matches" (.number (.ofInt 9223372036854775809)) ∧
    (Numeral.ofInt 9223372036854775809).IsInteger ∧
    Settings.parse manyMatches.toText = .ok productsManyMatches.settings ∧
    ∃ t q₀, t ≠ "9223372036854775809" ∧ productsManyMatches.query = .ok q₀ ∧
      (q₀.run [.take 5]).RendersOption "max_matches" t := by
  have hdoc := Json.ofText?_toText written_manyMatches
  have hn := Numeral.isInteger_ofInt 9223372036854775809
  have hs : Settings.parse manyMatches.toText = .ok productsManyMatches.settings := by
    decide +kernel
  obtain ⟨t, hquery, -, hrounded⟩ := integer_option_stated hdoc givesOption_manyMatches hn hs
  have hfits : ¬ (Numeral.ofInt 9223372036854775809).Fits := by decide +kernel
  obtain ⟨q₀, hq₀, hrun⟩ := hquery _
  refine ⟨hdoc, givesOption_manyMatches, hn, hs, t, q₀, ?_, hq₀, hrun [.take 5] ?_⟩
  · exact (hrounded hfits).1 (by decide +kernel)
  · decide

/-- An integer beyond sixty-three bits is not refused, and the statements of the index state another
one. -/
theorem products_many_matches_rounded :
    manyMatches.toText =
      "\x7b\"default_options\":[[\"max_matches\",9223372036854775809]]\x7d" ∧
    Settings.parse manyMatches.toText = .ok productsManyMatches.settings ∧
    ∃ q₀ s, productsManyMatches.query = .ok q₀ ∧ q₀.compile = .ok s ∧
      s.sql = "SELECT id, price_attr, tags FROM products OPTION max_matches=9223372036854776000" :=
  ⟨by decide +kernel, by decide +kernel, _, _, rfl, rfl, by decide +kernel⟩

end Index

end IndexQuery
