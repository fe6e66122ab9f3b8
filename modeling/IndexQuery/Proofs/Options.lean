import IndexQuery.Proofs.Accumulation
import IndexQuery.Proofs.Interleaving

/-!
# Options of runs

The options of a query are a table of all that was written to them: first the defaults of the index,
then the options of each call that succeeded.  A name has the place where it was first written and
the value that was last written to it.  A call writes all of its options or none.

    check name value = .error e ↔
      ∃ bad, Refuses (name, value) bad ∧ e = .invalidOption bad             (check_eq_error_iff)
    ws.foldl put [] = table ws                                              (foldl_put_eq_table)
    i.queryWith b = .ok q₀ → (q₀.run cs).clauses.options.entries = table (i.writes cs)
                                                                              (entries_run)
    table (ws ++ ws' ++ ws') = table (ws ++ ws')                           (table_append_again)
-/

namespace IndexQuery

open Text Outcome

/-! ## Algorithm -/

namespace OptionSet

/-- Whether the name of an option and every name in its value is an identifier. -/
def accepts (o : String × OptionValue) : Bool := isIdentifier o.1 && o.2.names.all isIdentifier

/-- An option is refused for its own name, or else for the first name in its weights that is no
identifier; the error states the name. -/
inductive Refuses : String × OptionValue → String → Prop where
  | name {name : String} {value : OptionValue} (h : isIdentifier name = false) :
    Refuses (name, value) name
  | key {name key : String} {before after : List (String × Int64)} {weight : Int64}
    (h : isIdentifier name = true) (hbefore : ∀ w ∈ before, isIdentifier w.1 = true)
    (hkey : isIdentifier key = false) :
    Refuses (name, .weights (before ++ (key, weight) :: after)) (name ++ "." ++ key)

/-- The table that writes leave: each name where it was first written, with the value that was last
written to it. -/
def table (ws : List (String × OptionValue)) : List (String × OptionValue) :=
  (ws.map Prod.fst).eraseDups.filterMap fun name =>
    (ws.reverse.lookup name).map fun value => (name, value)

end OptionSet

/-- The options that a call writes: all that it gives, or none if one of them is refused. -/
def Call.written : Call → List (String × OptionValue)
  | .options os => if os.all OptionSet.accepts then os else []
  | _ => []

/-- All that is written to the options of a query by calls. -/
def Index.writes (i : Index) (cs : List Call) : List (String × OptionValue) :=
  i.settings.defaultOptions ++ cs.flatMap Call.written

/-! ## Refused options -/

namespace OptionSet

/-- A list of weights with a name that is no identifier has a first one. -/
theorem find?_names_eq_some_iff {value : OptionValue} {bad : String} :
    (value.names.find? fun n => !isIdentifier n) = some bad ↔
      ∃ before weight after, value = .weights (before ++ (bad, weight) :: after) ∧
        (∀ w ∈ before, isIdentifier w.1 = true) ∧ isIdentifier bad = false := by
  rw [List.find?_eq_some_iff_append]
  constructor
  · rintro ⟨hbad, pre, post, hnames, hpre⟩
    cases value with
    | weights ws =>
      obtain ⟨before, rest, rfl, rfl, hrest⟩ := List.map_eq_append_iff.mp hnames
      obtain ⟨⟨key, weight⟩, after, rfl, rfl, -⟩ := List.map_eq_cons_iff.mp hrest
      refine ⟨before, weight, after, rfl, fun w hw => ?_, by simpa using hbad⟩
      simpa using hpre w.1 (List.mem_map_of_mem hw)
    | _ => simp [OptionValue.names] at hnames
  · rintro ⟨before, weight, after, rfl, hbefore, hbad⟩
    refine ⟨by simpa using hbad, before.map Prod.fst, after.map Prod.fst, ?_, fun k hk => ?_⟩
    · simp [OptionValue.names]
    · obtain ⟨w, hw, rfl⟩ := List.mem_map.mp hk
      simpa using hbefore w hw

theorem check_eq_error_iff {name : String} {value : OptionValue} {e : Error} :
    check name value = .error e ↔ ∃ bad, Refuses (name, value) bad ∧ e = .invalidOption bad := by
  unfold check
  cases hname : isIdentifier name with
  | false =>
    constructor
    · intro h
      cases h
      exact ⟨name, .name hname, rfl⟩
    · rintro ⟨bad, hrefuses, rfl⟩
      cases hrefuses with
      | name _ => rfl
      | key h _ _ => rw [hname] at h; cases h
  | true =>
    have hfind := @find?_names_eq_some_iff value
    constructor
    · intro h
      cases hbad : value.names.find? (fun n => !isIdentifier n) with
      | none => simp [hbad] at h
      | some bad =>
        simp only [hbad] at h
        cases h
        obtain ⟨before, weight, after, rfl, hbefore, hkey⟩ := hfind.mp hbad
        exact ⟨_, .key hname hbefore hkey, rfl⟩
    · rintro ⟨bad, hrefuses, rfl⟩
      cases hrefuses with
      | name h => rw [hname] at h; cases h
      | key _ hbefore hkey =>
        rw [hfind.mpr ⟨_, _, _, rfl, hbefore, hkey⟩]
        rfl

theorem check_eq_ok_iff {o : String × OptionValue} :
    check o.1 o.2 = .ok () ↔ accepts o = true := by
  unfold accepts
  rw [Bool.and_eq_true, List.all_eq_true]
  refine ⟨check_eq_ok, fun ⟨hname, hnames⟩ => ?_⟩
  have hnone : (o.2.names.find? fun n => !isIdentifier n) = none :=
    List.find?_eq_none.mpr fun n hn => by simp [hnames n hn]
  unfold check
  rw [hname, hnone]
  rfl

end OptionSet

namespace Query

variable (q : Query) (os : List (String × OptionValue))

theorem optionUpdate_eq_ok_iff {o : String × OptionValue} :
    (∃ u, Index.optionUpdate o = .ok u) ↔ OptionSet.accepts o = true := by
  rw [← OptionSet.check_eq_ok_iff]
  unfold Index.optionUpdate
  cases OptionSet.check o.1 o.2 with
  | error e => exact ⟨nofun, nofun⟩
  | ok u => exact ⟨fun _ => rfl, fun _ => ⟨_, rfl⟩⟩

theorem optionUpdate_eq_error_iff {o : String × OptionValue} {e : Error} :
    Index.optionUpdate o = .error e ↔ ∃ bad, OptionSet.Refuses o bad ∧ e = .invalidOption bad :=
  map_eq_error.trans OptionSet.check_eq_error_iff

theorem optionUpdates_eq_ok_iff :
    (∃ us, os.mapM Index.optionUpdate = .ok us) ↔ ∀ o ∈ os, OptionSet.accepts o = true :=
  exists_mapM_eq_ok_iff.trans (forall₂_congr fun _ _ => optionUpdate_eq_ok_iff)

/-- A call with options fails if one of them is refused. -/
theorem setOptions_fails_iff :
    (∃ e, q.setOptions os = .error e) ↔ ∃ o ∈ os, OptionSet.accepts o = false := by
  have hok := optionUpdates_eq_ok_iff os
  rw [setOptions_eq]
  simp only [map_eq_error]
  show (∃ e, os.mapM Index.optionUpdate = .error e) ↔ _
  cases h : os.mapM Index.optionUpdate with
  | error e =>
    refine ⟨fun _ => ?_, fun _ => ⟨e, rfl⟩⟩
    by_contra hall
    obtain ⟨us, hus⟩ := hok.mpr fun o ho =>
      eq_true_of_ne_false fun hfalse => hall ⟨o, ho, hfalse⟩
    rw [h] at hus
    cases hus
  | ok us =>
    refine ⟨nofun, fun ⟨o, ho, hfalse⟩ => ?_⟩
    rw [hok.mp ⟨us, h⟩ o ho] at hfalse
    cases hfalse

/-- The error of a call with options is that of the first one that is refused. -/
theorem setOptions_eq_error_iff {e : Error} :
    q.setOptions os = .error e ↔ ∃ pre o post bad, os = pre ++ o :: post ∧
      (∀ p ∈ pre, OptionSet.accepts p = true) ∧ OptionSet.Refuses o bad ∧
      e = .invalidOption bad := by
  rw [setOptions_eq, map_eq_error]
  refine mapM_eq_error_iff.trans ?_
  simp only [optionUpdate_eq_ok_iff, optionUpdate_eq_error_iff]
  constructor
  · rintro ⟨pre, o, post, rfl, hpre, bad, hbad, rfl⟩
    exact ⟨pre, o, post, bad, rfl, hpre, hbad, rfl⟩
  · rintro ⟨pre, o, post, bad, rfl, hpre, hbad, rfl⟩
    exact ⟨pre, o, post, rfl, hpre, bad, hbad, rfl⟩

end Query

/-! ## Tables -/

namespace OptionSet

theorem names_foldl_put (ws : List (String × OptionValue)) :
    (ws.foldl (fun es o => put o.1 o.2 es) []).map Prod.fst = (ws.map Prod.fst).eraseDups := by
  induction ws using List.reverseRecOn with
  | nil => rfl
  | append_singleton ws w ih =>
    rw [List.foldl_concat, names_put, ih, List.map_append, List.map_singleton, eraseDups_concat]
    simp only [List.mem_eraseDups]

theorem get?_foldl_put (ws : List (String × OptionValue)) (name : String) :
    (⟨ws.foldl (fun es o => put o.1 o.2 es) []⟩ : OptionSet).get? name =
      ws.reverse.lookup name := by
  induction ws using List.reverseRecOn with
  | nil => rfl
  | append_singleton ws w ih =>
    rw [List.foldl_concat, get?_put, ih, List.reverse_concat, List.lookup_cons]
    by_cases h : name = w.1
    · rw [if_pos h, beq_iff_eq.mpr h]
    · rw [if_neg h, beq_eq_false_iff_ne.mpr h]

theorem nodup_names_foldl_put (ws : List (String × OptionValue)) :
    ((ws.foldl (fun es o => put o.1 o.2 es) []).map Prod.fst).Nodup := by
  rw [names_foldl_put]
  exact nodup_eraseDups _

/-- Entries with different names are told by the names and what is found under them. -/
theorem entries_eq_filterMap {es : List (String × OptionValue)} (h : (es.map Prod.fst).Nodup) :
    es = (es.map Prod.fst).filterMap fun name =>
      ((⟨es⟩ : OptionSet).get? name).map fun value => (name, value) := by
  induction es with
  | nil => rfl
  | cons e es ih =>
    obtain ⟨name, value⟩ := e
    rw [List.map_cons, List.nodup_cons] at h
    have hhead : (⟨(name, value) :: es⟩ : OptionSet).get? name = some value := by simp [get?]
    have htail : ∀ n ∈ es.map Prod.fst, (⟨(name, value) :: es⟩ : OptionSet).get? n =
        (⟨es⟩ : OptionSet).get? n := by
      intro n hn
      have hne : name ≠ n := fun heq => h.1 (heq ▸ hn)
      simp [get?, hne]
    rw [List.map_cons, List.filterMap_cons, hhead, Option.map_some]
    refine congrArg _ ((ih h.2).trans (List.filterMap_congr fun n hn => ?_))
    rw [htail n hn]

theorem foldl_put_eq_table (ws : List (String × OptionValue)) :
    ws.foldl (fun es o => put o.1 o.2 es) [] = table ws := by
  rw [entries_eq_filterMap (nodup_names_foldl_put ws), names_foldl_put]
  unfold table
  simp only [get?_foldl_put]

/-- Options that are set one after another are put one after another. -/
theorem entries_setAll {o o' : OptionSet} {os : List (String × OptionValue)}
    (h : o.setAll os = .ok o') :
    o'.entries = os.foldl (fun es o => put o.1 o.2 es) o.entries := by
  unfold setAll at h
  induction os generalizing o with
  | nil =>
    cases h
    rfl
  | cons e os ih =>
    obtain ⟨o₁, ho₁, h⟩ := bind_eq_ok.mp h
    obtain ⟨⟨⟩, -, rfl⟩ := map_eq_ok.mp ho₁
    exact ih h

/-- To write again what was written last changes nothing. -/
theorem table_append_again (ws ws' : List (String × OptionValue)) :
    table (ws ++ ws' ++ ws') = table (ws ++ ws') := by
  have hnames : ((ws ++ ws' ++ ws').map Prod.fst).eraseDups =
      ((ws ++ ws').map Prod.fst).eraseDups := by
    have hnone : (ws'.map Prod.fst).removeAll ((ws ++ ws').map Prod.fst) = [] := by
      refine List.filter_eq_nil_iff.mpr fun name hname => ?_
      have hmem : name ∈ (ws ++ ws').map Prod.fst := by
        rw [List.map_append]
        exact List.mem_append_right _ hname
      rw [List.elem_eq_true_of_mem hmem]
      exact Bool.false_ne_true
    rw [List.map_append, List.eraseDups_append, hnone]
    exact List.append_nil _
  have hvalues : ∀ name, (ws ++ ws' ++ ws').reverse.lookup name =
      (ws ++ ws').reverse.lookup name := by
    intro name
    rw [List.reverse_append, List.reverse_append, List.lookup_append, List.lookup_append]
    cases ws'.reverse.lookup name <;> rfl
  unfold table
  simp only [hnames, hvalues]

end OptionSet

/-! ## Runs -/

namespace Index

variable {i : Index} {q₀ : Query}

/-- Options that are all accepted are the ones that are set. -/
theorem option_of_optionUpdates {os : List (String × OptionValue)} {us : List Update}
    (h : os.mapM optionUpdate = .ok us) : us.filterMap Update.option? = os := by
  induction os generalizing us with
  | nil =>
    cases h
    rfl
  | cons o os ih =>
    obtain ⟨u, us, hu, hus, rfl⟩ := mapM_cons_eq_ok.mp h
    obtain ⟨⟨⟩, -, rfl⟩ := map_eq_ok.mp hu
    exact congrArg (o :: ·) (ih hus)

/-- A call sets the options that it writes. -/
theorem option_effect (i : Index) (c : Call) :
    (i.effect c).filterMap Update.option? = c.written := by
  cases c with
  | options os =>
    have hok := Query.optionUpdates_eq_ok_iff os
    rw [← List.all_eq_true] at hok
    show _ = if os.all OptionSet.accepts then os else []
    cases h : os.mapM optionUpdate with
    | error e =>
      have hrefused : ¬ os.all OptionSet.accepts = true := by
        intro hall
        obtain ⟨us, hus⟩ := hok.mpr hall
        rw [h] at hus
        cases hus
      rw [effect_of_error (c := .options os) h, if_neg hrefused]
      rfl
    | ok us =>
      rw [effect_of_ok (c := .options os) h, if_pos (hok.mp ⟨us, h⟩)]
      exact option_of_optionUpdates h
  | _ => exact filterMap_effect_of_part? Update.part_of_option? rfl (by simp [Call.part?])

theorem entries_run {b : Select} (hq₀ : i.queryWith b = .ok q₀) (cs : List Call) :
    (q₀.run cs).clauses.options.entries = OptionSet.table (i.writes cs) := by
  obtain ⟨o, ho, rfl⟩ := eq_of_queryWith hq₀
  rw [Query.run_eq, Query.options_updateAll, List.filterMap_flatMap]
  simp only [option_effect]
  show List.foldl _ o.entries _ = _
  rw [OptionSet.entries_setAll ho]
  show List.foldl _ (List.foldl _ [] _) _ = _
  rw [← List.foldl_append, OptionSet.foldl_put_eq_table]
  rfl

/-- The names of the options are different, and stand in the order in which they were first
written. -/
theorem names_table (ws : List (String × OptionValue)) :
    (OptionSet.table ws).map Prod.fst = (ws.map Prod.fst).eraseDups ∧
      ((OptionSet.table ws).map Prod.fst).Nodup := by
  rw [← OptionSet.foldl_put_eq_table]
  exact ⟨OptionSet.names_foldl_put ws, OptionSet.nodup_names_foldl_put ws⟩

/-- With accepted settings the query exists, and its options after any run are the table of the
defaults and of what the calls that succeeded wrote, each name once.  A call with options fails
exactly if one of them is refused, states the first one that is, and leaves the query as it was; to
repeat the last call that wrote any changes nothing. -/
theorem options_of_run (hs : i.settings.validate = .ok ()) :
    ∃ q₀, i.query = .ok q₀ ∧ ∀ cs,
      (q₀.run cs).clauses.options.entries = OptionSet.table (i.writes cs) ∧
      ((q₀.run cs).clauses.options.entries.map Prod.fst =
        ((i.writes cs).map Prod.fst).eraseDups) ∧
      ((q₀.run cs).clauses.options.entries.map Prod.fst).Nodup ∧
      (∀ os, ((∃ e, (q₀.run cs).setOptions os = .error e) ↔
        ∃ o ∈ os, OptionSet.accepts o = false)) ∧
      (∀ os e, ((q₀.run cs).setOptions os = .error e ↔ ∃ pre o post bad, os = pre ++ o :: post ∧
        (∀ p ∈ pre, OptionSet.accepts p = true) ∧ OptionSet.Refuses o bad ∧
          e = .invalidOption bad)) ∧
      (∀ os e, (q₀.run cs).setOptions os = .error e →
        q₀.run (cs ++ [.options os]) = q₀.run cs) ∧
      ∀ os ds, os.all OptionSet.accepts = true → ds.flatMap Call.written = [] →
        (q₀.run (cs ++ .options os :: ds ++ [.options os])).clauses.options =
          (q₀.run (cs ++ .options os :: ds)).clauses.options := by
  obtain ⟨q₀, hquery⟩ := exists_queryWith hs (.new i.schema.index i.schema.resultColumns)
  refine ⟨q₀, hquery, fun cs => ?_⟩
  have hentries := entries_run hquery cs
  obtain ⟨hnames, hnodup⟩ := names_table (i.writes cs)
  refine ⟨hentries, hentries ▸ hnames, hentries ▸ hnodup, Query.setOptions_fails_iff _,
    fun os e => Query.setOptions_eq_error_iff _ os, fun os e he => ?_, fun os ds hos hds => ?_⟩
  · rw [Query.run_append]
    exact Query.attempt_of_error (c := .options os) he
  · have hwritten : Call.written (.options os) = os := if_pos hos
    apply OptionSet.ext
    rw [entries_run hquery, entries_run hquery]
    simp only [writes, List.flatMap_append, List.flatMap_cons, List.flatMap_nil, hwritten, hds,
      List.append_nil, ← List.append_assoc]
    exact OptionSet.table_append_again _ os

/-- Two weights, the second of which has no name that may stand in a statement. -/
def badWeights : String × OptionValue := ("field_weights", .weights [("title", 1), ("b d", 2)])

/-- Options that are given twice. -/
def rankerOptions : List (String × OptionValue) :=
  [("ranker", .int 1), ("field_weights", .weights [("title", 10)]), ("ranker", .int 2)]

/-- Calls with options, the second of which fails. -/
def optionCalls : List Call :=
  [.options [("ranker", .string "bm25"), ("comment", .string "new")],
    .options [("cutoff", .int 1), badWeights], .take 5]

theorem products_options : products.settings.validate = .ok () ∧
    ∃ q₀, products.query = .ok q₀ ∧
    (q₀.run (optionCalls ++ [.options rankerOptions])).clauses.options.entries =
      [("comment", .string "new"), ("ranker", .int 2),
        ("field_weights", .weights [("title", 10)])] ∧
    q₀.setOptions [("cutoff", .int 1), badWeights, ("", .int 2)] =
      .error (.invalidOption "field_weights.b d") ∧
    (q₀.run (optionCalls ++ [.options rankerOptions] ++ [.options rankerOptions])).clauses.options =
      (q₀.run (optionCalls ++ [.options rankerOptions])).clauses.options := by
  have hvalid : products.settings.validate = .ok () := rfl
  obtain ⟨q₀, hq₀, hrun⟩ := options_of_run hvalid
  obtain ⟨hentries, -⟩ := hrun (optionCalls ++ [.options rankerOptions])
  obtain ⟨-, -, -, -, herror, -⟩ := hrun []
  obtain ⟨-, -, -, -, -, -, hagain⟩ := hrun optionCalls
  have hrefuses : OptionSet.Refuses ("field_weights", .weights ([("title", 1)] ++ [("b d", 2)]))
      ("field_weights" ++ "." ++ "b d") := .key rfl (by decide) rfl
  exact ⟨hvalid, q₀, hq₀, hentries.trans rfl, (herror _ _).mpr ⟨[("cutoff", .int 1)], badWeights,
    [("", .int 2)], _, rfl, by decide, hrefuses, rfl⟩, hagain rankerOptions [] rfl rfl⟩

end Index

end IndexQuery
