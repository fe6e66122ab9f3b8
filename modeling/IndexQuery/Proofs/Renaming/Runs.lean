import IndexQuery.Proofs.Renaming.Calls
import IndexQuery.Proofs.Run

/-!
# Runs under other names

A run on an index and the run with the names replaced on a renamed index fail at the same calls.
Each change keeps the two queries twins, so they compile to statements with the same parameters, and
with the same text exactly if every full-text field of an inequality that succeeded is called the
same in both indexes.

    q.Twin E r → u.Twin F v → (q.update u).Twin (E ∧ F) (r.update v)                 (Twin.update)
    q.Twin E r → Along Update.Twin F us vs → (q.updateAll us).Twin (E ∧ F) (r.updateAll vs)
                                                                                  (Twin.updateAll)
    q₀.report cs and r₀.report ds fail alike, s.params = t.params, and s.sql = t.sql ↔
      ∀ c ∈ cs, q₀.failure? c = none → i.SameNames j (i.marked c)                    (run_renamed)
-/

namespace IndexQuery

open Text Outcome

/-! ## Algorithm -/

/-- The query without its conditions. -/
def Select.bare (b : Select) : Select := { b with conditions := [] }

/-- The clauses without their fragments. -/
def Clauses.bare (c : Clauses) : Clauses := { c with fragments := [] }

@[simp] theorem Select.selectClause_bare (b : Select) : b.bare.selectClause = b.selectClause := rfl

@[simp] theorem Select.tailClause?_bare (b : Select) : b.bare.tailClause? = b.tailClause? := rfl

@[simp] theorem Clauses.matching_bare (c : Clauses) : c.bare.matching = c.matching := rfl

@[simp] theorem Clauses.options_bare (c : Clauses) : c.bare.options = c.options := rfl

/-- Queries that differ in conditions and fragments only, which are twins. -/
structure Query.Twin (E : Prop) (q r : Query) : Prop where
  settings : q.index.settings = r.index.settings
  base : q.base.bare = r.base.bare
  clauses : q.clauses.bare = r.clauses.bare
  offset : q.offset = r.offset
  limit : q.limit = r.limit
  texts : ∃ F G, (F ∧ G ↔ E) ∧ Along Condition.Twin F q.base.conditions r.base.conditions ∧
    Along Fragment.Twin G q.clauses.fragments r.clauses.fragments

namespace Query.Twin

variable {E F : Prop} {q r : Query}

/-! ## Changes -/

theorem of_iff (h : q.Twin E r) (hEF : E ↔ F) : q.Twin F r := propext hEF ▸ h

theorem condition (h : q.Twin E r) {c d : Condition} (hcd : c.Twin F d) :
    (q.update (.condition c)).Twin (E ∧ F) (r.update (.condition d)) := by
  obtain ⟨G, H, hE, hconditions, hfragments⟩ := h.texts
  refine ⟨h.settings, h.base, h.clauses, h.offset, h.limit, G ∧ F, H, by tauto, ?_, hfragments⟩
  exact hconditions.append (.single hcd)

theorem fragment (h : q.Twin E r) {f g : Fragment} (hfg : f.Twin F g) :
    (q.update (.fragment f)).Twin (E ∧ F) (r.update (.fragment g)) := by
  obtain ⟨G, H, hE, hconditions, hfragments⟩ := h.texts
  refine ⟨h.settings, h.base, h.clauses, h.offset, h.limit, G, H ∧ F, by tauto, hconditions, ?_⟩
  exact hfragments.append (.single hfg)

/-- The same change keeps queries twins. -/
theorem update_same (h : q.Twin E r) (u : Update) : (q.update u).Twin E (r.update u) := by
  cases u with
  | condition c => exact (h.condition (.refl c)).of_iff (iff_of_eq (and_true E))
  | fragment f => exact (h.fragment (.refl f)).of_iff (iff_of_eq (and_true E))
  | terms scope ts =>
    have hclauses := congrArg (fun c => c.withMatch scope ts) h.clauses
    exact ⟨h.settings, h.base, hclauses, h.offset, h.limit, h.texts⟩
  | negation =>
    have hclauses := congrArg Clauses.withNegation h.clauses
    exact ⟨h.settings, h.base, hclauses, h.offset, h.limit, h.texts⟩
  | option name value =>
    have hclauses := congrArg (fun c : Clauses =>
      { c with options := ⟨OptionSet.put name value c.options.entries⟩ }) h.clauses
    exact ⟨h.settings, h.base, hclauses, h.offset, h.limit, h.texts⟩
  | order ts =>
    have hbase := congrArg (fun b => b.withOrderBy ts) h.base
    exact ⟨h.settings, hbase, h.clauses, h.offset, h.limit, h.texts⟩
  | take count =>
    have hlimit : (q.take count).limit = (r.take count).limit := by
      unfold take
      rw [h.settings]
    have hbase : (q.take count).base.bare = (r.take count).base.bare := by
      show q.base.bare.withLimits q.offset (q.take count).limit =
        r.base.bare.withLimits r.offset (r.take count).limit
      rw [h.base, h.offset, hlimit]
    exact ⟨h.settings, hbase, h.clauses, h.offset, hlimit, h.texts⟩
  | skip count =>
    have hlimit : (q.skip count).limit = (r.skip count).limit := by
      unfold skip
      rw [h.settings, h.limit]
    have hbase : (q.skip count).base.bare = (r.skip count).base.bare := by
      show q.base.bare.withLimits count (q.skip count).limit =
        r.base.bare.withLimits count (r.skip count).limit
      rw [h.base, hlimit]
    exact ⟨h.settings, hbase, h.clauses, rfl, hlimit, h.texts⟩

/-- Twin changes keep queries twins. -/
theorem update (h : q.Twin E r) {u v : Update} (huv : u.Twin F v) :
    (q.update u).Twin (E ∧ F) (r.update v) := by
  cases huv with
  | condition hcd => exact h.condition hcd
  | fragment hfg => exact h.fragment hfg
  | same u => exact (h.update_same u).of_iff (iff_of_eq (and_true E)).symm

theorem updateAll (h : q.Twin E r) {us vs : List Update} (huv : Along Update.Twin F us vs) :
    (q.updateAll us).Twin (E ∧ F) (r.updateAll vs) := by
  induction huv generalizing q r E with
  | nil => exact h.of_iff (iff_of_eq (and_true E)).symm
  | cons hfirst _ ih => exact (ih (h.update hfirst)).of_iff and_assoc

/-! ## Statements -/

theorem selectClause_eq (h : q.Twin E r) : q.base.selectClause = r.base.selectClause := by
  simpa using congrArg Select.selectClause h.base

theorem tailClause?_eq (h : q.Twin E r) : q.base.tailClause? = r.base.tailClause? := by
  simpa using congrArg Select.tailClause? h.base

theorem options_eq (h : q.Twin E r) : q.clauses.options = r.clauses.options := by
  simpa using congrArg Clauses.options h.clauses

theorem matching_eq (h : q.Twin E r) : q.clauses.matching = r.clauses.matching := by
  simpa using congrArg Clauses.matching h.clauses

/-- The conditions of twin queries are twins. -/
theorem joined (h : q.Twin E r) :
    (Statement.joined q.base q.clauses).Twin E (Statement.joined r.base r.clauses) := by
  obtain ⟨F, G, hE, hconditions, hfragments⟩ := h.texts
  have hwhere : q.base.whereFragment.Twin F r.base.whereFragment :=
    .conjunction (Condition.Twin.fragments hconditions)
  have hall := Fragment.Twin.foldl Fragment.Twin.and hwhere hfragments
  unfold Statement.joined
  rw [h.matching_eq]
  exact (hall.and (.refl _)).of_iff ((iff_of_eq (and_true _)).trans hE)

/-- Twin queries have texts that differ in single words at most. -/
theorem parallel_text (h : q.Twin E r) {f g : Fragment} (hfg : f.Twin F g) :
    Parallel (Statement.text q.base q.clauses f).toList
      (Statement.text r.base r.clauses g).toList := by
  have hwhere : Parallel (if f.isEmpty then "" else " WHERE " ++ f.sql).toList
      (if g.isEmpty then "" else " WHERE " ++ g.sql).toList := by
    rw [hfg.isEmpty_eq]
    split
    · exact .refl _
    · exact (Parallel.refl " WHERE ".toList).concat hfg.text
  unfold Statement.text
  rw [h.selectClause_eq, h.tailClause?_eq, h.options_eq]
  exact (((Parallel.refl _).concat hwhere).concat (.refl _)).concat (.refl _)

/-- Twin queries have texts that differ exactly if their conditions do. -/
theorem text_eq_iff (h : q.Twin E r) {f g : Fragment} (hfg : f.Twin F g) :
    Statement.text q.base q.clauses f = Statement.text r.base r.clauses g ↔ F := by
  unfold Statement.text
  rw [h.selectClause_eq, h.tailClause?_eq, h.options_eq, hfg.isEmpty_eq, String.append_left_inj,
    String.append_left_inj, String.append_right_inj]
  split
  · next hg =>
    have hf : f.sql = g.sql := by
      rw [beq_iff_eq.mp hg, beq_iff_eq.mp (hfg.isEmpty_eq.trans hg)]
    exact iff_of_true rfl (hfg.equal.mp hf)
  · rw [String.append_right_inj, hfg.equal]

end Query.Twin

namespace Index

variable {i j : Index}

/-- Renamed indexes return the same columns. -/
theorem Renamed.resultColumns_eq (h : i.Renamed j) :
    i.schema.resultColumns = j.schema.resultColumns := by
  have hcolumns : ∀ {fs gs : List Field}, List.Forall₂ Field.SameColumn fs gs →
      (fs.filter fun f => !f.isFullText).map Field.storageColumn =
        (gs.filter fun g => !g.isFullText).map Field.storageColumn := by
    intro fs gs hfields
    induction hfields with
    | nil => rfl
    | @cons f g fs gs hfg _ ih =>
      rw [List.filter_cons, List.filter_cons, hfg.isFullText_eq]
      split
      · rw [List.map_cons, List.map_cons, hfg.column, ih]
      · exact ih
  exact hcolumns h.fields

/-- The queries for every document of renamed indexes are twins. -/
theorem Renamed.twin_query (h : i.Renamed j) {q₀ r₀ : Query} (hq₀ : i.query = .ok q₀)
    (hr₀ : j.query = .ok r₀) : q₀.Twin True r₀ := by
  obtain ⟨o, ho, hq⟩ := bind_eq_ok.mp hq₀
  obtain ⟨p, hp, hr⟩ := bind_eq_ok.mp hr₀
  rw [h.settings, hp] at ho
  cases ho
  cases hq
  cases hr
  rw [h.settings, h.index, h.resultColumns_eq]
  exact ⟨h.settings, rfl, rfl, rfl, rfl, True, True, by simp, .nil, .nil⟩

/-- A call and the one with the names replaced fail alike. -/
theorem alike_effect (hi : i.Valid) (hj : j.Valid) (h : i.Renamed j) {q₀ r₀ : Query}
    (hq₀ : q₀.index = i) (hr₀ : r₀.index = j) {c d : Call} (hcd : c.Renamed i j d) :
    (q₀.failure? c).isNone = (r₀.failure? d).isNone ∧
      Along Update.Twin (q₀.failure? c = none → i.SameNames j (i.marked c)) (i.effect c)
        (j.effect d) := by
  unfold Query.failure? effect
  rw [Query.apply_eq, Query.apply_eq, hq₀, hr₀]
  rcases (alike_updates hi hj h hcd).elim with ⟨e, e', hc, hd⟩ | ⟨us, vs, hc, hd, huv⟩
  · rw [hc, hd]
    exact ⟨rfl, Along.nil.of_iff (iff_of_true trivial fun hnone => by cases hnone)⟩
  · rw [hc, hd]
    exact ⟨rfl, huv.of_iff ⟨fun hsame _ => hsame, fun hsame => hsame rfl⟩⟩

/-- Runs on renamed indexes fail at the same calls and compile to statements with the same
parameters and with texts that differ in single words at most.  The texts are the same if and only
if each full-text field of an inequality in a call that succeeds has the same name in both. -/
theorem run_renamed (hi : i.Valid) (hj : j.Valid) (h : i.Renamed j) :
    ∃ q₀ r₀, i.query = .ok q₀ ∧ j.query = .ok r₀ ∧
      ∀ cs ds, List.Forall₂ (Call.Renamed i j) cs ds →
        (q₀.report cs).map (fun p => p.2.isNone) = (r₀.report ds).map (fun p => p.2.isNone) ∧
        ∃ s t, (q₀.run cs).compile = .ok s ∧ (r₀.run ds).compile = .ok t ∧
          s.params = t.params ∧ Parallel s.sql.toList t.sql.toList ∧
          (s.sql = t.sql ↔
            ∀ c ∈ cs, q₀.failure? c = none → i.SameNames j (i.marked c)) := by
  obtain ⟨o, -, hq₀⟩ := query_eq_ok hi
  obtain ⟨p, -, hr₀⟩ := query_eq_ok hj
  refine ⟨_, _, hq₀, hr₀, fun cs ds hcs => ?_⟩
  have hqi := index_of_query hq₀
  have hrj := index_of_query hr₀
  have htwin := (h.twin_query hq₀ hr₀).updateAll
    (Along.flatMap hcs fun hcd => (alike_effect hi hj h hqi hrj hcd).2)
  have hs := (reaches_run hi hq₀ cs).compile_eq hi
  have ht := (reaches_run hj hr₀ ds).compile_eq hj
  rw [Query.run_eq, hqi] at hs
  rw [Query.run_eq, hrj] at ht
  constructor
  · rw [Query.report_eq_map, Query.report_eq_map, List.map_map, List.map_map,
      ← List.forall₂_eq_eq_eq, List.forall₂_map_left_iff, List.forall₂_map_right_iff]
    exact hcs.imp fun _ _ hcd => (alike_effect hi hj h hqi hrj hcd).1
  · rw [Query.run_eq, Query.run_eq, hqi, hrj]
    refine ⟨_, _, hs, ht, htwin.joined.params, htwin.parallel_text htwin.joined, ?_⟩
    exact (htwin.text_eq_iff htwin.joined).trans (iff_of_eq (true_and _))

/-- Products whose title and price are stored in columns of fixed names. -/
def storedProducts (title price : String) : Index :=
  ⟨⟨"products", [Schema.standardKey, (Field.fullText title).withColumn "title_txt",
      (Field.scalar price .integer).withColumn "price_attr"], Schema.standardKey⟩, .standard⟩

theorem storedProducts_valid : (storedProducts "title" "price").Valid ∧
    (storedProducts "headline" "cost").Valid :=
  ⟨⟨⟨"products", (storedProducts "title" "price").schema.fields.tail, rfl⟩, rfl⟩,
    ⟨⟨"products", (storedProducts "headline" "cost").schema.fields.tail, rfl⟩, rfl⟩⟩

theorem storedProducts_renamed :
    (storedProducts "title" "price").Renamed (storedProducts "headline" "cost") := by
  refine ⟨rfl, rfl, .cons ⟨rfl, rfl, rfl⟩ (.cons ⟨rfl, rfl, rfl⟩ (.cons ⟨rfl, rfl, rfl⟩ .nil)),
    fun f hf => ?_⟩
  have hnames : ∀ f ∈ (storedProducts "title" "price").schema.fields ++
      (storedProducts "headline" "cost").schema.fields,
      f.name ≠ Settings.standard.keyAlias ∧ f.name.toList.getLast? ≠ some '_' := by decide
  exact hnames f (List.mem_append.mpr hf)

/-- Calls on an index of products, with search terms for the title but no inequality on it. -/
def storedCalls (title price : String) : List Call :=
  [.filter [(price ++ LookupKey.separator ++ "gte", .scalar (.int 3))],
    .notEqual [(price, .scalar (.int 5))], .matchField title ["lean"], .orderBy [price]]

theorem stored_products_same : ∃ q₀ r₀ s t,
    (storedProducts "title" "price").query = .ok q₀ ∧
    (storedProducts "headline" "cost").query = .ok r₀ ∧
    (q₀.run (storedCalls "title" "price")).compile = .ok s ∧
    (r₀.run (storedCalls "headline" "cost")).compile = .ok t ∧ s.sql = t.sql := by
  obtain ⟨hi, hj⟩ := storedProducts_valid
  obtain ⟨q₀, r₀, hq₀, hr₀, hruns⟩ := run_renamed hi hj storedProducts_renamed
  have htitle : ((Field.fullText "title").withColumn "title_txt",
      (Field.fullText "headline").withColumn "title_txt") ∈
      pairs (storedProducts "title" "price") (storedProducts "headline" "cost") := by decide
  have hprice : ((Field.scalar "price" .integer).withColumn "price_attr",
      (Field.scalar "cost" .integer).withColumn "price_attr") ∈
      pairs (storedProducts "title" "price") (storedProducts "headline" "cost") := by decide
  have hcalls : List.Forall₂ (Call.Renamed (storedProducts "title" "price")
      (storedProducts "headline" "cost")) (storedCalls "title" "price")
      (storedCalls "headline" "cost") :=
    .cons (.filter (.cons ⟨.lookup hprice "gte", rfl⟩ .nil))
      (.cons (.notEqual (.cons ⟨.name hprice, rfl⟩ .nil))
        (.cons (.matchField (.field htitle) _)
          (.cons (.orderBy (.cons ⟨.field hprice, rfl⟩ .nil)) .nil)))
  have hmarked : ∀ c ∈ storedCalls "title" "price",
      (storedProducts "title" "price").marked c = [] := by decide
  obtain ⟨-, s, t, hs, ht, -, -, hsame⟩ := hruns _ _ hcalls
  refine ⟨q₀, r₀, s, t, hq₀, hr₀, hs, ht, hsame.mpr fun c hc _ => ?_⟩
  rw [hmarked c hc]
  exact sameNames_nil

/-- An inequality on the title shows its name, though both titles are stored in the same column. -/
theorem stored_products_differ : (storedProducts "title" "price").Valid ∧
    (storedProducts "headline" "cost").Valid ∧
    (storedProducts "title" "price").Renamed (storedProducts "headline" "cost") ∧
    Call.Renamed (storedProducts "title" "price") (storedProducts "headline" "cost")
      (.notEqual [("title", .scalar (.text "x"))]) (.notEqual [("headline", .scalar (.text "x"))]) ∧
    ∃ q₀ r₀, (storedProducts "title" "price").query = .ok q₀ ∧
      (storedProducts "headline" "cost").query = .ok r₀ ∧
      (q₀.run [.notEqual [("title", .scalar (.text "x"))]]).compile =
        .ok ⟨"SELECT id, price_attr FROM products WHERE @title <> ?", [.string "x"]⟩ ∧
      (r₀.run [.notEqual [("headline", .scalar (.text "x"))]]).compile =
        .ok ⟨"SELECT id, price_attr FROM products WHERE @headline <> ?", [.string "x"]⟩ := by
  have htitle : ((Field.fullText "title").withColumn "title_txt",
      (Field.fullText "headline").withColumn "title_txt") ∈
      pairs (storedProducts "title" "price") (storedProducts "headline" "cost") := by decide
  exact ⟨storedProducts_valid.1, storedProducts_valid.2, storedProducts_renamed,
    .notEqual (.cons ⟨.name htitle, rfl⟩ .nil), _, _, rfl, rfl, rfl, rfl⟩

end Index

end IndexQuery
