import IndexQuery.Proofs.Scan.Statement

/-!
# Building schemas

A schema is built exactly of fields that can be named in keys and in statements, whose names are
distinct and of which at most one is the document id; the standard document id counts among them
where none is declared.  The schema holds these fields in order, finds each by its name, and has one
document id.  Since that is no full-text field, a query always names the columns that it asks for.

    (∃ s, build index fields = .ok s) ↔ Buildable index fields                (exists_build_iff)
    s.field? name = some f ↔ f ∈ s.fields ∧ f.name = name                 (field?_eq_some_iff)
    every statement of an index with the schema begins with
      SELECT, the result columns and FROM, and not with SELECT *          (build_describes)
-/

namespace IndexQuery

open Text Outcome

namespace Schema

/-! ## Algorithm -/

/-- An index name and fields that a schema can be built of. -/
structure Buildable (index : String) (fields : List Field) : Prop where
  index : isIdentifier index = true
  /-- At most one document id is declared. -/
  keys : fields.countP Field.isPrimaryKey ≤ 1
  name : ∀ f ∈ completed fields, isIdentifier f.name = true ∧
    LookupKey.hasSeparator f.name = false
  column : ∀ f ∈ completed fields, isIdentifier f.storageColumn = true
  distinct : ((completed fields).map Field.name).Nodup

variable {index : String} {fields : List Field} {s : Schema}

/-! ## Fields -/

theorem completed_of_key (h : 0 < fields.countP Field.isPrimaryKey) : completed fields = fields :=
  if_pos (List.any_eq_true.mpr (List.countP_pos_iff.mp h))

theorem completed_of_no_key (h : fields.countP Field.isPrimaryKey = 0) :
    completed fields = standardKey :: fields := by
  refine if_neg fun hany => ?_
  have hpos := List.countP_pos_iff.mpr (List.any_eq_true.mp hany)
  omega

/-- Of fields of which at most one is declared the document id, one is it after all. -/
theorem countP_completed (h : fields.countP Field.isPrimaryKey ≤ 1) :
    (completed fields).countP Field.isPrimaryKey = 1 := by
  by_cases hkey : fields.countP Field.isPrimaryKey = 0
  · rw [completed_of_no_key hkey, List.countP_cons_of_pos (by rfl), hkey]
  · rw [completed_of_key (by omega)]
    omega

/-- A schema is built exactly of what it can be built of, and of nothing else. -/
theorem build_eq_ok_iff : build index fields = .ok s ↔ Buildable index fields ∧
    s = ⟨index, completed fields,
      ((completed fields).find? Field.isPrimaryKey).getD standardKey⟩ := by
  unfold build
  split
  · next hindex =>
    refine ⟨nofun, fun h => ?_⟩
    rw [h.1.index] at hindex
    cases hindex
  · next hindex =>
    dsimp only
    split
    · next hkeys => exact ⟨nofun, fun h => absurd h.1.keys (by omega)⟩
    · next hkeys =>
      rw [bind_eq_ok]
      constructor
      · rintro ⟨⟨⟩, hcheck, hs⟩
        obtain ⟨hfields, hdistinct⟩ := checkFields_eq_ok_iff.mp hcheck
        refine ⟨⟨by simpa using hindex, by omega, fun f hf => ?_, fun f hf => ?_, hdistinct⟩, ?_⟩
        · exact ⟨(hfields f hf).1, (hfields f hf).2.1⟩
        · exact (hfields f hf).2.2.1
        · cases hs
          rfl
      · rintro ⟨h, rfl⟩
        refine ⟨(), checkFields_eq_ok_iff.mpr ⟨fun f hf => ?_, h.distinct⟩, rfl⟩
        exact ⟨(h.name f hf).1, (h.name f hf).2, h.column f hf, List.not_mem_nil⟩

theorem exists_build_iff : (∃ s, build index fields = .ok s) ↔ Buildable index fields :=
  ⟨fun ⟨_, h⟩ => (build_eq_ok_iff.mp h).1, fun h => ⟨_, build_eq_ok_iff.mpr ⟨h, rfl⟩⟩⟩

/-! ## Built schemas -/

/-- Where one field is the document id, no two are. -/
theorem eq_of_countP_eq_one {fs : List Field} (h : fs.countP Field.isPrimaryKey = 1)
    {f g : Field} (hf : f ∈ fs) (hg : g ∈ fs) (hfk : f.isPrimaryKey = true)
    (hgk : g.isPrimaryKey = true) : f = g := by
  rw [List.countP_eq_length_filter] at h
  obtain ⟨k, hk⟩ := List.length_eq_one_iff.mp h
  have hmem : ∀ {x}, x ∈ fs → x.isPrimaryKey = true → x = k := by
    intro x hx hxk
    have hx := List.mem_filter.mpr ⟨hx, hxk⟩
    rw [hk] at hx
    exact List.mem_singleton.mp hx
  rw [hmem hf hfk, hmem hg hgk]

/-- A name gives the one field with that name. -/
theorem field?_eq_some_iff (hs : s.Sound) {name : String} {f : Field} :
    s.field? name = some f ↔ f ∈ s.fields ∧ f.name = name := by
  constructor
  · intro h
    exact ⟨mem_of_field? h, name_of_field? h⟩
  · rintro ⟨hf, rfl⟩
    exact field?_name hs hf

/-- The document id is always among the columns of a result. -/
theorem key_mem_resultColumns (hs : s.Sound) :
    s.primaryKey.storageColumn ∈ s.resultColumns := by
  have hkind := hs.isKey
  refine List.mem_map.mpr ⟨s.primaryKey, List.mem_filter.mpr ⟨hs.key, ?_⟩, rfl⟩
  unfold Field.isPrimaryKey at hkind
  unfold Field.isFullText
  rw [beq_iff_eq.mp hkind]
  rfl

theorem isIdentifier_of_mem_resultColumns (hs : s.Sound) {column : String}
    (h : column ∈ s.resultColumns) : isIdentifier column = true := by
  obtain ⟨f, hf, rfl⟩ := List.mem_map.mp h
  exact hs.column f (List.mem_filter.mp hf).1

end Schema

namespace Select

theorem selectClause_of_ne_nil {b : Select} (h : b.columns ≠ []) :
    b.selectClause = "SELECT " ++ ", ".intercalate b.columns ++ " FROM " ++ b.index := by
  unfold selectClause
  rw [if_neg (by simpa using h)]

theorem exists_toList_intercalate (separator s : String) (ss : List String) :
    ∃ r, (separator.intercalate (s :: ss)).toList = s.toList ++ r := by
  cases ss with
  | nil => exact ⟨[], by rw [String.intercalate_singleton, List.append_nil]⟩
  | cons t ss =>
    refine ⟨separator.toList ++ (separator.intercalate (t :: ss)).toList, ?_⟩
    rw [String.intercalate_cons_cons, String.toList_append, String.toList_append,
      List.append_assoc]

/-- A text that begins with the name of a column does not ask for all columns. -/
theorem not_star_prefix {columns : List String} (hne : columns ≠ [])
    (h : ∀ c ∈ columns, isIdentifier c = true) (rest : String) :
    ¬ "SELECT *".toList <+: ("SELECT " ++ ", ".intercalate columns ++ rest).toList := by
  obtain ⟨c, cs, rfl⟩ := List.exists_cons_of_ne_nil hne
  obtain ⟨d, ds, hc, hhead, -⟩ := isIdentifier_eq_true_iff.mp (h c List.mem_cons_self)
  obtain ⟨r, hr⟩ := exists_toList_intercalate ", " c cs
  have hstar : "SELECT *".toList = "SELECT ".toList ++ ['*'] := by decide
  rw [String.append_assoc, String.toList_append, String.toList_append, hr, hc, hstar,
    List.prefix_append_right_inj]
  rintro ⟨t, ht⟩
  obtain rfl : '*' = d := (List.cons.inj ht).1
  cases hhead

end Select

/-- A statement begins with the clause for its columns. -/
theorem Statement.exists_text_eq (b : Select) (c : Clauses) (condition : Fragment) :
    ∃ rest, text b c condition = b.selectClause ++ rest := by
  refine ⟨(if condition.isEmpty then "" else " WHERE " ++ condition.sql) ++
    trailing b.tailClause? ++ trailing c.options.clause?, ?_⟩
  unfold text
  simp only [String.append_assoc]

namespace Index

variable {i : Index}

/-- The query of an index asks for the result columns, and so does every statement that calls on it
lead to. -/
theorem selects_of_query (hi : i.Valid) : ∃ q₀, i.query = .ok q₀ ∧
    q₀.base.columns = i.schema.resultColumns ∧
    ∀ cs q, q₀.applyAll cs = .ok q → ∃ st rest, q.compile = .ok st ∧
      st.sql = "SELECT " ++ ", ".intercalate i.schema.resultColumns ++
        (" FROM " ++ i.schema.index ++ rest) := by
  obtain ⟨o, -, hquery⟩ := query_eq_ok hi
  refine ⟨_, hquery, rfl, fun cs q hq => ?_⟩
  obtain ⟨us, -, h⟩ := reaches_of_applyAll hi hquery hq
  have hne : i.schema.resultColumns ≠ [] :=
    List.ne_nil_of_mem (Schema.key_mem_resultColumns hi.sound)
  have hselect := Select.selectClause_of_ne_nil (h.columns ▸ hne)
  rw [h.columns, h.index] at hselect
  obtain ⟨rest, hrest⟩ :=
    Statement.exists_text_eq q.base q.clauses (Statement.joined q.base q.clauses)
  refine ⟨_, rest, h.compile_eq hi, ?_⟩
  show Statement.text q.base q.clauses (Statement.joined q.base q.clauses) = _
  rw [hrest, hselect]
  simp only [String.append_assoc]

end Index

namespace Schema

/-- A schema is built exactly of what it can be built of, and then holds these fields in order, the
standard document id in front if none is declared.  It has one document id, finds each field by its
name and nothing by any other name; and with any settings that are accepted, queries ask for the
columns of the fields that are not full text, of which there is at least one. -/
theorem build_describes (index : String) (fields : List Field) :
    ((∃ s, build index fields = .ok s) ↔ Buildable index fields) ∧
    ∀ s, build index fields = .ok s →
      s.index = index ∧
      s.fields = (if fields.countP Field.isPrimaryKey = 0 then
        ⟨"id", none, .primaryKey, .bigInt⟩ :: fields else fields) ∧
      (s.primaryKey ∈ s.fields ∧ s.primaryKey.kind = .primaryKey ∧
        ∀ f ∈ s.fields, f.kind = .primaryKey → f = s.primaryKey) ∧
      s.fields.countP Field.isPrimaryKey = 1 ∧
      (∀ name f, s.field? name = some f ↔ f ∈ s.fields ∧ f.name = name) ∧
      ∀ settings i, Index.new s settings = .ok i →
        ∃ q₀, i.query = .ok q₀ ∧
          q₀.base.columns = (s.fields.filter fun f => f.kind ≠ .fullText).map Field.storageColumn ∧
          q₀.base.columns ≠ [] ∧
          ∀ cs q, q₀.applyAll cs = .ok q → ∃ st rest, q.compile = .ok st ∧
            st.sql = "SELECT " ++ ", ".intercalate q₀.base.columns ++
              (" FROM " ++ index ++ rest) ∧
            ¬ "SELECT *".toList <+: st.sql.toList := by
  refine ⟨exists_build_iff, fun s hbuild => ?_⟩
  obtain ⟨hbuildable, hs⟩ := build_eq_ok_iff.mp hbuild
  have hsound := sound_of_build hbuild
  have hcount : s.fields.countP Field.isPrimaryKey = 1 := hs ▸ countP_completed hbuildable.keys
  refine ⟨by rw [hs], ?_, ⟨hsound.key, ?_, fun f hf hkind => ?_⟩, hcount,
    fun name f => field?_eq_some_iff hsound, fun settings i hi => ?_⟩
  · split
    · next hnone =>
      rw [hs]
      exact completed_of_no_key hnone
    · next hsome => rw [hs, completed_of_key (Nat.pos_of_ne_zero hsome)]
  · exact beq_iff_eq.mp hsound.isKey
  · exact eq_of_countP_eq_one hcount hf hsound.key (beq_iff_eq.mpr hkind) hsound.isKey
  · have hschema : i.schema = s := by
      obtain ⟨⟨⟩, -, h⟩ := bind_eq_ok.mp hi
      cases h
      rfl
    have hindex : s.index = index := by rw [hs]
    obtain ⟨q₀, hq₀, hcolumns, hselects⟩ := Index.selects_of_query (Index.valid_of_new hbuild hi)
    rw [hschema] at hcolumns hselects
    have hne : s.resultColumns ≠ [] := List.ne_nil_of_mem (key_mem_resultColumns hsound)
    refine ⟨q₀, hq₀, ?_, hcolumns ▸ hne, fun cs q hq => ?_⟩
    · rw [hcolumns]
      unfold resultColumns Field.isFullText
      congr 2
      funext f
      cases f.kind <;> rfl
    · obtain ⟨st, rest, hst, hsql⟩ := hselects cs q hq
      rw [hcolumns, ← hindex]
      refine ⟨st, rest, hst, hsql, ?_⟩
      rw [hsql]
      exact Select.not_star_prefix hne (fun c => isIdentifier_of_mem_resultColumns hsound) _

/-- Three declared fields with the standard document id in front, and a statement on them. -/
theorem products_built : ∃ s i q₀ st rest,
    build "products" Index.products.schema.fields.tail = .ok s ∧
    Buildable "products" Index.products.schema.fields.tail ∧
    s.fields.map Field.name = ["id", "title", "price", "tags"] ∧ s.primaryKey.name = "id" ∧
    (s.field? "price").map Field.storageColumn = some "price_attr" ∧ s.field? "price_attr" = none ∧
    Index.new s Index.products.settings = .ok i ∧ i.query = .ok q₀ ∧
    q₀.base.columns = ["id", "price_attr", "tags"] ∧ q₀.compile = .ok st ∧
    st.sql = "SELECT " ++ ", ".intercalate ["id", "price_attr", "tags"] ++
      (" FROM " ++ "products" ++ rest) ∧ ¬ "SELECT *".toList <+: st.sql.toList := by
  obtain ⟨hiff, hall⟩ := build_describes "products" Index.products.schema.fields.tail
  have hbuild : build "products" Index.products.schema.fields.tail =
      .ok Index.products.schema := rfl
  obtain ⟨-, -, -, -, -, hsettings⟩ := hall _ hbuild
  obtain ⟨q₀, hq₀, hcolumns, -, hselects⟩ := hsettings Index.products.settings Index.products rfl
  obtain ⟨st, rest, hst, hsql, hstar⟩ := hselects [] q₀ rfl
  have hnames : q₀.base.columns = ["id", "price_attr", "tags"] := hcolumns.trans (by decide)
  rw [hnames] at hsql
  exact ⟨_, _, q₀, st, rest, hbuild, hiff.mp ⟨_, hbuild⟩, by decide, rfl, by decide, by decide, rfl,
    hq₀, hnames, hst, hsql, hstar⟩

-- A field called as the standard document id cannot be declared without a document id.
example : ¬ Buildable "notes" [.scalar "id" .integer] := fun h => absurd h.distinct (by decide)

end Schema

end IndexQuery
