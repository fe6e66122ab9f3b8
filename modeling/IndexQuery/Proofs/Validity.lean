import IndexQuery.Index
import IndexQuery.Proofs.Outcome

/-!
# Valid indexes

What the checks of a schema and of settings leave standing, said once for every later result.

    Schema.build name fields = .ok s → s.Sound                                 (sound_of_build)
    s.Sound → f ∈ s.fields → s.field? f.name = some f                              (field?_name)
    r.schema.Sound → r.resolveField name = .ok f → f ∈ r.schema.fields    (mem_of_resolveField)
-/

namespace IndexQuery

open Text Outcome

/-- The fields of a schema can be named in keys and in statements, and are told apart by their
names. -/
structure Schema.Sound (s : Schema) : Prop where
  index : isIdentifier s.index = true
  name : ∀ f ∈ s.fields, isIdentifier f.name = true
  separator : ∀ f ∈ s.fields, LookupKey.hasSeparator f.name = false
  column : ∀ f ∈ s.fields, isIdentifier f.storageColumn = true
  distinct : (s.fields.map Field.name).Nodup
  key : s.primaryKey ∈ s.fields
  isKey : s.primaryKey.isPrimaryKey = true

/-- An index with a schema that was built and settings that were accepted. -/
structure Index.Valid (i : Index) : Prop where
  built : ∃ name fields, Schema.build name fields = .ok i.schema
  accepted : Index.new i.schema i.settings = .ok i

namespace Schema

/-! ## Schemas -/

/-- Fields are accepted if each can be named and no name comes twice or was seen before. -/
theorem checkFields_eq_ok_iff {seen : List String} {fs : List Field} :
    checkFields seen fs = .ok () ↔
      (∀ f ∈ fs, isIdentifier f.name = true ∧ LookupKey.hasSeparator f.name = false ∧
        isIdentifier f.storageColumn = true ∧ f.name ∉ seen) ∧ (fs.map Field.name).Nodup := by
  induction fs generalizing seen with
  | nil => simp [checkFields]
  | cons f fs ih =>
    rw [List.forall_mem_cons, List.map_cons, List.nodup_cons]
    unfold checkFields
    split
    · next hname =>
      refine ⟨nofun, fun h => ?_⟩
      rw [h.1.1.1, h.1.1.2.1] at hname
      cases hname
    · next hname =>
      simp only [Bool.or_eq_true, Bool.not_eq_true', not_or, Bool.not_eq_false,
        Bool.not_eq_true] at hname
      split
      · next hcolumn =>
        refine ⟨nofun, fun h => ?_⟩
        rw [h.1.1.2.2.1] at hcolumn
        cases hcolumn
      · next hcolumn =>
        simp only [Bool.not_eq_true', Bool.not_eq_false] at hcolumn
        split
        · next hseen => exact ⟨nofun, fun h => absurd hseen h.1.1.2.2.2⟩
        · next hseen =>
          rw [ih]
          constructor
          · rintro ⟨hrest, hdistinct⟩
            refine ⟨⟨⟨hname.1, hname.2, hcolumn, hseen⟩, fun g hg => ?_⟩, fun hm => ?_, hdistinct⟩
            · obtain ⟨h1, h2, h3, h4⟩ := hrest g hg
              exact ⟨h1, h2, h3, fun hm => h4 (List.mem_cons_of_mem _ hm)⟩
            · obtain ⟨g, hg, hgf⟩ := List.mem_map.mp hm
              exact (hrest g hg).2.2.2 (hgf ▸ List.mem_cons_self)
          · rintro ⟨⟨-, hrest⟩, hnew, hdistinct⟩
            refine ⟨fun g hg => ?_, hdistinct⟩
            obtain ⟨h1, h2, h3, h4⟩ := hrest g hg
            refine ⟨h1, h2, h3, fun hm => ?_⟩
            rcases List.mem_cons.mp hm with heq | hm
            · exact hnew (heq ▸ List.mem_map_of_mem hg)
            · exact h4 hm

/-- With the standard document id in front where none is declared, there is one. -/
theorem exists_key_completed (fields : List Field) :
    ∃ f ∈ completed fields, f.isPrimaryKey = true := by
  unfold completed
  split
  · next h => exact List.any_eq_true.mp h
  · exact ⟨standardKey, List.mem_cons_self, rfl⟩

theorem sound_of_build {index : String} {fields : List Field} {s : Schema}
    (h : build index fields = .ok s) : s.Sound := by
  unfold build at h
  split at h
  · cases h
  · next hindex =>
    dsimp only at h
    split at h
    · cases h
    · obtain ⟨⟨⟩, hcheck, hs⟩ := bind_eq_ok.mp h
      cases hs
      obtain ⟨hfields, hdistinct⟩ := checkFields_eq_ok_iff.mp hcheck
      obtain ⟨k, hk, hkey⟩ := exists_key_completed fields
      obtain ⟨p, hp⟩ := Option.isSome_iff_exists.mp
        (List.find?_isSome.mpr ⟨k, hk, hkey⟩)
      constructor
      · simpa using hindex
      · exact fun f hf => (hfields f hf).1
      · exact fun f hf => (hfields f hf).2.1
      · exact fun f hf => (hfields f hf).2.2.1
      · exact hdistinct
      · rw [hp]
        exact List.mem_of_find?_eq_some hp
      · rw [hp]
        exact List.find?_some hp

theorem find?_of_nodup {fs : List Field} (hd : (fs.map Field.name).Nodup) {f : Field}
    (hf : f ∈ fs) : fs.find? (fun g => g.name == f.name) = some f := by
  induction fs with
  | nil => cases hf
  | cons g fs ih =>
    rw [List.map_cons, List.nodup_cons] at hd
    rcases List.mem_cons.mp hf with rfl | hf
    · simp
    · have hne : g.name ≠ f.name := fun h => hd.1 (h ▸ List.mem_map_of_mem hf)
      rw [List.find?_cons_of_neg (by simpa using hne), ih hd.2 hf]

theorem field?_name {s : Schema} (hs : s.Sound) {f : Field} (hf : f ∈ s.fields) :
    s.field? f.name = some f := find?_of_nodup hs.distinct hf

theorem mem_of_field? {s : Schema} {name : String} {f : Field} (h : s.field? name = some f) :
    f ∈ s.fields := List.mem_of_find?_eq_some h

theorem name_of_field? {s : Schema} {name : String} {f : Field} (h : s.field? name = some f) :
    f.name = name := by simpa using List.find?_some h

end Schema

namespace Index

/-! ## Indexes -/

theorem valid_of_new {name : String} {fields : List Field} {schema : Schema}
    {settings : Settings} {i : Index} (hs : Schema.build name fields = .ok schema)
    (hi : Index.new schema settings = .ok i) : i.Valid := by
  obtain ⟨⟨⟩, -, h⟩ := bind_eq_ok.mp hi
  cases h
  exact ⟨⟨name, fields, hs⟩, hi⟩

theorem Valid.sound {i : Index} (hi : i.Valid) : i.schema.Sound := by
  obtain ⟨name, fields, h⟩ := hi.built
  exact Schema.sound_of_build h

theorem Valid.validate {i : Index} (hi : i.Valid) : i.settings.validate = .ok () := by
  obtain ⟨⟨⟩, h, -⟩ := bind_eq_ok.mp hi.accepted
  exact h

/-- An index of products: a full-text title, a price in a column of another name, and tags. -/
def products : Index :=
  ⟨⟨"products", [Schema.standardKey, .fullText "title",
      (Field.scalar "price" .integer).withColumn "price_attr", .multi32 "tags"],
    Schema.standardKey⟩,
    { Settings.standard with defaultOptions := [("comment", .string "what's this?")] }⟩

theorem products_valid : products.Valid :=
  ⟨⟨"products", products.schema.fields.tail, rfl⟩, rfl⟩

end Index

/-- The checks of settings, one by one. -/
theorem Settings.validate_eq_ok {s : Settings} (h : s.validate = .ok ()) :
    isMarker s.marker = true ∧ isIdentifier s.keyAlias = true ∧ s.maxLimit ≠ 0 ∧
      s.checkDefaultLimit = .ok () ∧ ∃ o, s.optionSet = .ok o := by
  unfold validate at h
  dsimp only at h
  split at h
  · cases h
  · next hmarker =>
    split at h
    · cases h
    · next halias =>
      split at h
      · cases h
      · next hmax =>
        obtain ⟨⟨⟩, hdefault, h⟩ := bind_eq_ok.mp h
        obtain ⟨o, hoptions, -⟩ := bind_eq_ok.mp h
        exact ⟨by simpa using hmarker, by simpa using halias, hmax, hdefault, o, hoptions⟩

namespace Resolver

/-! ## Resolved fields -/

theorem mem_of_resolveField {r : Resolver} (hs : r.schema.Sound) {name : String} {f : Field}
    (h : r.resolveField name = .ok f) : f ∈ r.schema.fields := by
  unfold resolveField at h
  split at h
  · cases h
    exact hs.key
  · split at h
    · next hf =>
      cases h
      exact Schema.mem_of_field? hf
    · cases h

theorem mem_of_resolve {r : Resolver} (hs : r.schema.Sound) {key : String} {f : Field}
    {op : Operator} (h : r.resolve key = .ok (f, op)) : f ∈ r.schema.fields := by
  obtain ⟨k, -, h⟩ := bind_eq_ok.mp h
  obtain ⟨g, hg, h⟩ := bind_eq_ok.mp h
  obtain ⟨o, -, h⟩ := bind_eq_ok.mp h
  cases h
  exact mem_of_resolveField hs hg

theorem mem_of_resolveNegated {r : Resolver} (hs : r.schema.Sound) {key : String} {f : Field}
    {op : Operator} (h : r.resolveNegated key = .ok (f, op)) : f ∈ r.schema.fields := by
  obtain ⟨k, -, h⟩ := bind_eq_ok.mp h
  obtain ⟨o, -, h⟩ := bind_eq_ok.mp h
  obtain ⟨g, hg, h⟩ := bind_eq_ok.mp h
  cases h
  exact mem_of_resolveField hs hg

theorem mem_of_resolvePlain {r : Resolver} (hs : r.schema.Sound) {key : String} {f : Field}
    (h : r.resolvePlain key = .ok f) : f ∈ r.schema.fields := by
  obtain ⟨k, -, h⟩ := bind_eq_ok.mp h
  dsimp only at h
  split at h
  · cases h
  · exact mem_of_resolveField hs h

end Resolver

end IndexQuery
