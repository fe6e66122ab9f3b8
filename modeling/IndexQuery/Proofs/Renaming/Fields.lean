import IndexQuery.Proofs.Addressing
import IndexQuery.Proofs.Renaming.Text
import IndexQuery.Proofs.Update
import Mathlib.Data.List.Nodup

/-!
# Fields under other names

Two indexes are renamed if their fields differ in nothing but their names.  A key for a field of
the one, with the name replaced, is resolved to the field at the same place of the other, and a
predicate on that field takes the same form.  The name itself is written in one place only: behind
the marker of an inequality on a full-text field.

    i.Keys j k l → Alike … (i.resolver.resolve k) (j.resolver.resolve l)         (alike_resolve)
    f.SameColumn g → Alike (Twin (f.AsksFor g op)) (form m ⟨f, op, x⟩) (form m ⟨g, op, x⟩)
                                                                                    (alike_form)
-/

namespace IndexQuery

open Text Outcome LookupKey

/-- Fields that differ in nothing but their names. -/
structure Field.SameColumn (f g : Field) : Prop where
  kind : f.kind = g.kind
  type : f.type = g.type
  column : f.storageColumn = g.storageColumn

namespace Index

/-! ## Algorithm -/

/-- The fields that stand at the same place of two indexes. -/
def pairs (i j : Index) : List (Field × Field) := i.schema.fields.zip j.schema.fields

/-- Indexes that differ in nothing but the names of their fields, none of which is the alias or ends
in an underscore. -/
structure Renamed (i j : Index) : Prop where
  settings : i.settings = j.settings
  index : i.schema.index = j.schema.index
  fields : List.Forall₂ Field.SameColumn i.schema.fields j.schema.fields
  names : ∀ f, f ∈ i.schema.fields ∨ f ∈ j.schema.fields →
    f.name ≠ i.settings.keyAlias ∧ f.name.toList.getLast? ≠ some '_'

/-- A field name of one index and the one in its place, or a name that neither index declares. -/
inductive Names (i j : Index) : String → String → Prop where
  | field {f g : Field} (h : (f, g) ∈ pairs i j) : Names i j f.name g.name
  | other {name : String} (h : ∀ p ∈ pairs i j, name ≠ p.1.name ∧ name ≠ p.2.name) :
    Names i j name name

/-- A key with the name of its field replaced, or one that names no field of either index. -/
inductive Keys (i j : Index) : String → String → Prop where
  | name {f g : Field} (h : (f, g) ∈ pairs i j) : Keys i j f.name g.name
  | lookup {f g : Field} (h : (f, g) ∈ pairs i j) (suffix : String) :
    Keys i j (f.name ++ separator ++ suffix) (g.name ++ separator ++ suffix)
  | other {key : String} (h : ∀ p ∈ pairs i j,
      (pieces key.toList).head? ≠ some p.1.name.toList ∧
        (pieces key.toList).head? ≠ some p.2.name.toList) : Keys i j key key

/-- The names of some fields are the same in both indexes. -/
def SameNames (i j : Index) (fs : List Field) : Prop :=
  ∀ p ∈ pairs i j, p.1 ∈ fs → p.1.name = p.2.name

end Index

/-- What makes an inequality on either of two fields the same: the names, if the fields hold
full text. -/
def Field.AsksFor (f g : Field) (op : Operator) : Prop :=
  f.isFullText = true → op = .notEqual → f.name = g.name

/-- Forms of predicates on fields that differ in their names, the same exactly if `E` is true. -/
inductive PredicateForm.Twin : Prop → PredicateForm → PredicateForm → Prop where
  | fragment {E : Prop} {f g : Fragment} (h : f.Twin E g) : Twin E (.fragment f) (.fragment g)
  | search (scope : MatchScope) (terms : List String) :
    Twin True (.search scope terms) (.search scope terms)
  | comparison {f g : Field} (h : f.SameColumn g) (op : Operator) (x : Operand) :
    Twin True (.comparison ⟨f, op, x⟩) (.comparison ⟨g, op, x⟩)

/-! ## Values and predicates -/

namespace Field.SameColumn

variable {f g : Field}

theorem isFullText_eq (h : f.SameColumn g) : f.isFullText = g.isFullText := by
  unfold isFullText
  rw [h.kind]

theorem isMultiValue_eq (h : f.SameColumn g) : f.isMultiValue = g.isMultiValue := by
  unfold isMultiValue
  rw [h.kind]

theorem isPrimaryKey_eq (h : f.SameColumn g) : f.isPrimaryKey = g.isPrimaryKey := by
  unfold isPrimaryKey
  rw [h.kind]

theorem coerce_eq (h : f.SameColumn g) (v : Value) : v.coerce f = v.coerce g := by
  have hpresent : v.coercePresent f = v.coercePresent g := by
    unfold Value.coercePresent
    rw [h.kind, h.type]
  cases v <;> first | rfl | exact hpresent

theorem alike_bind (h : f.SameColumn g) (v : Value) : Alike Eq (f.bind v) (g.bind v) := by
  unfold Field.bind
  rw [h.coerce_eq]
  cases v.coerce g with
  | error m => exact .error _ _
  | ok p => exact .ok rfl

theorem alike_bindAll (h : f.SameColumn g) (vs : List Value) :
    Alike Eq (f.bindAll vs) (g.bindAll vs) :=
  alike_mapM_eq (List.forall₂_same.mpr fun _ _ => rfl) fun {v _} hvw => hvw ▸ h.alike_bind v

theorem alike_bindSingle (h : f.SameColumn g) (op : Operator) (x : Operand) :
    Alike Eq (f.bindSingle op x) (g.bindSingle op x) := by
  unfold bindSingle
  cases x.scalar? with
  | none => exact .error _ _
  | some v => exact h.alike_bind v

theorem alike_matchTerms (f g : Field) (x : Operand) :
    Alike Eq (Predicate.matchTerms f x) (Predicate.matchTerms g x) := by
  refine alike_mapM_eq (List.forall₂_same.mpr fun _ _ => rfl) fun {v w} hvw => ?_
  rw [hvw]
  cases w.matchText? with
  | none => exact .error _ _
  | some text => exact .ok rfl

theorem alike_setFragment (h : f.SameColumn g) (op : Operator) (x : Operand) :
    Alike Eq (Predicate.setFragment f op x) (Predicate.setFragment g op x) := by
  unfold Predicate.setFragment
  split
  · refine (h.alike_bindAll x.values).bind fun {ps qs} hpq => ?_
    subst hpq
    dsimp only
    split
    · exact .error _ _
    · rw [h.column]
      exact .ok rfl
  · rw [h.column]
    split
    · exact (h.alike_bindSingle op x).map fun hpq => by rw [hpq]
    · exact .error _ _

theorem alike_ofLookup (h : f.SameColumn g) (op : Operator) (x : Operand) :
    Alike Eq (Condition.ofLookup f op x) (Condition.ofLookup g op x) := by
  have hsingle := fun o => (h.alike_bindSingle op x).map (S := Eq)
    (f := fun p => Condition.compare f.storageColumn o [p])
    (g := fun p => Condition.compare g.storageColumn o [p]) fun hpq => by rw [hpq, h.column]
  unfold Condition.ofLookup
  cases op with
  | oneOf =>
    dsimp only
    split
    · exact .error _ _
    · exact (h.alike_bindAll x.values).map fun hpq => by rw [hpq, h.column]
  | search => exact .error _ _
  | notEqual => exact .error _ _
  | _ => exact hsingle _

end Field.SameColumn

theorem PredicateForm.Twin.of_iff {E F : Prop} {a b : PredicateForm} (h : Twin E a b)
    (hEF : E ↔ F) : Twin F a b := propext hEF ▸ h

/-- The column of an inequality has no blank. -/
theorem Predicate.not_blank_inequalityColumn {marker : String}
    (hm : Settings.isMarker marker = true) {f : Field} (hname : isIdentifier f.name = true)
    (hcolumn : isIdentifier f.storageColumn = true) :
    ' ' ∉ (inequalityColumn marker f).toList := by
  have hidentifier : ∀ {s : String}, isIdentifier s = true → ' ' ∉ s.toList := by
    intro s hs hblank
    exact absurd (isTail_of_mem hs hblank) (by decide)
  have hmarker : ' ' ∉ marker.toList := by
    simp only [Settings.isMarker, Bool.and_eq_true, Bool.not_eq_true', List.any_eq_false] at hm
    exact fun hblank => hm.2 ' ' hblank (by decide)
  unfold inequalityColumn
  split
  · rw [String.toList_append]
    exact fun hblank => (List.mem_append.mp hblank).elim hmarker (hidentifier hname)
  · exact hidentifier hcolumn

/-- Predicates on fields that differ in their names take forms that differ in an inequality on full
text only. -/
theorem Predicate.alike_form {marker : String} (hm : Settings.isMarker marker = true)
    {f g : Field} (h : f.SameColumn g) (hf : isIdentifier f.name = true)
    (hg : isIdentifier g.name = true) (hcolumn : isIdentifier f.storageColumn = true)
    (op : Operator) (x : Operand) :
    Alike (PredicateForm.Twin (f.AsksFor g op)) (form marker ⟨f, op, x⟩)
      (form marker ⟨g, op, x⟩) := by
  have hsame : ∀ {a b : PredicateForm}, PredicateForm.Twin True a b → f.AsksFor g op →
      PredicateForm.Twin (f.AsksFor g op) a b :=
    fun htwin hasks => htwin.of_iff (iff_of_true trivial hasks)
  have hfragment : ∀ {a b : Fragment}, a = b →
      PredicateForm.Twin True (.fragment a) (.fragment b) := by
    rintro a b rfl
    exact .fragment (.refl a)
  unfold form
  dsimp only
  rw [← h.isMultiValue_eq]
  split
  · next hop =>
    refine (Field.SameColumn.alike_matchTerms f g x).map fun {ts us} hts => ?_
    rw [hts, h.column]
    exact hsame (.search _ us) fun _ hne => by rw [hop] at hne; cases hne
  · split
    · next hmulti =>
      have hno : f.AsksFor g op := by
        intro htext
        unfold Field.isFullText at htext
        unfold Field.isMultiValue at hmulti
        rw [beq_iff_eq.mp htext] at hmulti
        cases hmulti
      exact (h.alike_setFragment op x).map fun heq => hsame (hfragment heq) hno
    · split
      · next hop =>
        have htwin : ∀ p : Param,
            (⟨inequalityColumn marker f ++ " <> ?", [p]⟩ : Fragment).Twin (f.AsksFor g op)
              ⟨inequalityColumn marker g ++ " <> ?", [p]⟩ := by
          intro p
          refine (Fragment.twin_inequality (not_blank_inequalityColumn hm hf hcolumn)
            (not_blank_inequalityColumn hm hg (h.column ▸ hcolumn)) [p]).of_iff ?_
          unfold inequalityColumn Field.AsksFor
          rw [← h.isFullText_eq, ← h.column]
          split
          · next htext => simp [htext, hop, String.append_right_inj]
          · next htext => simp [htext]
        unfold inequalityFragment
        rcases (h.alike_bindSingle .notEqual x).elim with ⟨e, d, hx, hy⟩ | ⟨p, q, hx, hy, hpq⟩
        · rw [hx, hy]
          exact .error e d
        · rw [hx, hy, hpq]
          exact .ok (.fragment (htwin q))
      · next hop => exact .ok (hsame (.comparison h op x) fun _ hne => absurd hne hop)

/-! ## Names and keys -/

namespace Index

variable {i j : Index}

theorem Renamed.sameColumn (h : i.Renamed j) {f g : Field} (hfg : (f, g) ∈ pairs i j) :
    f.SameColumn g := List.forall₂_zip h.fields hfg

/-- Fields stand at one place only. -/
theorem eq_of_mem_pairs (hi : i.Valid) {f g g' : Field} (hg : (f, g) ∈ pairs i j)
    (hg' : (f, g') ∈ pairs i j) : g = g' := by
  have hzip : ∀ {fs gs : List Field}, fs.Nodup → (f, g) ∈ fs.zip gs → (f, g') ∈ fs.zip gs →
      g = g' := by
    intro fs gs hnodup hg hg'
    induction fs generalizing gs with
    | nil => cases hg
    | cons k fs ih =>
      cases gs with
      | nil => cases hg
      | cons l gs =>
        obtain ⟨hk, hfs⟩ := List.nodup_cons.mp hnodup
        rw [List.zip_cons_cons] at hg hg'
        rcases List.mem_cons.mp hg with heq | hg
        · rcases List.mem_cons.mp hg' with heq' | hg'
          · exact (Prod.mk.inj heq).2.trans (Prod.mk.inj heq').2.symm
          · exact absurd ((Prod.mk.inj heq).1 ▸ (List.of_mem_zip hg').1) hk
        · rcases List.mem_cons.mp hg' with heq' | hg'
          · exact absurd ((Prod.mk.inj heq').1 ▸ (List.of_mem_zip hg).1) hk
          · exact ih hfs hg hg'
  exact hzip (List.Nodup.of_map _ hi.sound.distinct) hg hg'

/-- The document id is the first field that is one. -/
theorem find?_primaryKey (hi : i.Valid) :
    i.schema.fields.find? Field.isPrimaryKey = some i.schema.primaryKey := by
  obtain ⟨name, fields, h⟩ := hi.built
  unfold Schema.build at h
  split at h
  · cases h
  · dsimp only at h
    split at h
    · cases h
    · obtain ⟨⟨⟩, -, hs⟩ := bind_eq_ok.mp h
      obtain ⟨k, hk, hkey⟩ := Schema.exists_key_completed fields
      obtain ⟨p, hp⟩ := Option.isSome_iff_exists.mp (List.find?_isSome.mpr ⟨k, hk, hkey⟩)
      rw [← Except.ok.inj hs]
      dsimp only
      rw [hp, Option.getD_some]

theorem primaryKey_mem_pairs (hi : i.Valid) (hj : j.Valid) (h : i.Renamed j) :
    (i.schema.primaryKey, j.schema.primaryKey) ∈ pairs i j := by
  have hfind : ∀ {fs gs : List Field} {f g : Field}, List.Forall₂ Field.SameColumn fs gs →
      fs.find? Field.isPrimaryKey = some f → gs.find? Field.isPrimaryKey = some g →
      (f, g) ∈ fs.zip gs := by
    intro fs gs f g hfields hf hg
    induction hfields with
    | nil => cases hf
    | @cons k l fs gs hkl _ ih =>
      rw [List.find?_cons] at hf hg
      rw [← hkl.isPrimaryKey_eq] at hg
      rw [List.zip_cons_cons]
      split at hf
      · next hkey =>
        rw [hkey] at hg
        cases hf
        cases hg
        exact List.mem_cons_self
      · next hkey =>
        rw [hkey] at hg
        exact List.mem_cons_of_mem _ (ih hf hg)
  exact hfind h.fields (find?_primaryKey hi) (find?_primaryKey hj)

/-- Every field has one at its place. -/
theorem Renamed.exists_pair (h : i.Renamed j) :
    (∀ f ∈ i.schema.fields, ∃ g, (f, g) ∈ pairs i j) ∧
      ∀ g ∈ j.schema.fields, ∃ f, (f, g) ∈ pairs i j := by
  have hzip : ∀ {fs gs : List Field}, List.Forall₂ Field.SameColumn fs gs →
      (∀ f ∈ fs, ∃ g, (f, g) ∈ fs.zip gs) ∧ ∀ g ∈ gs, ∃ f, (f, g) ∈ fs.zip gs := by
    intro fs gs hfields
    induction hfields with
    | nil => exact ⟨fun f hf => absurd hf List.not_mem_nil, fun g hg => absurd hg List.not_mem_nil⟩
    | @cons k l fs gs _ _ ih =>
      rw [List.zip_cons_cons]
      constructor
      · intro f hf
        rcases List.mem_cons.mp hf with rfl | hf
        · exact ⟨l, List.mem_cons_self⟩
        · obtain ⟨g, hg⟩ := ih.1 f hf
          exact ⟨g, List.mem_cons_of_mem _ hg⟩
      · intro g hg
        rcases List.mem_cons.mp hg with rfl | hg
        · exact ⟨k, List.mem_cons_self⟩
        · obtain ⟨f, hf⟩ := ih.2 g hg
          exact ⟨f, List.mem_cons_of_mem _ hf⟩
  exact hzip h.fields

/-- A name that no field has is resolved only if it is the alias. -/
theorem resolveField_undeclared {r : Resolver} {name : String}
    (h : ∀ f ∈ r.schema.fields, f.name ≠ name) (halias : name ≠ r.keyAlias) :
    r.resolveField name = .error (.unknownField r.schema.index name) := by
  have hnone : r.schema.field? name = none :=
    List.find?_eq_none.mpr fun f hf heq => h f hf (beq_iff_eq.mp heq)
  unfold Resolver.resolveField
  rw [if_neg halias, hnone]

/-- A name and the one in its place stand for fields at the same place. -/
theorem Names.alike_resolveField (hi : i.Valid) (hj : j.Valid) (h : i.Renamed j) {m n : String}
    (hmn : i.Names j m n) : Alike (fun f g => (f, g) ∈ pairs i j) (i.resolver.resolveField m)
      (j.resolver.resolveField n) := by
  cases hmn with
  | @field f g hfg =>
    obtain ⟨hf, hg⟩ := List.of_mem_zip hfg
    have hfname := (h.names f (.inl hf)).1
    have hgname : g.name ≠ j.settings.keyAlias := h.settings ▸ (h.names g (.inr hg)).1
    rw [Resolver.resolveField_name hi.sound hf hfname,
      Resolver.resolveField_name hj.sound hg hgname]
    exact .ok hfg
  | other hother =>
    obtain ⟨hleft, hright⟩ := h.exists_pair
    have hsettings : i.settings.keyAlias = j.settings.keyAlias := by rw [h.settings]
    by_cases halias : m = i.settings.keyAlias
    · have hi' : i.resolver.resolveField m = .ok i.schema.primaryKey := if_pos halias
      have hj' : j.resolver.resolveField m = .ok j.schema.primaryKey :=
        if_pos (halias.trans hsettings)
      rw [hi', hj']
      exact .ok (primaryKey_mem_pairs hi hj h)
    · have hf : ∀ f ∈ i.schema.fields, f.name ≠ m := by
        intro f hf
        obtain ⟨g, hfg⟩ := hleft f hf
        exact (hother _ hfg).1.symm
      have hg : ∀ g ∈ j.schema.fields, g.name ≠ m := by
        intro g hg
        obtain ⟨f, hfg⟩ := hright g hg
        exact (hother _ hfg).2.symm
      have hi' := resolveField_undeclared (r := i.resolver) hf halias
      have hj' := resolveField_undeclared (r := j.resolver) hg fun heq =>
        halias (heq.trans hsettings.symm)
      rw [hi', hj']
      exact .error _ _

theorem Names.eq_empty_iff (hi : i.Valid) (hj : j.Valid) {m n : String} (hmn : i.Names j m n) :
    m = "" ↔ n = "" := by
  cases hmn with
  | field hfg =>
    obtain ⟨hf, hg⟩ := List.of_mem_zip hfg
    exact iff_of_false (Resolver.ne_empty_of_isIdentifier (hi.sound.name _ hf))
      (Resolver.ne_empty_of_isIdentifier (hj.sound.name _ hg))
  | other => exact Iff.rfl

/-- The pieces of a key and of the one in its place: the first is the name, and the others are the
same. -/
theorem Keys.pieces (hi : i.Valid) (hj : j.Valid) (h : i.Renamed j) {k l : String}
    (hkl : i.Keys j k l) : ∃ m n rest, i.Names j m n ∧ pieces k.toList = m.toList :: rest ∧
      pieces l.toList = n.toList :: rest := by
  cases hkl with
  | @name f g hfg =>
    obtain ⟨hf, hg⟩ := List.of_mem_zip hfg
    exact ⟨f.name, g.name, [], .field hfg, pieces_eq_singleton_iff.mpr (hi.sound.separator f hf),
      pieces_eq_singleton_iff.mpr (hj.sound.separator g hg)⟩
  | @lookup f g hfg suffix =>
    obtain ⟨hf, hg⟩ := List.of_mem_zip hfg
    have hsplit : ∀ {name : String}, hasSeparator name = false → name.toList.getLast? ≠ some '_' →
        LookupKey.pieces (name ++ separator ++ suffix).toList =
          name.toList :: LookupKey.pieces suffix.toList := by
      intro name hsep hlast
      have htext : (name ++ separator ++ suffix).toList =
          name.toList ++ '_' :: '_' :: suffix.toList := by
        rw [String.toList_append, String.toList_append, List.append_assoc]
        rfl
      rw [htext, pieces_append hsep hlast]
    exact ⟨f.name, g.name, _, .field hfg,
      hsplit (hi.sound.separator f hf) (h.names f (.inl hf)).2,
      hsplit (hj.sound.separator g hg) (h.names g (.inr hg)).2⟩
  | other hother =>
    cases hpieces : LookupKey.pieces k.toList with
    | nil => exact absurd hpieces (pieces_ne_nil _)
    | cons p rest =>
      refine ⟨String.ofList p, String.ofList p, rest, .other fun q hq => ?_, by simp, by simp⟩
      obtain ⟨hleft, hright⟩ := hother q hq
      rw [hpieces] at hleft hright
      constructor
      · rintro heq
        exact hleft (by rw [← heq]; simp)
      · rintro heq
        exact hright (by rw [← heq]; simp)

/-- Keys are taken apart alike. -/
theorem Keys.alike_parse (hi : i.Valid) (hj : j.Valid) (h : i.Renamed j) {k l : String}
    (hkl : i.Keys j k l) : Alike (fun a b : LookupKey => i.Names j a.field b.field ∧
      a.operator = b.operator) (parse k) (parse l) := by
  obtain ⟨m, n, rest, hmn, hk, hl⟩ := hkl.pieces hi hj h
  have hempty := hmn.eq_empty_iff hi hj
  have hcheck : ∀ operator : Option String, Alike
      (fun a b : LookupKey => i.Names j a.field b.field ∧ a.operator = b.operator)
      (if m = "" ∨ operator = some "" then
        Except.error (Error.invalidLookup k "empty field or operator") else .ok ⟨m, operator⟩)
      (if n = "" ∨ operator = some "" then
        Except.error (Error.invalidLookup l "empty field or operator") else .ok ⟨n, operator⟩) := by
    intro operator
    by_cases hbad : m = "" ∨ operator = some ""
    · rw [if_pos hbad, if_pos (hbad.imp_left hempty.mp)]
      exact .error _ _
    · rw [if_neg hbad, if_neg fun hn => hbad (hn.imp_left hempty.mpr)]
      exact .ok ⟨hmn, rfl⟩
  unfold parse split?
  rw [hk, hl]
  cases rest with
  | nil =>
    simp only [String.ofList_toList]
    exact hcheck none
  | cons operator rest =>
    cases rest with
    | nil =>
      simp only [String.ofList_toList]
      exact hcheck (some (String.ofList operator))
    | cons _ _ => exact .error _ _

theorem alike_operatorFor (f g : Field) (operator : Option String) :
    Alike Eq (Resolver.operatorFor f operator) (Resolver.operatorFor g operator) := by
  unfold Resolver.operatorFor
  split
  · exact .ok rfl
  · split
    · exact .ok rfl
    · exact .error _ _

theorem alike_negatedOperator {a b : LookupKey} (h : a.operator = b.operator) :
    Alike Eq (Resolver.negatedOperator a) (Resolver.negatedOperator b) := by
  unfold Resolver.negatedOperator
  rw [h]
  split
  · exact .ok rfl
  · split
    · exact .ok rfl
    · exact .error _ _

namespace Keys

variable {k l : String}

/-- Two resolved lookups are on fields at the same place, with the same operator. -/
def SameLookup (i j : Index) (a b : Field × Operator) : Prop :=
  (a.1, b.1) ∈ pairs i j ∧ a.2 = b.2

theorem alike_resolve (hi : i.Valid) (hj : j.Valid) (h : i.Renamed j) (hkl : i.Keys j k l) :
    Alike (SameLookup i j) (i.resolver.resolve k) (j.resolver.resolve l) := by
  refine (hkl.alike_parse hi hj h).bind fun {a b} ⟨hnames, hoperator⟩ => ?_
  refine (hnames.alike_resolveField hi hj h).bind fun {f g} hfg => ?_
  rw [← hoperator]
  refine (alike_operatorFor f g a.operator).bind fun {o p} hop => ?_
  exact .ok ⟨hfg, hop⟩

theorem alike_resolveNegated (hi : i.Valid) (hj : j.Valid) (h : i.Renamed j)
    (hkl : i.Keys j k l) :
    Alike (SameLookup i j) (i.resolver.resolveNegated k) (j.resolver.resolveNegated l) := by
  refine (hkl.alike_parse hi hj h).bind fun {a b} ⟨hnames, hoperator⟩ => ?_
  refine (alike_negatedOperator hoperator).bind fun {o p} hop => ?_
  refine (hnames.alike_resolveField hi hj h).bind fun {f g} hfg => ?_
  exact .ok ⟨hfg, hop⟩

/-- A key without operator is the name of its field. -/
theorem field_of_parse {key : String} {a : LookupKey} (h : parse key = .ok a)
    (ho : a.operator = none) : a.field = key := by
  have hpieces := pieces_of_parse h
  have hkey := intercalate_pieces key.toList
  rw [hpieces, ho, Option.toList_none, List.map_nil, List.intercalate_singleton] at hkey
  exact String.toList_inj.mp hkey

theorem alike_resolvePlain (hi : i.Valid) (hj : j.Valid) (h : i.Renamed j)
    (hkl : i.Keys j k l) : Alike (fun f g => (f, g) ∈ pairs i j) (i.resolver.resolvePlain k)
      (j.resolver.resolvePlain l) := by
  unfold Resolver.resolvePlain
  rcases (hkl.alike_parse hi hj h).elim with ⟨e, d, hk, hl⟩ | ⟨a, b, hk, hl, hnames, hoperator⟩
  · rw [hk, hl]
    exact .error e d
  · rw [hk, hl]
    cases ho : a.operator with
    | none =>
      have hfields := hnames.alike_resolveField hi hj h
      rw [field_of_parse hk ho, field_of_parse hl (hoperator ▸ ho)] at hfields
      simpa [ho, ← hoperator, bind, Except.bind] using hfields
    | some operator =>
      simp only [bind, Except.bind, ho, ← hoperator]
      exact .error _ _

end Keys

end Index

end IndexQuery
