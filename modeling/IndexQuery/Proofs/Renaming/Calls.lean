import IndexQuery.Proofs.Group
import IndexQuery.Proofs.Renaming.Fields

/-!
# Calls under other names

A call with the names of its fields replaced succeeds on the renamed index exactly if the call
itself does, and makes the same changes, but for the inequalities on full text, which are the same
only if the field is called the same in both.

    i.marked c                                the full-text fields of the inequalities of a call
    c.Renamed i j d → Alike (Along Update.Twin (i.SameNames j (i.marked c))) (i.updates c)
      (j.updates d)                                                              (alike_updates)
-/

namespace IndexQuery

open Text Outcome

/-! ## Algorithm -/

namespace Filter

mutual

/-- The keys of a filter, from left to right. -/
def keys : Filter → List String
  | .lookup key _ => [key]
  | .all fs => keysAll fs
  | .any fs => keysAll fs

/-- The keys of a list of filters. -/
def keysAll : List Filter → List String
  | [] => []
  | f :: fs => f.keys ++ keysAll fs

end

theorem keysAll_eq_flatMap (fs : List Filter) : keysAll fs = fs.flatMap keys := by
  induction fs with
  | nil => rfl
  | cons f fs ih => rw [keysAll, ih, List.flatMap_cons]

end Filter

/-- The field that a resolved lookup writes behind the marker, if it is one. -/
def markedField : Except Error (Field × Operator) → List Field
  | .ok (f, op) => if f.isFullText ∧ op = .notEqual then [f] else []
  | .error _ => []

/-- The full-text fields of the inequalities of a call. -/
def Index.marked (i : Index) : Call → List Field
  | .filter ls => ls.flatMap fun l => markedField (i.resolver.resolve l.1)
  | .exclude ls => ls.flatMap fun l => markedField (i.resolver.resolveNegated l.1)
  | .notEqual ls =>
    ls.flatMap fun l => markedField ((i.resolver.resolvePlain l.1).map fun f => (f, .notEqual))
  | .filterBy f => f.keys.flatMap fun key => markedField (i.resolver.resolve key)
  | .excludeBy fs =>
    (fs.filterMap Filter.lookup?).flatMap fun l => markedField (i.resolver.resolveNegated l.1)
  | _ => []

/-- A lookup with the name of its field replaced. -/
def Index.Lookups (i j : Index) (l m : String × Operand) : Prop := i.Keys j l.1 m.1 ∧ l.2 = m.2

/-- A filter with the names of its fields replaced. -/
inductive Filter.Renamed (i j : Index) : Filter → Filter → Prop where
  | lookup {k l : String} (h : i.Keys j k l) (x : Operand) :
    Renamed i j (.lookup k x) (.lookup l x)
  | all {fs gs : List Filter} (h : List.Forall₂ (Renamed i j) fs gs) :
    Renamed i j (.all fs) (.all gs)
  | any {fs gs : List Filter} (h : List.Forall₂ (Renamed i j) fs gs) :
    Renamed i j (.any fs) (.any gs)

/-- A call with the names of its fields replaced. -/
inductive Call.Renamed (i j : Index) : Call → Call → Prop where
  | filter {ls ms : List (String × Operand)} (h : List.Forall₂ (i.Lookups j) ls ms) :
    Renamed i j (.filter ls) (.filter ms)
  | exclude {ls ms : List (String × Operand)} (h : List.Forall₂ (i.Lookups j) ls ms) :
    Renamed i j (.exclude ls) (.exclude ms)
  | notEqual {ls ms : List (String × Operand)} (h : List.Forall₂ (i.Lookups j) ls ms) :
    Renamed i j (.notEqual ls) (.notEqual ms)
  | filterBy {f g : Filter} (h : f.Renamed i j g) : Renamed i j (.filterBy f) (.filterBy g)
  | excludeBy {fs gs : List Filter} (h : List.Forall₂ (Filter.Renamed i j) fs gs) :
    Renamed i j (.excludeBy fs) (.excludeBy gs)
  | matchText (ts : List String) : Renamed i j (.matchText ts) (.matchText ts)
  | matchField {m n : String} (h : i.Names j m n) (ts : List String) :
    Renamed i j (.matchField m ts) (.matchField n ts)
  | matchAll (free : List String) {bs ds : List (String × List String)}
    (h : List.Forall₂ (fun b d => i.Names j b.1 d.1 ∧ b.2 = d.2) bs ds) :
    Renamed i j (.matchAll free bs) (.matchAll free ds)
  | options (os : List (String × OptionValue)) : Renamed i j (.options os) (.options os)
  | orderBy {ss ts : List String} (h : List.Forall₂ (fun s t =>
      i.Names j (Query.splitOrder s).1 (Query.splitOrder t).1 ∧
        (Query.splitOrder s).2 = (Query.splitOrder t).2) ss ts) :
    Renamed i j (.orderBy ss) (.orderBy ts)
  | take (count : UInt64) : Renamed i j (.take count) (.take count)
  | skip (count : UInt64) : Renamed i j (.skip count) (.skip count)

/-- Conditions whose fragments are twins. -/
def Condition.Twin (E : Prop) (c d : Condition) : Prop := c.toFragment.Twin E d.toFragment

namespace Condition.Twin

theorem refl (c : Condition) : c.Twin True c := Fragment.Twin.refl c.toFragment

variable {E : Prop} {cs ds : List Condition}

theorem fragments (h : Along Condition.Twin E cs ds) :
    Along Fragment.Twin E (cs.map Condition.toFragment) (ds.map Condition.toFragment) := h.map id

theorem all (h : Along Condition.Twin E cs ds) : (Condition.all cs).Twin E (.all ds) := by
  unfold Condition.Twin
  rw [Condition.toFragment_all, Condition.toFragment_all]
  exact .conjunction (fragments h)

theorem any (h : Along Condition.Twin E cs ds) : (Condition.any cs).Twin E (.any ds) := by
  unfold Condition.Twin
  rw [Condition.toFragment_any, Condition.toFragment_any]
  exact .disjunction (fragments h)

end Condition.Twin

/-- Changes that differ in the names of fields, the same exactly if `E` is true. -/
inductive Update.Twin : Prop → Update → Update → Prop where
  | condition {E : Prop} {c d : Condition} (h : c.Twin E d) : Twin E (.condition c) (.condition d)
  | fragment {E : Prop} {f g : Fragment} (h : f.Twin E g) : Twin E (.fragment f) (.fragment g)
  | same (u : Update) : Twin True u u

/-! ## Names that are the same -/

namespace Index

variable {i j : Index}

theorem sameNames_nil : i.SameNames j [] :=
  fun _ _ hf => absurd hf List.not_mem_nil

theorem sameNames_flatMap {α : Type} {fields : α → List Field} {l : List α} :
    i.SameNames j (l.flatMap fields) ↔ ∀ a ∈ l, i.SameNames j (fields a) := by
  constructor
  · intro h a ha p hp hf
    exact h p hp (List.mem_flatMap.mpr ⟨a, ha, hf⟩)
  · intro h p hp hf
    obtain ⟨a, ha, hf⟩ := List.mem_flatMap.mp hf
    exact h a ha p hp hf

/-- A resolved lookup needs the names of its field to be the same if it is an inequality on full
text. -/
theorem sameNames_markedField (hi : i.Valid) {f g : Field} (hfg : (f, g) ∈ pairs i j)
    (op : Operator) : f.AsksFor g op ↔ i.SameNames j (markedField (.ok (f, op))) := by
  unfold markedField Field.AsksFor
  dsimp only
  split
  · next hmarked =>
    constructor
    · intro hasks p hp hf
      obtain ⟨k, l⟩ := p
      cases List.mem_singleton.mp hf
      rw [← eq_of_mem_pairs hi hfg hp]
      exact hasks hmarked.1 hmarked.2
    · intro hsame _ _
      exact hsame (f, g) hfg (List.mem_singleton_self f)
  · next hmarked =>
    exact iff_of_true (fun htext hop => absurd ⟨htext, hop⟩ hmarked) sameNames_nil

/-! ## Lookups -/

theorem alike_formUpdates {E : Prop} {a b : PredicateForm} (h : a.Twin E b) :
    Alike (Along Update.Twin E) a.updates b.updates := by
  cases h with
  | fragment h => exact .ok (.single (.fragment h))
  | search scope ts => exact .ok (.single (.same _))
  | comparison h op x =>
    refine (h.alike_ofLookup op x).map fun {c d} hcd => ?_
    rw [hcd]
    exact .single (.same _)

/-- Two predicates on fields at the same place, with the same operator and operand. -/
theorem alike_form (hi : i.Valid) (hj : j.Valid) (h : i.Renamed j) {f g : Field}
    (hfg : (f, g) ∈ pairs i j) (op : Operator) (x : Operand) :
    Alike (PredicateForm.Twin (f.AsksFor g op)) (Predicate.form i.settings.marker ⟨f, op, x⟩)
      (Predicate.form j.settings.marker ⟨g, op, x⟩) := by
  obtain ⟨hf, hg⟩ := List.of_mem_zip hfg
  rw [← h.settings]
  exact Predicate.alike_form (Settings.validate_eq_ok hi.validate).1 (h.sameColumn hfg)
    (hi.sound.name f hf) (hj.sound.name g hg) (hi.sound.column f hf) op x

/-- Lookups that are resolved to fields at the same place make changes that are twins. -/
theorem alike_resolvedUpdates (hi : i.Valid) (hj : j.Valid) (h : i.Renamed j)
    {r s : Except Error (Field × Operator)} (hrs : Alike (Keys.SameLookup i j) r s) (x : Operand) :
    Alike (Along Update.Twin (i.SameNames j (markedField r)))
      (r >>= fun a => i.predicateUpdates ⟨a.1, a.2, x⟩)
      (s >>= fun b => j.predicateUpdates ⟨b.1, b.2, x⟩) := by
  cases hrs with
  | error e d => exact .error e d
  | @ok a b hab =>
    obtain ⟨f, op⟩ := a
    obtain ⟨g, op'⟩ := b
    obtain ⟨hfg, hop⟩ := hab
    dsimp only at hfg hop
    subst hop
    rw [← propext (sameNames_markedField hi hfg op)]
    exact (alike_form hi hj h hfg op x).bind alike_formUpdates

variable {l m : String × Operand}

theorem alike_lookupUpdates (hi : i.Valid) (hj : j.Valid) (h : i.Renamed j)
    (hlm : i.Lookups j l m) :
    Alike (Along Update.Twin (i.SameNames j (markedField (i.resolver.resolve l.1))))
      (i.lookupUpdates l) (j.lookupUpdates m) := by
  unfold lookupUpdates
  rw [← hlm.2]
  exact alike_resolvedUpdates hi hj h (hlm.1.alike_resolve hi hj h) l.2

theorem exclusionUpdates_eq (i : Index) (l : String × Operand) : i.exclusionUpdates l =
    (i.resolver.resolveNegated l.1 >>= fun a => i.predicateUpdates ⟨a.1, a.2, l.2⟩).map
      (· ++ [.negation]) := by
  unfold exclusionUpdates
  cases i.resolver.resolveNegated l.1 with
  | error e => rfl
  | ok a =>
    show (i.predicateUpdates ⟨a.1, a.2, l.2⟩ >>= _) =
      Except.map _ (i.predicateUpdates ⟨a.1, a.2, l.2⟩)
    cases i.predicateUpdates ⟨a.1, a.2, l.2⟩ <;> rfl

theorem alike_exclusionUpdates (hi : i.Valid) (hj : j.Valid) (h : i.Renamed j)
    (hlm : i.Lookups j l m) :
    Alike (Along Update.Twin (i.SameNames j (markedField (i.resolver.resolveNegated l.1))))
      (i.exclusionUpdates l) (j.exclusionUpdates m) := by
  have hnegation : Along Update.Twin True [.negation] [.negation] := .single (.same _)
  have hupdates := alike_resolvedUpdates hi hj h (hlm.1.alike_resolveNegated hi hj h) l.2
  rw [exclusionUpdates_eq, exclusionUpdates_eq, ← hlm.2]
  exact hupdates.map fun hus => (hus.append hnegation).of_iff (iff_of_eq (and_true _))

theorem inequalityUpdates_eq (i : Index) (l : String × Operand) : i.inequalityUpdates l =
    ((i.resolver.resolvePlain l.1).map fun f => (f, Operator.notEqual)) >>= fun a =>
      i.predicateUpdates ⟨a.1, a.2, l.2⟩ := by
  unfold inequalityUpdates
  cases i.resolver.resolvePlain l.1 <;> rfl

theorem alike_inequalityUpdates (hi : i.Valid) (hj : j.Valid) (h : i.Renamed j)
    (hlm : i.Lookups j l m) :
    Alike (Along Update.Twin (i.SameNames j
        (markedField ((i.resolver.resolvePlain l.1).map fun f => (f, .notEqual)))))
      (i.inequalityUpdates l) (j.inequalityUpdates m) := by
  have hplain : Alike (Keys.SameLookup i j)
      ((i.resolver.resolvePlain l.1).map fun f => (f, Operator.notEqual))
      ((j.resolver.resolvePlain m.1).map fun f => (f, Operator.notEqual)) :=
    (hlm.1.alike_resolvePlain hi hj h).map fun hfg => ⟨hfg, rfl⟩
  rw [inequalityUpdates_eq, inequalityUpdates_eq, ← hlm.2]
  exact alike_resolvedUpdates hi hj h hplain l.2

/-- Members of two lists that make twin changes make them one after another. -/
theorem alike_collect {α : Type} {changes changes' : α → Except Error (List Update)}
    {fields : α → List Field} {S : α → α → Prop} {as bs : List α} (hab : List.Forall₂ S as bs)
    (hchanges : ∀ {a b}, S a b →
      Alike (Along Update.Twin (i.SameNames j (fields a))) (changes a) (changes' b)) :
    Alike (Along Update.Twin (i.SameNames j (as.flatMap fields))) (collect changes as)
      (collect changes' bs) := by
  rw [propext sameNames_flatMap]
  exact (alike_mapM hab fun _ _ {_} hS => hchanges hS).map Along.flatten

/-! ## Filters -/

/-- Within a group, forms that are twins give conditions that are. -/
theorem alike_nestedCondition {E : Prop} {a b : PredicateForm} (h : a.Twin E b)
    (p q : Predicate) : Alike (Condition.Twin E) (Filter.nestedCondition p a)
      (Filter.nestedCondition q b) := by
  cases h with
  | fragment h => exact .ok h
  | search scope ts => exact .error _ _
  | comparison h op x =>
    refine (h.alike_ofLookup op x).imp fun {c d} hcd => ?_
    subst hcd
    exact .refl c

theorem alike_lookupCondition (hi : i.Valid) (hj : j.Valid) (h : i.Renamed j) {k l : String}
    (hkl : i.Keys j k l) (x : Operand) :
    Alike (Condition.Twin (i.SameNames j (markedField (i.resolver.resolve k))))
      (Filter.lookupCondition i.resolver i.settings.marker k x)
      (Filter.lookupCondition j.resolver j.settings.marker l x) := by
  unfold Filter.lookupCondition
  rcases (hkl.alike_resolve hi hj h).elim with
    ⟨e, d, hk, hl⟩ | ⟨⟨f, op⟩, ⟨g, op'⟩, hk, hl, hfg, hop⟩
  · rw [hk, hl]
    exact .error e d
  · rw [hk, hl]
    dsimp only at hfg hop
    subst hop
    rw [← propext (sameNames_markedField hi hfg op)]
    exact (alike_form hi hj h hfg op x).bind fun htwin => alike_nestedCondition htwin _ _

/-- Filters with the names of their fields replaced are conditions that are twins. -/
theorem alike_toCondition (hi : i.Valid) (hj : j.Valid) (h : i.Renamed j) {f g : Filter}
    (hfg : f.Renamed i j g) :
    Alike (Condition.Twin (i.SameNames j
        (f.keys.flatMap fun key => markedField (i.resolver.resolve key))))
      (f.toCondition i.resolver i.settings.marker)
      (g.toCondition j.resolver j.settings.marker) := by
  have hmembers : ∀ {fs gs : List Filter}, List.Forall₂ (Filter.Renamed i j) fs gs →
      (∀ f ∈ fs, ∀ {g}, f.Renamed i j g → Alike (Condition.Twin (i.SameNames j
        (f.keys.flatMap fun key => markedField (i.resolver.resolve key))))
        (f.toCondition i.resolver i.settings.marker)
        (g.toCondition j.resolver j.settings.marker)) →
      Alike (Along Condition.Twin (i.SameNames j
        ((Filter.keysAll fs).flatMap fun key => markedField (i.resolver.resolve key))))
        (Filter.toConditions i.resolver i.settings.marker fs)
        (Filter.toConditions j.resolver j.settings.marker gs) := by
    intro fs gs hfs ih
    rw [Filter.toConditions_eq_mapM, Filter.toConditions_eq_mapM, Filter.keysAll_eq_flatMap,
      List.flatMap_assoc, propext sameNames_flatMap]
    exact alike_mapM hfs ih
  induction f generalizing g with
  | lookup k x =>
    cases hfg with
    | lookup hkl =>
      rw [Filter.keys, List.flatMap_singleton]
      exact alike_lookupCondition hi hj h hkl x
  | all fs ih =>
    cases hfg with
    | all hfs => exact (hmembers hfs fun f hf {_} hfg => ih f hf hfg).map Condition.Twin.all
  | any fs ih =>
    cases hfg with
    | any hfs => exact (hmembers hfs fun f hf {_} hfg => ih f hf hfg).map Condition.Twin.any

theorem alike_filterUpdates (hi : i.Valid) (hj : j.Valid) (h : i.Renamed j) {f g : Filter}
    (hfg : f.Renamed i j g) :
    Alike (Along Update.Twin (i.SameNames j (i.marked (.filterBy f)))) (i.filterUpdates f)
      (j.filterUpdates g) := by
  have hgroup := (alike_toCondition hi hj h hfg).map
    (S := Along Update.Twin (i.SameNames j (i.marked (.filterBy f))))
    (f := fun c => [Update.condition c]) (g := fun c => [Update.condition c])
    fun hcd => .single (.condition hcd)
  cases hfg with
  | @lookup k l hkl x =>
    simp only [marked, Filter.keys, List.flatMap_singleton]
    exact alike_lookupUpdates hi hj h (l := (k, x)) (m := (l, x)) ⟨hkl, rfl⟩
  | all hfs => exact hgroup
  | any hfs => exact hgroup

/-- The lookups that renamed filters are. -/
theorem forall₂_lookup? {fs gs : List Filter} (h : List.Forall₂ (Filter.Renamed i j) fs gs) :
    List.Forall₂ (i.Lookups j) (fs.filterMap Filter.lookup?) (gs.filterMap Filter.lookup?) := by
  induction h with
  | nil => exact .nil
  | cons hfg _ ih =>
    cases hfg with
    | lookup hkl x => exact .cons ⟨hkl, rfl⟩ ih
    | all _ => exact ih
    | any _ => exact ih

theorem countP_isGroup {fs gs : List Filter} (h : List.Forall₂ (Filter.Renamed i j) fs gs) :
    fs.countP Filter.isGroup = gs.countP Filter.isGroup := by
  induction h with
  | nil => rfl
  | cons hfg _ ih =>
    rw [List.countP_cons, List.countP_cons, ih]
    cases hfg <;> rfl

/-! ## Search terms and order -/

theorem alike_fieldTerms (hi : i.Valid) (hj : j.Valid) (h : i.Renamed j)
    {b d : String × List String} (hbd : i.Names j b.1 d.1 ∧ b.2 = d.2) :
    Alike Eq (i.fieldTerms b) (j.fieldTerms d) := by
  refine (hbd.1.alike_resolveField hi hj h).bind fun {f g} hfg => ?_
  rw [(h.sameColumn hfg).column, hbd.2]
  exact .ok rfl

theorem alike_orderTerm (hi : i.Valid) (hj : j.Valid) (h : i.Renamed j) {s t : String}
    (hst : i.Names j (Query.splitOrder s).1 (Query.splitOrder t).1 ∧
      (Query.splitOrder s).2 = (Query.splitOrder t).2) :
    Alike Eq (i.orderTerm s) (j.orderTerm t) := by
  unfold orderTerm
  dsimp only
  refine (hst.1.alike_resolveField hi hj h).bind fun {f g} hfg => ?_
  rw [(h.sameColumn hfg).isFullText_eq, (h.sameColumn hfg).column, hst.2]
  split
  · exact .error _ _
  · exact .ok rfl

/-! ## Calls -/

/-- A call with the names of its fields replaced succeeds exactly if the call does, and makes the
same changes up to the names in inequalities on full text. -/
theorem alike_updates (hi : i.Valid) (hj : j.Valid) (h : i.Renamed j) {c d : Call}
    (hcd : c.Renamed i j d) :
    Alike (Along Update.Twin (i.SameNames j (i.marked c))) (i.updates c) (j.updates d) := by
  have hsame : ∀ us : List Update, Along Update.Twin (i.SameNames j []) us us := by
    intro us
    induction us with
    | nil => exact Along.nil.of_iff (iff_of_true trivial sameNames_nil)
    | cons u us ih => exact (Along.cons (.same u) ih).of_iff (iff_of_eq (true_and _))
  have heq : ∀ {us vs : List Update}, us = vs → Along Update.Twin (i.SameNames j []) us vs := by
    rintro us vs rfl
    exact hsame us
  cases hcd with
  | filter hls => exact alike_collect hls fun hlm => alike_lookupUpdates hi hj h hlm
  | exclude hls => exact alike_collect hls fun hlm => alike_exclusionUpdates hi hj h hlm
  | notEqual hls => exact alike_collect hls fun hlm => alike_inequalityUpdates hi hj h hlm
  | filterBy hfg => exact alike_filterUpdates hi hj h hfg
  | excludeBy hfs =>
    simp only [updates, countP_isGroup hfs]
    split
    · exact .error _ _
    · exact alike_collect (forall₂_lookup? hfs) fun hlm => alike_exclusionUpdates hi hj h hlm
  | matchText ts => exact .ok (hsame _)
  | matchField hmn ts =>
    exact (alike_fieldTerms hi hj h (b := (_, ts)) (d := (_, ts)) ⟨hmn, rfl⟩).map fun huv =>
      heq (by rw [huv])
  | matchAll free hbs =>
    exact (alike_mapM_eq hbs fun hbd => alike_fieldTerms hi hj h hbd).map fun huv =>
      heq (by rw [huv])
  | options os =>
    show Alike _ (os.mapM optionUpdate) (os.mapM optionUpdate)
    exact (Alike.refl _).imp heq
  | orderBy hss =>
    exact (alike_mapM_eq hss fun hst => alike_orderTerm hi hj h hst).map fun huv =>
      heq (by rw [huv])
  | take count => exact .ok (hsame _)
  | skip count => exact .ok (hsame _)

end Index

end IndexQuery
