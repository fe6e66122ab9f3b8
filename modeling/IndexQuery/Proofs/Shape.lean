import IndexQuery.Proofs.Reading.Statement

/-!
# Shapes of calls and of statements

The shape of a call is what remains of it without the data of its caller: every value is blank, and
so are the search terms.  Fragments, conditions and updates have shapes too, with blank parameters,
and everything that is done to them on the way to a statement can be done to their shapes.  So calls
of the same shape reach statements with the same text, and data is bound and never written.

    (f.and g).shape = f.shape.and g.shape                                           (shape_and)
    c.shape.toFragment = c.toFragment.shape                                  (toFragment_shape)
    c.Alike d → i.updates c = .ok us → i.updates d = .ok vs →
      us.map Update.shape = vs.map Update.shape                                 (shape_updates)
    two runs with calls alike reach statements with the same text           (sql_eq_of_alike)
-/

namespace IndexQuery

open Outcome

/-! ## Algorithm -/

/-- Parameters without their values. -/
def blankParams (ps : List Param) : List Param := ps.map fun _ => .null

/-- An operand without its values. -/
def Operand.shape : Operand → Operand
  | .scalar _ => .scalar .null
  | .sequence vs => .sequence (vs.map fun _ => .null)

/-- A lookup without its values. -/
def lookupShape (l : String × Operand) : String × Operand := (l.1, l.2.shape)

/-- A fragment without the values of its parameters. -/
def Fragment.shape (f : Fragment) : Fragment := ⟨f.sql, blankParams f.params⟩

namespace Condition

mutual

/-- A condition without the values of its parameters. -/
def shape : Condition → Condition
  | .compare column op params => .compare column op (blankParams params)
  | .raw f => .raw f.shape
  | .all cs => .all (shapes cs)
  | .any cs => .any (shapes cs)

/-- Conditions without the values of their parameters. -/
def shapes : List Condition → List Condition
  | [] => []
  | c :: cs => c.shape :: shapes cs

end

end Condition

namespace Filter

mutual

/-- A filter without its values. -/
def shape : Filter → Filter
  | .lookup key x => .lookup key x.shape
  | .all fs => .all (shapes fs)
  | .any fs => .any (shapes fs)

/-- Filters without their values. -/
def shapes : List Filter → List Filter
  | [] => []
  | f :: fs => f.shape :: shapes fs

end

end Filter

/-- A predicate without its values. -/
def Predicate.shape (p : Predicate) : Predicate := ⟨p.field, p.operator, p.operand.shape⟩

/-- The form of a predicate without its values. -/
def PredicateForm.shape : PredicateForm → PredicateForm
  | .fragment f => .fragment f.shape
  | .search scope _ => .search scope []
  | .comparison p => .comparison p.shape

/-- An update without its data. -/
def Update.shape : Update → Update
  | .condition c => .condition c.shape
  | .fragment f => .fragment f.shape
  | .terms scope _ => .terms scope []
  | .negation => .negation
  | .option name value => .option name value
  | .order ts => .order ts
  | .take count => .take count
  | .skip count => .skip count

/-- A base query without the values of its parameters. -/
def Select.shape (b : Select) : Select :=
  { b with conditions := b.conditions.map Condition.shape }

/-- Clauses without the values of their parameters and without search terms. -/
def Clauses.shape (c : Clauses) : Clauses :=
  { c with fragments := c.fragments.map Fragment.shape, matching := .empty }

/-- A query without the data of its callers. -/
def Query.shape (q : Query) : Query := { q with base := q.base.shape, clauses := q.clauses.shape }

/-- Calls that differ at most in the values of their lookups and in their search terms. -/
inductive Call.Alike : Call → Call → Prop where
  | filter {ls ms : List (String × Operand)} (h : ls.map lookupShape = ms.map lookupShape) :
    Alike (.filter ls) (.filter ms)
  | exclude {ls ms : List (String × Operand)} (h : ls.map lookupShape = ms.map lookupShape) :
    Alike (.exclude ls) (.exclude ms)
  | notEqual {ls ms : List (String × Operand)} (h : ls.map lookupShape = ms.map lookupShape) :
    Alike (.notEqual ls) (.notEqual ms)
  | filterBy {f g : Filter} (h : f.shape = g.shape) : Alike (.filterBy f) (.filterBy g)
  | excludeBy {fs gs : List Filter} (h : fs.map Filter.shape = gs.map Filter.shape) :
    Alike (.excludeBy fs) (.excludeBy gs)
  | matchText (ts us : List String) : Alike (.matchText ts) (.matchText us)
  | matchField (field : String) (ts us : List String) :
    Alike (.matchField field ts) (.matchField field us)
  | matchAll (ts us : List String) {bs ds : List (String × List String)}
    (h : bs.map Prod.fst = ds.map Prod.fst) : Alike (.matchAll ts bs) (.matchAll us ds)
  | options (os : List (String × OptionValue)) : Alike (.options os) (.options os)
  | orderBy (ts : List String) : Alike (.orderBy ts) (.orderBy ts)
  | take (count : UInt64) : Alike (.take count) (.take count)
  | skip (count : UInt64) : Alike (.skip count) (.skip count)

/-- A call looks for a term that is not empty. -/
def Index.Seeks (i : Index) (c : Call) : Prop := ∃ b ∈ i.searches c, ∃ t ∈ b.2, t ≠ ""

/-! ## Shapes of operands and of fragments -/

theorem blankParams_eq_iff {ps qs : List Param} :
    blankParams ps = blankParams qs ↔ ps.length = qs.length := by
  unfold blankParams
  rw [List.map_const', List.map_const']
  constructor
  · intro h
    have hlength := congrArg List.length h
    rwa [List.length_replicate, List.length_replicate] at hlength
  · intro h
    rw [h]

theorem length_blankParams (ps : List Param) : (blankParams ps).length = ps.length :=
  List.length_map _

theorem Operand.length_values_of_shape {x y : Operand} (h : x.shape = y.shape) :
    x.values.length = y.values.length := by
  cases x with
  | scalar v =>
    cases y with
    | scalar w => rfl
    | sequence ws => cases h
  | sequence vs =>
    cases y with
    | scalar w => cases h
    | sequence ws =>
      have hlength := congrArg List.length (Operand.sequence.inj h)
      rwa [List.length_map, List.length_map] at hlength

namespace Fragment

theorem shape_eq_iff {f g : Fragment} :
    f.shape = g.shape ↔ f.sql = g.sql ∧ f.params.length = g.params.length := by
  unfold shape
  rw [mk.injEq, blankParams_eq_iff]

@[simp] theorem shape_empty : empty.shape = empty := rfl

@[simp] theorem shape_and (f g : Fragment) : (f.and g).shape = f.shape.and g.shape := by
  unfold shape Fragment.and blankParams
  rw [List.map_append]

@[simp] theorem shape_or (f g : Fragment) : (f.or g).shape = f.shape.or g.shape := by
  unfold shape Fragment.or blankParams
  rw [List.map_append]

@[simp] theorem shape_parenthesize (f : Fragment) :
    f.parenthesize.shape = f.shape.parenthesize := by
  have hcompound : f.shape.isCompound = f.isCompound := rfl
  unfold Fragment.parenthesize
  rw [hcompound]
  split <;> rfl

/-- Fragments are joined as their shapes are. -/
theorem shape_foldl {join : Fragment → Fragment → Fragment}
    (hjoin : ∀ f g, (join f g).shape = join f.shape g.shape) (fs : List Fragment) (f : Fragment) :
    (fs.foldl join f).shape = (fs.map shape).foldl join f.shape := by
  induction fs generalizing f with
  | nil => rfl
  | cons g fs ih => rw [List.map_cons, List.foldl_cons, List.foldl_cons, ih, hjoin]

theorem shape_conjunction (fs : List Fragment) :
    (conjunction fs).shape = conjunction (fs.map shape) := by
  unfold conjunction
  rw [shape_foldl shape_and, List.map_map, List.map_map, shape_empty]
  congr 1
  exact List.map_congr_left fun f _ => f.shape_parenthesize

theorem shape_disjunction (fs : List Fragment) :
    (disjunction fs).shape = disjunction (fs.map shape) := by
  rw [disjunction_eq_foldl, disjunction_eq_foldl, shape_foldl shape_or, shape_empty]

end Fragment

namespace Condition

theorem shapes_eq_map (cs : List Condition) : shapes cs = cs.map shape := by
  induction cs with
  | nil => rfl
  | cons c cs ih => rw [shapes, ih, List.map_cons]

/-- The shape of a condition is rendered as the shape of its fragment. -/
theorem toFragment_shape (c : Condition) : c.shape.toFragment = c.toFragment.shape := by
  have hlist : ∀ {cs : List Condition}, (∀ c ∈ cs, c.shape.toFragment = c.toFragment.shape) →
      (cs.map shape).map toFragment = (cs.map toFragment).map Fragment.shape := by
    intro cs ih
    rw [List.map_map, List.map_map]
    exact List.map_congr_left ih
  induction c with
  | compare column op params =>
    rw [shape, toFragment, toFragment, length_blankParams]
    rfl
  | raw f => rw [shape, toFragment, toFragment]
  | all cs ih =>
    rw [shape, shapes_eq_map, toFragment_all, toFragment_all, Fragment.shape_conjunction, hlist ih]
  | any cs ih =>
    rw [shape, shapes_eq_map, toFragment_any, toFragment_any, Fragment.shape_disjunction, hlist ih]

end Condition

theorem Filter.shapes_eq_map (fs : List Filter) : shapes fs = fs.map shape := by
  induction fs with
  | nil => rfl
  | cons f fs ih => rw [shapes, ih, List.map_cons]

/-! ## Shapes of predicates -/

namespace Predicate

variable {marker : String} {p p' : Predicate}

theorem length_params_of_bindAll {f : Field} {x y : Operand} (hx : x.shape = y.shape)
    {ps qs : List Param} (hp : f.bindAll x.values = .ok ps) (hq : f.bindAll y.values = .ok qs) :
    ps.length = qs.length := by
  rw [Field.length_of_bindAll hp, Field.length_of_bindAll hq, Operand.length_values_of_shape hx]

theorem shape_eq_iff : p.shape = p'.shape ↔
    p.field = p'.field ∧ p.operator = p'.operator ∧ p.operand.shape = p'.operand.shape := by
  unfold shape
  rw [mk.injEq]

theorem shape_congr (f : Field) (op : Operator) {x y : Operand} (hx : x.shape = y.shape) :
    shape ⟨f, op, x⟩ = shape ⟨f, op, y⟩ := shape_eq_iff.mpr ⟨rfl, rfl, hx⟩

theorem shape_of_states (h : p.shape = p'.shape) {g g' : Fragment} (hg : p.States marker g)
    (hg' : p'.States marker g') : g.shape = g'.shape := by
  obtain ⟨hfield, hop, hx⟩ := shape_eq_iff.mp h
  have hbound := hg'.bound
  have htext := hg'.text
  rw [← hfield] at hbound htext
  have hlength := length_params_of_bindAll hx hg.bound hbound
  rw [← hop, ← hlength, hg.text] at htext
  exact Fragment.shape_eq_iff.mpr ⟨Option.some.inj htext, hlength⟩

theorem shape_of_form (h : p.shape = p'.shape) {form form' : PredicateForm}
    (hp : p.form marker = .ok form) (hp' : p'.form marker = .ok form') :
    form.shape = form'.shape := by
  obtain ⟨hfield, hop, hx⟩ := shape_eq_iff.mp h
  unfold Predicate.form at hp hp'
  rw [← hfield, ← hop] at hp'
  by_cases hsearch : p.operator = .search
  · rw [if_pos hsearch] at hp hp'
    obtain ⟨ts, -, rfl⟩ := map_eq_ok.mp hp
    obtain ⟨ts', -, rfl⟩ := map_eq_ok.mp hp'
    rfl
  · rw [if_neg hsearch] at hp hp'
    by_cases hm : p.field.isMultiValue = true
    · rw [if_pos hm] at hp hp'
      obtain ⟨g, hg, rfl⟩ := map_eq_ok.mp hp
      obtain ⟨g', hg', rfl⟩ := map_eq_ok.mp hp'
      have hstates : p.States marker g := states_of_setFragment hm hg
      rw [hfield] at hm
      rw [hfield, hop] at hg'
      exact congrArg PredicateForm.fragment
        (shape_of_states h hstates (states_of_setFragment hm hg'))
    · rw [if_neg hm] at hp hp'
      by_cases hne : p.operator = .notEqual
      · rw [if_pos hne] at hp hp'
        obtain ⟨g, hg, rfl⟩ := map_eq_ok.mp hp
        obtain ⟨g', hg', rfl⟩ := map_eq_ok.mp hp'
        have hm := eq_false_of_ne_true hm
        have hstates := states_of_inequality hm hne hg
        rw [hfield] at hm hg'
        rw [hop] at hne
        exact congrArg PredicateForm.fragment
          (shape_of_states h hstates (states_of_inequality hm hne hg'))
      · rw [if_neg hne] at hp hp'
        cases hp
        cases hp'
        exact congrArg PredicateForm.comparison h

/-- A comparison of the base query with other values is the same but for its parameters. -/
theorem shape_of_ofLookup (h : p.shape = p'.shape) {c c' : Condition}
    (hc : Condition.ofLookup p.field p.operator p.operand = .ok c)
    (hc' : Condition.ofLookup p'.field p'.operator p'.operand = .ok c') : c.shape = c'.shape := by
  obtain ⟨hfield, hop, hx⟩ := shape_eq_iff.mp h
  rw [← hfield, ← hop] at hc'
  obtain ⟨ps, hps, -, -, -, -, rfl⟩ := ofLookup_eq_ok hc
  obtain ⟨qs, hqs, -, -, -, -, rfl⟩ := ofLookup_eq_ok hc'
  rw [Condition.shape, Condition.shape,
    blankParams_eq_iff.mpr (length_params_of_bindAll hx hps hqs)]

end Predicate

/-! ## Shapes of updates -/

theorem PredicateForm.shape_of_updates {form form' : PredicateForm} (h : form.shape = form'.shape)
    {us vs : List Update} (hu : form.updates = .ok us) (hv : form'.updates = .ok vs) :
    us.map Update.shape = vs.map Update.shape := by
  cases form with
  | fragment f =>
    cases form' with
    | fragment f' =>
      cases hu
      cases hv
      exact congrArg (fun f => [Update.fragment f]) (PredicateForm.fragment.inj h)
    | search scope ts => cases h
    | comparison p => cases h
  | search scope ts =>
    cases form' with
    | fragment f => cases h
    | search scope' ts' =>
      cases hu
      cases hv
      exact congrArg (fun scope => [Update.terms scope []]) (PredicateForm.search.inj h).1
    | comparison p => cases h
  | comparison p =>
    cases form' with
    | fragment f => cases h
    | search scope ts => cases h
    | comparison p' =>
      obtain ⟨c, hc, rfl⟩ := map_eq_ok.mp hu
      obtain ⟨c', hc', rfl⟩ := map_eq_ok.mp hv
      exact congrArg (fun c => [Update.condition c])
        (Predicate.shape_of_ofLookup (PredicateForm.comparison.inj h) hc hc')

namespace Index

variable {i : Index} {us vs : List Update}

theorem shape_of_predicateUpdates {p p' : Predicate} (h : p.shape = p'.shape)
    (hu : i.predicateUpdates p = .ok us) (hv : i.predicateUpdates p' = .ok vs) :
    us.map Update.shape = vs.map Update.shape := by
  obtain ⟨form, hform, hu⟩ := bind_eq_ok.mp hu
  obtain ⟨form', hform', hv⟩ := bind_eq_ok.mp hv
  exact PredicateForm.shape_of_updates (Predicate.shape_of_form h hform hform') hu hv

variable {l m : String × Operand}

theorem shape_of_lookupUpdates (h : lookupShape l = lookupShape m)
    (hu : i.lookupUpdates l = .ok us) (hv : i.lookupUpdates m = .ok vs) :
    us.map Update.shape = vs.map Update.shape := by
  obtain ⟨hkey, hx⟩ := Prod.mk.inj h
  obtain ⟨⟨f, op⟩, hr, hu⟩ := bind_eq_ok.mp hu
  obtain ⟨⟨f', op'⟩, hr', hv⟩ := bind_eq_ok.mp hv
  rw [← hkey, hr] at hr'
  cases hr'
  exact shape_of_predicateUpdates (Predicate.shape_congr _ _ hx) hu hv

theorem shape_of_exclusionUpdates (h : lookupShape l = lookupShape m)
    (hu : i.exclusionUpdates l = .ok us) (hv : i.exclusionUpdates m = .ok vs) :
    us.map Update.shape = vs.map Update.shape := by
  obtain ⟨hkey, hx⟩ := Prod.mk.inj h
  obtain ⟨⟨f, op⟩, hr, hu⟩ := bind_eq_ok.mp hu
  obtain ⟨⟨f', op'⟩, hr', hv⟩ := bind_eq_ok.mp hv
  rw [← hkey, hr] at hr'
  cases hr'
  obtain ⟨us', hus', hu⟩ := bind_eq_ok.mp hu
  obtain ⟨vs', hvs', hv⟩ := bind_eq_ok.mp hv
  cases hu
  cases hv
  rw [List.map_append, List.map_append,
    shape_of_predicateUpdates (Predicate.shape_congr _ _ hx) hus' hvs']

theorem shape_of_inequalityUpdates (h : lookupShape l = lookupShape m)
    (hu : i.inequalityUpdates l = .ok us) (hv : i.inequalityUpdates m = .ok vs) :
    us.map Update.shape = vs.map Update.shape := by
  obtain ⟨hkey, hx⟩ := Prod.mk.inj h
  obtain ⟨f, hr, hu⟩ := bind_eq_ok.mp hu
  obtain ⟨f', hr', hv⟩ := bind_eq_ok.mp hv
  rw [← hkey, hr] at hr'
  cases hr'
  exact shape_of_predicateUpdates (Predicate.shape_congr _ _ hx) hu hv

/-- Members of two lists that make changes of the same shape, one after another. -/
theorem shape_of_collect {α : Type} {changes : α → Except Error (List Update)}
    {alike : α → α → Prop} {as bs : List α} (hab : List.Forall₂ alike as bs)
    (hu : collect changes as = .ok us) (hv : collect changes bs = .ok vs)
    (h : ∀ {a b us vs}, alike a b → changes a = .ok us → changes b = .ok vs →
      us.map Update.shape = vs.map Update.shape) : us.map Update.shape = vs.map Update.shape := by
  obtain ⟨uss, huss, rfl⟩ := map_eq_ok.mp hu
  obtain ⟨vss, hvss, rfl⟩ := map_eq_ok.mp hv
  rw [List.map_flatten, List.map_flatten, map_eq_of_mapM hab huss hvss fun _ _ => h]

end Index

namespace Filter

variable {i : Index}

theorem shape_of_lookupCondition {key : String} {x y : Operand} (hx : x.shape = y.shape)
    {r : Resolver} {marker : String} {c d : Condition}
    (hc : lookupCondition r marker key x = .ok c) (hd : lookupCondition r marker key y = .ok d) :
    c.shape = d.shape := by
  obtain ⟨⟨f, op⟩, hr, hc⟩ := bind_eq_ok.mp hc
  obtain ⟨⟨f', op'⟩, hr', hd⟩ := bind_eq_ok.mp hd
  rw [hr] at hr'
  cases hr'
  obtain ⟨form, hform, hc⟩ := bind_eq_ok.mp hc
  obtain ⟨form', hform', hd⟩ := bind_eq_ok.mp hd
  have hshape := Predicate.shape_of_form (Predicate.shape_congr f op hx) hform hform'
  cases form with
  | fragment g =>
    cases form' with
    | fragment g' =>
      cases hc
      cases hd
      rw [Condition.shape, Condition.shape, PredicateForm.fragment.inj hshape]
    | search scope ts => cases hshape
    | comparison p => cases hshape
  | search scope ts => cases hc
  | comparison p =>
    cases form' with
    | fragment g => cases hshape
    | search scope ts => cases hd
    | comparison p' => exact Predicate.shape_of_ofLookup (PredicateForm.comparison.inj hshape) hc hd

/-- The conditions of filters that differ in their values differ in their parameters alone. -/
theorem shape_of_toCondition {r : Resolver} {marker : String} {f g : Filter} {c d : Condition}
    (h : f.shape = g.shape) (hc : f.toCondition r marker = .ok c)
    (hd : g.toCondition r marker = .ok d) : c.shape = d.shape := by
  have hlist : ∀ {fs gs : List Filter} {cs ds : List Condition},
      (∀ f ∈ fs, ∀ {g : Filter} {c d : Condition}, f.shape = g.shape →
        f.toCondition r marker = .ok c → g.toCondition r marker = .ok d → c.shape = d.shape) →
      shapes fs = shapes gs → fs.mapM (toCondition r marker) = .ok cs →
      gs.mapM (toCondition r marker) = .ok ds → Condition.shapes cs = Condition.shapes ds := by
    intro fs gs cs ds ih h hcs hds
    rw [shapes_eq_map, shapes_eq_map] at h
    rw [Condition.shapes_eq_map, Condition.shapes_eq_map]
    exact map_eq_of_mapM (forall₂_of_map_eq h) hcs hds ih
  induction f generalizing g c d with
  | lookup key x =>
    cases g with
    | lookup key' y =>
      obtain ⟨rfl, hx⟩ := Filter.lookup.inj h
      exact shape_of_lookupCondition hx hc hd
    | all gs => cases h
    | any gs => cases h
  | all fs ih =>
    cases g with
    | lookup key y => cases h
    | all gs =>
      obtain ⟨cs, hcs, rfl⟩ := toCondition_all_eq_ok hc
      obtain ⟨ds, hds, rfl⟩ := toCondition_all_eq_ok hd
      exact congrArg Condition.all (hlist ih (Filter.all.inj h) hcs hds)
    | any gs => cases h
  | any fs ih =>
    cases g with
    | lookup key y => cases h
    | all gs => cases h
    | any gs =>
      obtain ⟨cs, hcs, rfl⟩ := toCondition_any_eq_ok hc
      obtain ⟨ds, hds, rfl⟩ := toCondition_any_eq_ok hd
      exact congrArg Condition.any (hlist ih (Filter.any.inj h) hcs hds)

theorem lookup?_shape (f : Filter) : f.shape.lookup? = f.lookup?.map lookupShape := by
  cases f <;> rfl

theorem map_lookup?_eq {fs gs : List Filter} (h : fs.map shape = gs.map shape) :
    (fs.filterMap lookup?).map lookupShape = (gs.filterMap lookup?).map lookupShape := by
  have hshape : ∀ fs : List Filter,
      (fs.filterMap lookup?).map lookupShape = (fs.map shape).filterMap lookup? := by
    intro fs
    rw [List.map_filterMap, List.filterMap_map]
    exact List.filterMap_congr fun f _ => f.lookup?_shape.symm
  rw [hshape, hshape, h]

end Filter

/-! ## Shapes of calls and of runs -/

namespace Index

variable {i : Index} {us vs : List Update}

theorem shape_of_filterUpdates {f g : Filter} (h : f.shape = g.shape)
    (hu : i.filterUpdates f = .ok us) (hv : i.filterUpdates g = .ok vs) :
    us.map Update.shape = vs.map Update.shape := by
  have hgroup : ∀ {f g : Filter}, f.shape = g.shape →
      ((f.toCondition i.resolver i.settings.marker).map fun c => [Update.condition c]) = .ok us →
      ((g.toCondition i.resolver i.settings.marker).map fun c => [Update.condition c]) = .ok vs →
      us.map Update.shape = vs.map Update.shape := by
    intro f g h hu hv
    obtain ⟨c, hc, rfl⟩ := map_eq_ok.mp hu
    obtain ⟨d, hd, rfl⟩ := map_eq_ok.mp hv
    exact congrArg (fun c => [Update.condition c]) (Filter.shape_of_toCondition h hc hd)
  cases f with
  | lookup key x =>
    cases g with
    | lookup key' y =>
      obtain ⟨rfl, hx⟩ := Filter.lookup.inj h
      exact shape_of_lookupUpdates (l := (key, x)) (m := (key, y)) (congrArg (Prod.mk key) hx) hu hv
    | all gs => cases h
    | any gs => cases h
  | all fs =>
    cases g with
    | lookup key y => cases h
    | all gs => exact hgroup h hu hv
    | any gs => cases h
  | any fs =>
    cases g with
    | lookup key y => cases h
    | all gs => cases h
    | any gs => exact hgroup h hu hv

theorem shape_of_fieldTerms {b d : String × List String} (h : b.1 = d.1) {u v : Update}
    (hu : i.fieldTerms b = .ok u) (hv : i.fieldTerms d = .ok v) : u.shape = v.shape := by
  obtain ⟨f, hf, hu⟩ := bind_eq_ok.mp hu
  obtain ⟨f', hf', hv⟩ := bind_eq_ok.mp hv
  rw [← h, hf] at hf'
  cases hf'
  cases hu
  cases hv
  rfl

/-- Calls alike make changes of the same shape. -/
theorem shape_of_updates {c d : Call} (h : c.Alike d) (hu : i.updates c = .ok us)
    (hv : i.updates d = .ok vs) : us.map Update.shape = vs.map Update.shape := by
  have hlookups : ∀ {changes : String × Operand → Except Error (List Update)}
      {ls ms : List (String × Operand)},
      (∀ {l m us vs}, lookupShape l = lookupShape m → changes l = .ok us → changes m = .ok vs →
        us.map Update.shape = vs.map Update.shape) →
      ls.map lookupShape = ms.map lookupShape → collect changes ls = .ok us →
      collect changes ms = .ok vs → us.map Update.shape = vs.map Update.shape := by
    intro changes ls ms hchange h hu hv
    exact shape_of_collect (forall₂_of_map_eq h) hu hv hchange
  cases h with
  | filter h => exact hlookups shape_of_lookupUpdates h hu hv
  | exclude h => exact hlookups shape_of_exclusionUpdates h hu hv
  | notEqual h => exact hlookups shape_of_inequalityUpdates h hu hv
  | filterBy h => exact shape_of_filterUpdates h hu hv
  | excludeBy h =>
    simp only [updates] at hu hv
    split at hu
    · cases hu
    · split at hv
      · cases hv
      · exact hlookups shape_of_exclusionUpdates (Filter.map_lookup?_eq h) hu hv
  | matchText ts ts' =>
    cases hu
    cases hv
    rfl
  | matchField field ts ts' =>
    obtain ⟨u, hterms, rfl⟩ := map_eq_ok.mp hu
    obtain ⟨v, hterms', rfl⟩ := map_eq_ok.mp hv
    exact congrArg (fun u => [u])
      (shape_of_fieldTerms (b := (field, ts)) (d := (field, ts')) rfl hterms hterms')
  | matchAll ts ts' h =>
    obtain ⟨us, hus, rfl⟩ := map_eq_ok.mp hu
    obtain ⟨vs, hvs, rfl⟩ := map_eq_ok.mp hv
    have hterms : us.map Update.shape = vs.map Update.shape := by
      apply map_eq_of_mapM (forall₂_of_map_eq h) hus hvs
      intro b _ d u v hfield hu hv
      exact shape_of_fieldTerms hfield hu hv
    exact congrArg (Update.terms .anywhere [] :: ·) hterms
  | options os =>
    cases hu.symm.trans hv
    rfl
  | orderBy ts =>
    cases hu.symm.trans hv
    rfl
  | take count =>
    cases hu.symm.trans hv
    rfl
  | skip count =>
    cases hu.symm.trans hv
    rfl

end Index

namespace Query

theorem shape_update (q : Query) (u : Update) : (q.update u).shape = q.shape.update u.shape := by
  cases u with
  | condition c =>
    have hconditions : (q.base.conditions ++ [c]).map Condition.shape =
        q.base.conditions.map Condition.shape ++ [c.shape] := List.map_append
    simp only [update, shape, Select.shape, Select.withCondition, Update.shape, hconditions]
  | fragment f =>
    have hfragments : (q.clauses.fragments ++ [f]).map Fragment.shape =
        q.clauses.fragments.map Fragment.shape ++ [f.shape] := List.map_append
    simp only [update, shape, Clauses.shape, Clauses.withFragment, Update.shape, hfragments]
  | _ => rfl

/-- What changes do to a query, their shapes do to its shape. -/
theorem shape_updateAll (q : Query) (us : List Update) :
    (q.updateAll us).shape = q.shape.updateAll (us.map Update.shape) := by
  induction us generalizing q with
  | nil => rfl
  | cons u us ih =>
    have hrest := ih (q.update u)
    rw [shape_update] at hrest
    exact hrest

end Query

/-! ## Shapes of statements -/

namespace Statement

theorem shape_matchFragment (e : MatchExpr) : (matchFragment e).shape =
    if e.isEmpty then .empty else ⟨"MATCH(?)", [.null]⟩ := by
  unfold matchFragment MatchExpr.queryText?
  cases e.isEmpty <;> rfl

theorem shape_joined (b : Select) (c : Clauses) : (joined b c).shape =
    (c.shape.fragments.foldl Fragment.and b.shape.whereFragment).and
      (matchFragment c.matching).shape := by
  have hwhere : b.whereFragment.shape = b.shape.whereFragment := by
    have hfragments : (b.conditions.map Condition.toFragment).map Fragment.shape =
        (b.conditions.map Condition.shape).map Condition.toFragment := by
      rw [List.map_map, List.map_map]
      exact List.map_congr_left fun c _ => c.toFragment_shape.symm
    unfold Select.whereFragment
    rw [Fragment.shape_conjunction, hfragments]
    rfl
  unfold joined
  rw [Fragment.shape_and, Fragment.shape_foldl Fragment.shape_and, hwhere]
  rfl

/-- The text of a statement is the text of its shape. -/
theorem text_shape (b : Select) (c : Clauses) (f : Fragment) :
    text b.shape c.shape f.shape = text b c f := rfl

end Statement

namespace Index

variable {i : Index} {cs ds : List Call}

theorem exists_seeks_iff (h : List.Forall₂ (fun c d => i.Seeks c ↔ i.Seeks d) cs ds) :
    (∃ c ∈ cs, i.Seeks c) ↔ ∃ d ∈ ds, i.Seeks d := by
  induction h with
  | nil => rfl
  | cons hcd _ ih => simp only [List.exists_mem_cons_iff, hcd, ih]

/-- A run has something to search for if one of its calls looks for a term. -/
theorem isEmpty_matching {us : List Update} (hus : collect i.updates cs = .ok us)
    {q : Query} (h : i.Reaches us q) :
    q.clauses.matching.isEmpty = false ↔ ∃ c ∈ cs, i.Seeks c := by
  have hmatching : q.clauses.matching = MatchExpr.ofSearches (cs.flatMap i.searches) := by
    rw [h.matching, ← Update.flatMap_searches, (adds_collect adds_updates hus).searches]
    rfl
  rw [hmatching, MatchExpr.isEmpty_ofSearches]
  unfold Seeks
  constructor
  · rintro ⟨b, hb, ht⟩
    obtain ⟨c, hc, hb⟩ := List.mem_flatMap.mp hb
    exact ⟨c, hc, b, hb, ht⟩
  · rintro ⟨c, hc, b, hb, ht⟩
    exact ⟨b, List.mem_flatMap.mpr ⟨c, hc, hb⟩, ht⟩

/-- Two runs with calls alike, of which each looks for a term if the other does, reach statements
with the same text and with as many parameters. -/
theorem sql_eq_of_alike (hi : i.Valid) {q₀ q q' : Query} (hq₀ : i.query = .ok q₀)
    (h : List.Forall₂ (fun c d => c.Alike d ∧ (i.Seeks c ↔ i.Seeks d)) cs ds)
    (hq : q₀.applyAll cs = .ok q) (hq' : q₀.applyAll ds = .ok q') :
    ∃ s t, q.compile = .ok s ∧ q'.compile = .ok t ∧ s.sql = t.sql ∧
      s.params.length = t.params.length := by
  obtain ⟨us, hus, hreaches⟩ := reaches_of_applyAll hi hq₀ hq
  obtain ⟨vs, hvs, hreaches'⟩ := reaches_of_applyAll hi hq₀ hq'
  have hupdates : us.map Update.shape = vs.map Update.shape :=
    shape_of_collect (h.imp fun _ _ hcd => hcd.1) hus hvs shape_of_updates
  have hshape : q.shape = q'.shape := by
    rw [Query.applyAll_eq, index_of_query hq₀, hus] at hq
    rw [Query.applyAll_eq, index_of_query hq₀, hvs] at hq'
    cases hq
    cases hq'
    rw [Query.shape_updateAll, Query.shape_updateAll, hupdates]
  have hbase : q.base.shape = q'.base.shape := congrArg Query.base hshape
  have hclauses : q.clauses.shape = q'.clauses.shape := congrArg Query.clauses hshape
  have hmatching : q.clauses.matching.isEmpty = q'.clauses.matching.isEmpty := by
    have hiff := exists_seeks_iff (h.imp fun _ _ hcd => hcd.2)
    rw [← isEmpty_matching hus hreaches, ← isEmpty_matching hvs hreaches'] at hiff
    exact Bool.eq_iff_iff.mpr (by simpa using not_congr hiff)
  have hjoined : (Statement.joined q.base q.clauses).shape =
      (Statement.joined q'.base q'.clauses).shape := by
    rw [Statement.shape_joined, Statement.shape_joined, hbase, hclauses,
      Statement.shape_matchFragment, Statement.shape_matchFragment, hmatching]
  refine ⟨_, _, hreaches.compile_eq hi, hreaches'.compile_eq hi, ?_, ?_⟩
  · show Statement.text q.base q.clauses (Statement.joined q.base q.clauses) =
      Statement.text q'.base q'.clauses (Statement.joined q'.base q'.clauses)
    rw [← Statement.text_shape, hbase, hclauses, hjoined, Statement.text_shape]
  · exact (Fragment.shape_eq_iff.mp hjoined).2

/-- Calls of one shape for a form: a least price, tags, a title to leave out and terms. -/
def formCalls (price : Int64) (tag : Int64) (title : String) (ts : List String) : List Call :=
  [.filterBy (.any [.lookup "price__gte" (.scalar (.int price)),
      .lookup "tags__in" (.sequence [.int tag, .int 2])]),
    .notEqual [("title", .scalar (.text title))], .matchField "title" ts, .take 5]

theorem products_bound : ∃ q₀ q q' s t, products.query = .ok q₀ ∧
    List.Forall₂ (fun c d => c.Alike d ∧ (products.Seeks c ↔ products.Seeks d))
      (formCalls 3 7 "lamp" ["desk"]) (formCalls (-1) 0 "x' OR '?'='" ["') OR 1=1 --", "?"]) ∧
    q₀.applyAll (formCalls 3 7 "lamp" ["desk"]) = .ok q ∧
    q₀.applyAll (formCalls (-1) 0 "x' OR '?'='" ["') OR 1=1 --", "?"]) = .ok q' ∧
    q.compile = .ok s ∧ q'.compile = .ok t ∧ s.sql = t.sql := by
  obtain ⟨o, ho, hquery⟩ := query_eq_ok products_valid
  cases ho
  have hseeks : ∀ {c d : Call}, products.searches c = [] → products.searches d = [] →
      (products.Seeks c ↔ products.Seeks d) := by
    intro c d hc hd
    unfold Seeks
    rw [hc, hd]
  have halike : List.Forall₂ (fun c d => c.Alike d ∧ (products.Seeks c ↔ products.Seeks d))
      (formCalls 3 7 "lamp" ["desk"]) (formCalls (-1) 0 "x' OR '?'='" ["') OR 1=1 --", "?"]) := by
    refine .cons ⟨.filterBy rfl, hseeks rfl rfl⟩ (.cons ⟨.notEqual rfl, hseeks rfl rfl⟩
      (.cons ⟨.matchField _ _ _, ?_⟩ (.cons ⟨.take 5, Iff.rfl⟩ .nil)))
    exact iff_of_true ⟨_, List.mem_singleton_self _, "desk", List.mem_singleton_self _, by decide⟩
      ⟨_, List.mem_singleton_self _, "?", by decide, by decide⟩
  obtain ⟨s, t, hs, ht, hsql, -⟩ := sql_eq_of_alike products_valid hquery halike rfl rfl
  exact ⟨_, _, _, s, t, hquery, halike, rfl, rfl, hs, ht, hsql⟩

end Index

end IndexQuery
