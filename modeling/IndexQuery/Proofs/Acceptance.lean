import IndexQuery.Proofs.Addressing
import IndexQuery.Proofs.Group
import IndexQuery.Proofs.Update

/-!
# Lookups that are accepted

A lookup passes through checks in five places: its key is taken apart, a field and an operator
are found, and the values are brought to search terms, to a set or to a comparison.  `Refuses`
states all that can be wrong with a lookup, in the order in which it is noticed, with the error for
each; a lookup with none of it is accepted.

    i.resolver.resolve key = .ok (f, op) ↔ i.Designates key f op              (resolve_eq_ok_iff)
    (p.form marker >>= PredicateForm.updates) = .error e ↔ p.Refused e
                                                                 (form_bind_updates_eq_error_iff)
    i.lookupUpdates (key, x) = .error e ↔ i.Refuses key x e            (lookupUpdates_eq_error_iff)
    g.Compares i p → p.operator ≠ .search ∧ p.operator ≠ .notEqual              (Compares.operator)
    q.filter [(key, x)] = .error e ↔ q.index.Refuses key x e                   (filter_refuses_iff)
-/

namespace IndexQuery

open Outcome

/-! ## Algorithm -/

/-- A token names a field: the alias names the document id, and any other token the declared field
of that name. -/
inductive Index.TokenOf (i : Index) : String → Field → Prop where
  | key : TokenOf i i.settings.keyAlias i.schema.primaryKey
  | declared {f : Field} (hf : f ∈ i.schema.fields) (hname : f.name ≠ i.settings.keyAlias) :
    TokenOf i f.name f

/-- A key designates a field and an operator, equality if it states none. -/
inductive Index.Designates (i : Index) (key : String) : Field → Operator → Prop where
  | plain {token : String} {f : Field} (htokens : LookupKey.tokens key = [token])
    (hne : token ≠ "") (htoken : i.TokenOf token f) : Designates i key f .exact
  | stated {token : String} {f : Field} {op : Operator}
    (htokens : LookupKey.tokens key = [token, op.name]) (hne : token ≠ "")
    (htoken : i.TokenOf token f) : Designates i key f op

/-- Values without text that could be searched for. -/
def Value.IsTextless (v : Value) : Prop := v = .null ∨ ∃ t, v = .timestamp t

/-- What is wrong with the values of an operand, of which only one operator takes several. -/
inductive Field.Misfits (f : Field) (op : Operator) : Operand → Misfit → Prop where
  | noValues (hop : op = .oneOf) : Misfits f op (.sequence []) .noValues
  | several {vs : List Value} (hop : op ≠ .oneOf) : Misfits f op (.sequence vs) (.several op)
  | value {x : Operand} {pre post : List Value} {v : Value} {m : Misfit}
    (hop : op ≠ .oneOf → ∃ w, x = .scalar w) (hx : x.values = pre ++ v :: post)
    (hpre : ∀ u ∈ pre, ∃ p, u.coerce f = .ok p) (hv : v.coerce f = .error m) : Misfits f op x m

/-- What a predicate is refused for. -/
inductive Predicate.Refused : Predicate → Error → Prop where
  | textless {f : Field} {x : Operand} {pre post : List Value} {v : Value}
    (hx : x.values = pre ++ v :: post) (hpre : ∀ u ∈ pre, ¬u.IsTextless) (hv : v.IsTextless) :
    Refused ⟨f, .search, x⟩ ((Misfit.notMatchText v).toError f)
  | setInequality {f : Field} {x : Operand} (hset : f.isMultiValue = true) :
    Refused ⟨f, .notEqual, x⟩ (.unsupportedLookup f.name "notequal")
  | misfit {f : Field} {op : Operator} {x : Operand} {m : Misfit} (hsearch : op ≠ .search)
    (hset : f.isMultiValue = true → op ≠ .notEqual) (h : f.Misfits op x m) :
    Refused ⟨f, op, x⟩ (m.toError f)

/-- What a lookup is refused for, in the order in which it is noticed. -/
inductive Index.Refuses (i : Index) (key : String) (x : Operand) : Error → Prop where
  | nested (hlen : 2 < (LookupKey.tokens key).length) :
    Refuses i key x (.invalidLookup key "nested lookups not supported")
  | empty (hlen : (LookupKey.tokens key).length ≤ 2) (h : "" ∈ LookupKey.tokens key) :
    Refuses i key x (.invalidLookup key "empty field or operator")
  | field {token : String} {operator : Option String}
    (htokens : LookupKey.tokens key = token :: operator.toList)
    (hne : "" ∉ LookupKey.tokens key) (halias : token ≠ i.settings.keyAlias)
    (hfields : ∀ f ∈ i.schema.fields, f.name ≠ token) :
    Refuses i key x (.unknownField i.schema.index token)
  | operator {token name : String} {f : Field} (htokens : LookupKey.tokens key = [token, name])
    (hne : "" ∉ LookupKey.tokens key) (htoken : i.TokenOf token f)
    (hop : ∀ op : Operator, op.name ≠ name) : Refuses i key x (.unsupportedLookup f.name name)
  | predicate {f : Field} {op : Operator} {e : Error} (hkey : i.Designates key f op)
    (he : Predicate.Refused ⟨f, op, x⟩ e) : Refuses i key x e

/-- A filter has the base query compare a field with an operand, at any depth. -/
inductive Filter.Compares (i : Index) : Filter → Predicate → Prop where
  | lookup {key : String} {x : Operand} {f : Field} {op : Operator} {p : Predicate}
    (hkey : i.resolver.resolve key = .ok (f, op))
    (hform : Predicate.form i.settings.marker ⟨f, op, x⟩ = .ok (.comparison p)) :
    Compares i (.lookup key x) p
  | all {fs : List Filter} {f : Filter} {p : Predicate} (hf : f ∈ fs) (h : Compares i f p) :
    Compares i (.all fs) p
  | any {fs : List Filter} {f : Filter} {p : Predicate} (hf : f ∈ fs) (h : Compares i f p) :
    Compares i (.any fs) p

/-! ## Fields and operators -/

namespace Operator

theorem ofName?_eq_some_iff {s : String} {op : Operator} : ofName? s = some op ↔ op.name = s :=
  ⟨name_of_ofName?, fun h => h ▸ ofName?_name op⟩

theorem ofName?_eq_none_iff {s : String} : ofName? s = none ↔ ∀ op : Operator, op.name ≠ s := by
  simp only [Option.eq_none_iff_forall_ne_some, ne_eq, ofName?_eq_some_iff]

end Operator

namespace Index

variable {i : Index} {key : String} {f : Field} {op : Operator} {e : Error}

theorem resolveField_eq_ok_iff (hi : i.Valid) {token : String} :
    i.resolver.resolveField token = .ok f ↔ i.TokenOf token f := by
  constructor
  · intro h
    unfold Resolver.resolveField at h
    split at h
    · next halias =>
      cases h
      exact halias ▸ .key
    · next halias =>
      split at h
      · next g hg =>
        cases h
        obtain rfl := Schema.name_of_field? hg
        exact .declared (Schema.mem_of_field? hg) halias
      · cases h
  · intro h
    cases h with
    | key => exact Resolver.resolveField_alias
    | declared hf hname => exact Resolver.resolveField_name hi.sound hf hname

theorem resolveField_eq_error_iff {token : String} :
    i.resolver.resolveField token = .error e ↔ token ≠ i.settings.keyAlias ∧
      (∀ f ∈ i.schema.fields, f.name ≠ token) ∧ e = .unknownField i.schema.index token := by
  have hnone : i.schema.field? token = none ↔ ∀ f ∈ i.schema.fields, f.name ≠ token := by
    simp [Schema.field?]
  unfold Resolver.resolveField
  by_cases halias : token = i.settings.keyAlias
  · simp [resolver, halias]
  · rw [← hnone]
    cases hfield : i.schema.field? token with
    | none => simp [resolver, halias, hfield, eq_comm]
    | some f => simp [resolver, halias, hfield]

theorem operatorFor_eq_ok_iff {operator : Option String} :
    Resolver.operatorFor f operator = .ok op ↔
      (operator = none ∧ op = .exact) ∨ operator = some op.name := by
  unfold Resolver.operatorFor
  cases operator with
  | none => simp [eq_comm]
  | some name =>
    have hname : some name = some op.name ↔ Operator.ofName? name = some op := by
      rw [Option.some_inj, eq_comm, Operator.ofName?_eq_some_iff]
    rw [hname]
    dsimp only
    cases Operator.ofName? name with
    | none => simp
    | some o => simp

theorem operatorFor_eq_error_iff {operator : Option String} :
    Resolver.operatorFor f operator = .error e ↔ ∃ name, operator = some name ∧
      (∀ op : Operator, op.name ≠ name) ∧ e = .unsupportedLookup f.name name := by
  unfold Resolver.operatorFor
  cases operator with
  | none => simp
  | some name =>
    simp only [Option.some_inj, exists_eq_left', ← Operator.ofName?_eq_none_iff]
    cases Operator.ofName? name with
    | none => simp [eq_comm]
    | some o => simp

theorem resolve_eq_ok_iff (hi : i.Valid) :
    i.resolver.resolve key = .ok (f, op) ↔ i.Designates key f op := by
  constructor
  · intro h
    obtain ⟨k, hk, h⟩ := bind_eq_ok.mp h
    obtain ⟨g, hg, h⟩ := bind_eq_ok.mp h
    obtain ⟨o, ho, h⟩ := bind_eq_ok.mp h
    cases h
    obtain ⟨htokens, hempty⟩ := LookupKey.parse_eq_ok_iff.mp hk
    have htoken := (resolveField_eq_ok_iff hi).mp hg
    have hne : k.field ≠ "" := fun h => hempty (htokens ▸ h ▸ List.mem_cons_self)
    rcases operatorFor_eq_ok_iff.mp ho with ⟨hnone, rfl⟩ | hsome
    · rw [hnone] at htokens
      exact .plain htokens hne htoken
    · rw [hsome] at htokens
      exact .stated htokens hne htoken
  · intro h
    cases h with
    | @plain token f htokens hne htoken =>
      have hk : LookupKey.parse key = .ok ⟨token, none⟩ :=
        LookupKey.parse_eq_ok_iff.mpr ⟨htokens, by simp [htokens, hne.symm]⟩
      have hf := (resolveField_eq_ok_iff hi).mpr htoken
      exact bind_eq_ok.mpr ⟨_, hk, bind_eq_ok.mpr ⟨f, hf, rfl⟩⟩
    | @stated token f op htokens hne htoken =>
      have hname : op.name ≠ "" := by cases op <;> decide
      have hk : LookupKey.parse key = .ok ⟨token, some op.name⟩ :=
        LookupKey.parse_eq_ok_iff.mpr ⟨htokens, by simp [htokens, hne.symm, hname.symm]⟩
      have hf := (resolveField_eq_ok_iff hi).mpr htoken
      have hop : Resolver.operatorFor f (some op.name) = .ok op :=
        operatorFor_eq_ok_iff.mpr (.inr rfl)
      exact bind_eq_ok.mpr ⟨_, hk, bind_eq_ok.mpr ⟨f, hf, bind_eq_ok.mpr ⟨op, hop, rfl⟩⟩⟩

/-- What is wrong with a key, whatever it is compared with. -/
theorem resolve_eq_error_iff (hi : i.Valid) : i.resolver.resolve key = .error e ↔
    LookupKey.parse key = .error e ∨ ∃ k, LookupKey.parse key = .ok k ∧
      (i.resolver.resolveField k.field = .error e ∨
        ∃ f, i.TokenOf k.field f ∧ Resolver.operatorFor f k.operator = .error e) := by
  unfold Resolver.resolve
  rw [bind_eq_error]
  refine or_congr_right (exists_congr fun k => and_congr_right fun _ => ?_)
  rw [bind_eq_error]
  refine or_congr_right (exists_congr fun f => ?_)
  rw [resolveField_eq_ok_iff hi, bind_eq_error]
  exact and_congr_right fun _ => ⟨fun h => h.resolve_right nofun, .inl⟩

end Index

/-! ## Predicates -/

theorem Value.matchText?_eq_none_iff {v : Value} : v.matchText? = none ↔ v.IsTextless := by
  unfold IsTextless
  cases v <;> simp [matchText?]

namespace Field

variable {f : Field} {op : Operator} {x : Operand} {e : Error}

theorem bind_eq_error_iff {v : Value} :
    f.bind v = .error e ↔ ∃ m, v.coerce f = .error m ∧ m.toError f = e := mapError_eq_error

theorem bindAll_eq_error_iff {vs : List Value} : f.bindAll vs = .error e ↔
    ∃ pre v post m, vs = pre ++ v :: post ∧ (∀ u ∈ pre, ∃ p, u.coerce f = .ok p) ∧
      v.coerce f = .error m ∧ m.toError f = e := by
  have hok : ∀ u : Value, (∃ p, f.bind u = .ok p) ↔ ∃ p, u.coerce f = .ok p :=
    fun u => exists_congr fun p => mapError_eq_ok
  unfold bindAll
  rw [mapM_eq_error_iff]
  simp only [hok, bind_eq_error_iff]
  constructor
  · rintro ⟨pre, v, post, hvs, hpre, m, hm, he⟩
    exact ⟨pre, v, post, m, hvs, hpre, hm, he⟩
  · rintro ⟨pre, v, post, m, hvs, hpre, hm, he⟩
    exact ⟨pre, v, post, hvs, hpre, m, hm, he⟩

/-- An operator that takes one value. -/
theorem bindSingle_eq_error_iff (hop : op ≠ .oneOf) :
    f.bindSingle op x = .error e ↔ ∃ m, f.Misfits op x m ∧ m.toError f = e := by
  cases x with
  | scalar v =>
    constructor
    · intro h
      obtain ⟨m, hm, he⟩ := bind_eq_error_iff.mp h
      exact ⟨m, .value (fun _ => ⟨v, rfl⟩) (show _ = [] ++ v :: [] from rfl) nofun hm, he⟩
    · rintro ⟨m, hmisfit, he⟩
      cases hmisfit with
      | @value _ pre post w _ _ hx _ hm =>
        obtain ⟨rfl, rfl⟩ : v = w ∧ pre = [] := by
          cases pre <;> simp_all [Operand.values]
        exact bind_eq_error_iff.mpr ⟨m, hm, he⟩
  | sequence vs =>
    constructor
    · intro h
      cases h
      exact ⟨_, .several hop, rfl⟩
    · rintro ⟨m, hmisfit, he⟩
      cases hmisfit with
      | noValues h => exact absurd h hop
      | several => exact congrArg Except.error he
      | value h =>
        obtain ⟨w, hw⟩ := h hop
        cases hw

theorem misfits_of_nil (hx : x.values = []) {m : Misfit} :
    f.Misfits .oneOf x m ↔ m = .noValues := by
  constructor
  · intro h
    cases h with
    | noValues => rfl
    | several hop => exact absurd rfl hop
    | value _ hv =>
      rw [hx] at hv
      simp at hv
  · rintro rfl
    cases x with
    | scalar v => cases hx
    | sequence vs =>
      obtain rfl : vs = [] := hx
      exact .noValues rfl

/-- Membership takes any number of values but none. -/
theorem bindAll_values_eq_error_iff (hx : x.values ≠ []) :
    f.bindAll x.values = .error e ↔ ∃ m, f.Misfits .oneOf x m ∧ m.toError f = e := by
  rw [bindAll_eq_error_iff]
  constructor
  · rintro ⟨pre, v, post, m, hv, hpre, hm, he⟩
    exact ⟨m, .value (fun h => absurd rfl h) hv hpre hm, he⟩
  · rintro ⟨m, hmisfit, he⟩
    cases hmisfit with
    | noValues => exact absurd rfl hx
    | several hop => exact absurd rfl hop
    | value _ hv hpre hm => exact ⟨_, _, _, m, hv, hpre, hm, he⟩

end Field

namespace Predicate

variable {f : Field} {op : Operator} {x : Operand} {e : Error}

theorem refused_iff_misfits (hsearch : op ≠ .search)
    (hset : f.isMultiValue = true → op ≠ .notEqual) :
    Refused ⟨f, op, x⟩ e ↔ ∃ m, f.Misfits op x m ∧ m.toError f = e := by
  constructor
  · intro h
    cases h with
    | textless => exact absurd rfl hsearch
    | setInequality h => exact absurd rfl (hset h)
    | misfit _ _ h => exact ⟨_, h, rfl⟩
  · rintro ⟨m, h, rfl⟩
    exact .misfit hsearch hset h

theorem matchTerms_eq_error_iff :
    matchTerms f x = .error e ↔ Refused ⟨f, .search, x⟩ e := by
  unfold matchTerms
  rw [mapM_eq_error_iff]
  constructor
  · rintro ⟨pre, v, post, hx, hpre, hv⟩
    split at hv
    · cases hv
    · next htext =>
      cases hv
      refine .textless hx (fun u hu htextless => ?_) (Value.matchText?_eq_none_iff.mp htext)
      obtain ⟨t, ht⟩ := hpre u hu
      rw [Value.matchText?_eq_none_iff.mpr htextless] at ht
      cases ht
  · intro h
    cases h with
    | textless hx hpre hv =>
      refine ⟨_, _, _, hx, fun u hu => ?_, ?_⟩
      · have hsome := mt Value.matchText?_eq_none_iff.mp (hpre u hu)
        obtain ⟨t, ht⟩ := Option.ne_none_iff_exists'.mp hsome
        exact ⟨t, by rw [ht]⟩
      · rw [Value.matchText?_eq_none_iff.mpr hv]
    | misfit hsearch => exact absurd rfl hsearch

theorem inequalityFragment_eq_error_iff {marker : String} (hset : f.isMultiValue = false) :
    inequalityFragment marker f x = .error e ↔ Refused ⟨f, .notEqual, x⟩ e := by
  have hscalar : f.isMultiValue = true → Operator.notEqual ≠ .notEqual := by simp [hset]
  rw [refused_iff_misfits (by decide) hscalar]
  exact map_eq_error.trans (Field.bindSingle_eq_error_iff (by decide))

theorem ofLookup_eq_error_iff (hsearch : op ≠ .search) (hne : op ≠ .notEqual) :
    Condition.ofLookup f op x = .error e ↔ Refused ⟨f, op, x⟩ e := by
  rw [refused_iff_misfits hsearch fun _ => hne]
  have hsingle : ∀ {o : Operator} {g : Param → Condition}, o ≠ .oneOf →
      ((f.bindSingle o x).map g = .error e ↔ ∃ m, f.Misfits o x m ∧ m.toError f = e) :=
    fun ho => map_eq_error.trans (Field.bindSingle_eq_error_iff ho)
  cases op with
  | oneOf =>
    simp only [Condition.ofLookup]
    split
    · next hx => simp [Field.misfits_of_nil (List.isEmpty_iff.mp hx)]
    · next hx =>
      exact map_eq_error.trans (Field.bindAll_values_eq_error_iff (mt List.isEmpty_iff.mpr hx))
  | exact => exact hsingle (by decide)
  | greater => exact hsingle (by decide)
  | greaterEqual => exact hsingle (by decide)
  | less => exact hsingle (by decide)
  | lessEqual => exact hsingle (by decide)
  | search => exact absurd rfl hsearch
  | notEqual => exact absurd rfl hne

/-- A set binds its values before it asks whether there are any, and a comparison the other way
round; no operand has both wrong. -/
theorem setFragment_eq_error_iff (hset : f.isMultiValue = true) (hsearch : op ≠ .search) :
    setFragment f op x = .error e ↔ Refused ⟨f, op, x⟩ e := by
  have hsingle : ∀ {sql : String}, op ≠ .oneOf → op ≠ .notEqual →
      setComparison? f.storageColumn op = some sql →
      (setFragment f op x = .error e ↔ Refused ⟨f, op, x⟩ e) := by
    intro sql honeOf hne hsql
    unfold setFragment
    rw [if_neg honeOf, hsql, refused_iff_misfits hsearch fun _ => hne]
    exact map_eq_error.trans (Field.bindSingle_eq_error_iff honeOf)
  cases op with
  | oneOf =>
    rw [refused_iff_misfits hsearch fun _ => by decide]
    unfold setFragment
    rw [if_pos rfl]
    by_cases hx : x.values = []
    · have hbind : f.bindAll x.values = .ok [] := by
        rw [hx]
        rfl
      rw [hbind]
      simp [Field.misfits_of_nil hx, bind, Except.bind]
    · rw [bind_eq_error, ← Field.bindAll_values_eq_error_iff hx]
      refine ⟨fun h => h.resolve_right ?_, .inl⟩
      rintro ⟨ps, hps, h⟩
      have hne : ps.isEmpty = false := by
        cases ps with
        | nil =>
          have hlen := Field.length_of_bindAll hps
          exact absurd (List.eq_nil_of_length_eq_zero hlen.symm) hx
        | cons p ps => rfl
      simp [hne, pure, Except.pure] at h
  | notEqual =>
    constructor
    · intro h
      cases h
      exact .setInequality hset
    · intro h
      cases h with
      | setInequality => rfl
      | misfit _ hne => exact absurd rfl (hne hset)
  | exact => exact hsingle (by decide) (by decide) rfl
  | greater => exact hsingle (by decide) (by decide) rfl
  | greaterEqual => exact hsingle (by decide) (by decide) rfl
  | less => exact hsingle (by decide) (by decide) rfl
  | lessEqual => exact hsingle (by decide) (by decide) rfl
  | search => exact absurd rfl hsearch

theorem form_bind_updates_eq_error_iff {marker : String} {p : Predicate} :
    (p.form marker >>= PredicateForm.updates) = .error e ↔ p.Refused e := by
  obtain ⟨f, op, x⟩ := p
  have hmapped : ∀ {α : Type} {g : α → PredicateForm} {y : Except Error α},
      (∀ a, ∃ us, (g a).updates = .ok us) →
      ((y.map g >>= PredicateForm.updates) = .error e ↔ y = .error e) := by
    intro α g y hg
    cases y with
    | error d => simp [Except.map, bind, Except.bind]
    | ok a =>
      obtain ⟨us, hus⟩ := hg a
      show (g a).updates = .error e ↔ _
      rw [hus]
      exact ⟨nofun, nofun⟩
  unfold form
  split
  · next hop =>
    obtain rfl : op = .search := hop
    rw [hmapped fun _ => ⟨_, rfl⟩, matchTerms_eq_error_iff]
  · next hsearch =>
    split
    · next hset => rw [hmapped fun _ => ⟨_, rfl⟩, setFragment_eq_error_iff hset hsearch]
    · next hset =>
      split
      · next hop =>
        obtain rfl : op = .notEqual := hop
        rw [hmapped fun _ => ⟨_, rfl⟩,
          inequalityFragment_eq_error_iff (eq_false_of_ne_true hset)]
      · next hne => exact map_eq_error.trans (ofLookup_eq_error_iff hsearch hne)

end Predicate

/-! ## Lookups -/

namespace Index

variable {i : Index} {key : String} {x : Operand} {e : Error}

theorem lookupUpdates_eq_error_iff (hi : i.Valid) :
    i.lookupUpdates (key, x) = .error e ↔ i.Refuses key x e := by
  unfold lookupUpdates
  rw [bind_eq_error]
  constructor
  · rintro (h | ⟨⟨f, op⟩, hkey, h⟩)
    · rcases (resolve_eq_error_iff hi).mp h with h | ⟨k, hk, h⟩
      · rcases LookupKey.parse_eq_error_iff.mp h with ⟨hlen, rfl⟩ | ⟨hlen, hempty, rfl⟩
        · exact .nested hlen
        · exact .empty hlen hempty
      · obtain ⟨htokens, hne⟩ := LookupKey.parse_eq_ok_iff.mp hk
        rcases h with h | ⟨f, htoken, h⟩
        · obtain ⟨halias, hfields, rfl⟩ := resolveField_eq_error_iff.mp h
          exact .field htokens hne halias hfields
        · obtain ⟨name, hname, hop, rfl⟩ := operatorFor_eq_error_iff.mp h
          rw [hname] at htokens
          exact .operator htokens hne htoken hop
    · exact .predicate ((resolve_eq_ok_iff hi).mp hkey)
        (Predicate.form_bind_updates_eq_error_iff.mp h)
  · intro h
    cases h with
    | nested hlen =>
      have hkey := LookupKey.parse_eq_error_iff.mpr (.inl ⟨hlen, rfl⟩)
      exact .inl ((resolve_eq_error_iff hi).mpr (.inl hkey))
    | empty hlen h =>
      have hkey := LookupKey.parse_eq_error_iff.mpr (.inr ⟨hlen, h, rfl⟩)
      exact .inl ((resolve_eq_error_iff hi).mpr (.inl hkey))
    | @field token operator htokens hne halias hfields =>
      have hkey : LookupKey.parse key = .ok ⟨token, operator⟩ :=
        LookupKey.parse_eq_ok_iff.mpr ⟨htokens, hne⟩
      have hfield := resolveField_eq_error_iff.mpr ⟨halias, hfields, rfl⟩
      exact .inl ((resolve_eq_error_iff hi).mpr (.inr ⟨_, hkey, .inl hfield⟩))
    | @operator token name f htokens hne htoken hop =>
      have hkey : LookupKey.parse key = .ok ⟨token, some name⟩ :=
        LookupKey.parse_eq_ok_iff.mpr ⟨htokens, hne⟩
      have hoperator : Resolver.operatorFor f (some name) = .error _ :=
        operatorFor_eq_error_iff.mpr ⟨name, rfl, hop, rfl⟩
      exact .inl ((resolve_eq_error_iff hi).mpr (.inr ⟨_, hkey, .inr ⟨f, htoken, hoperator⟩⟩))
    | predicate hkey he =>
      exact .inr ⟨_, (resolve_eq_ok_iff hi).mpr hkey,
        Predicate.form_bind_updates_eq_error_iff.mpr he⟩

theorem Designates.unique (hi : i.Valid) {f g : Field} {op o : Operator}
    (h : i.Designates key f op) (h' : i.Designates key g o) : f = g ∧ op = o := by
  have heq := ((resolve_eq_ok_iff hi).mpr h).symm.trans ((resolve_eq_ok_iff hi).mpr h')
  cases heq
  exact ⟨rfl, rfl⟩

theorem mem_of_designates (hi : i.Valid) {f : Field} {op : Operator} (h : i.Designates key f op) :
    f ∈ i.schema.fields := Resolver.mem_of_resolve hi.sound ((resolve_eq_ok_iff hi).mpr h)

/-- An operator is not supported if there is none of its name, or if it is inequality and the field
holds sets. -/
theorem Refuses.unsupportedLookup {name lookup : String}
    (h : i.Refuses key x (.unsupportedLookup name lookup)) :
    ((∀ f op, ¬i.Designates key f op) ∧ ∀ op : Operator, op.name ≠ lookup) ∨
      ∃ f, i.Designates key f .notEqual ∧ f.isMultiValue = true ∧ f.name = name ∧
        lookup = Operator.notEqual.name := by
  cases h with
  | operator htokens hne htoken hop =>
    refine .inl ⟨fun f op hkey => ?_, hop⟩
    cases hkey with
    | plain hplain =>
      rw [htokens] at hplain
      cases hplain
    | stated hstated =>
      rw [htokens] at hstated
      cases hstated
      exact hop op rfl
  | predicate hkey he =>
    generalize hp : Error.unsupportedLookup name lookup = e at he
    cases he with
    | textless => cases hp
    | setInequality hset =>
      cases hp
      exact .inr ⟨_, hkey, hset, rfl, rfl⟩
    | misfit => cases hp

end Index

/-! ## Filters -/

namespace Filter

variable {i : Index} {e : Error}

/-- The error of a tree is the error of one of its lookups. -/
theorem exists_of_toCondition {r : Resolver} {marker : String} {g : Filter}
    (h : g.toCondition r marker = .error e) :
    ∃ key x, lookupCondition r marker key x = .error e := by
  have hgroup : ∀ {fs : List Filter} {join : List Condition → Condition},
      (∀ f ∈ fs, f.toCondition r marker = .error e →
        ∃ key x, lookupCondition r marker key x = .error e) →
      (toConditions r marker fs).map join = .error e →
      ∃ key x, lookupCondition r marker key x = .error e := by
    intro fs join ih h
    rw [map_eq_error, toConditions_eq_mapM, mapM_eq_error_iff] at h
    obtain ⟨pre, f, post, rfl, -, hf⟩ := h
    exact ih f (List.mem_append_right pre List.mem_cons_self) hf
  induction g with
  | lookup key x => exact ⟨key, x, h⟩
  | all fs ih => exact hgroup ih h
  | any fs ih => exact hgroup ih h

theorem refuses_of_lookupCondition (hi : i.Valid) {key : String} {x : Operand}
    (h : lookupCondition i.resolver i.settings.marker key x = .error e) :
    i.Refuses key x e ∨ ∃ f : Field, e =
      .unsupportedLookup f.name (Operator.search.name ++ " inside a compound filter") := by
  have hupdates : ∀ {f op}, i.resolver.resolve key = .ok (f, op) →
      i.predicateUpdates ⟨f, op, x⟩ = .error e → i.Refuses key x e := by
    intro f op hkey h
    exact (Index.lookupUpdates_eq_error_iff hi).mp (bind_eq_error.mpr (.inr ⟨_, hkey, h⟩))
  rcases bind_eq_error.mp h with h | ⟨⟨f, op⟩, hkey, h⟩
  · exact .inl ((Index.lookupUpdates_eq_error_iff hi).mp (bind_eq_error.mpr (.inl h)))
  · rcases bind_eq_error.mp h with h | ⟨form, hform, h⟩
    · exact .inl (hupdates hkey (bind_eq_error.mpr (.inl h)))
    · cases form with
      | fragment g => cases h
      | search scope ts =>
        cases h
        rcases Predicate.form_eq_ok hform with ⟨hop, -⟩ | ⟨-, g, hg, -⟩ | ⟨-, -, -, hp⟩
        · obtain rfl : op = .search := hop
          exact .inr ⟨f, rfl⟩
        · cases hg
        · cases hp
      | comparison p =>
        have hp : PredicateForm.updates (.comparison p) = .error e := map_eq_error.mpr h
        exact .inl (hupdates hkey (bind_eq_error.mpr (.inr ⟨_, hform, hp⟩)))

/-- The error of a filter is one that a lookup is refused with, or tells of search terms in a
group. -/
theorem refuses_of_filterUpdates (hi : i.Valid) {g : Filter} (h : i.filterUpdates g = .error e) :
    (∃ key x, i.Refuses key x e) ∨ ∃ f : Field, e =
      .unsupportedLookup f.name (Operator.search.name ++ " inside a compound filter") := by
  have hgroup : g.toCondition i.resolver i.settings.marker = .error e →
      (∃ key x, i.Refuses key x e) ∨ ∃ f : Field, e =
        .unsupportedLookup f.name (Operator.search.name ++ " inside a compound filter") := by
    intro h
    obtain ⟨key, x, hlookup⟩ := exists_of_toCondition h
    exact (refuses_of_lookupCondition hi hlookup).imp_left fun h => ⟨key, x, h⟩
  cases g with
  | lookup key x => exact .inl ⟨key, x, (Index.lookupUpdates_eq_error_iff hi).mp h⟩
  | all fs => exact hgroup (map_eq_error.mp h)
  | any fs => exact hgroup (map_eq_error.mp h)

/-- No comparison of the base query is a search or an inequality. -/
theorem Compares.operator {g : Filter} {p : Predicate} (h : g.Compares i p) :
    p.operator ≠ .search ∧ p.operator ≠ .notEqual := by
  induction h with
  | lookup _ hform =>
    obtain ⟨rfl, hsearch, hne, -⟩ := Predicate.eq_of_form_comparison hform
    exact ⟨hsearch, hne⟩
  | all _ _ ih => exact ih
  | any _ _ ih => exact ih

end Filter

namespace Query

/-- On a valid index a lookup fails if and only if something is wrong with it, with the error for
the first such thing, and it is accepted otherwise.  A key with an operator is not refused for the
operator if its field holds single values.  No search and no inequality is left to the base query,
at any depth of a filter, so an operator that exists is refused only as inequality on a set. -/
theorem filter_refuses_iff {q : Query} (hi : q.index.Valid) :
    (∀ key x e, q.filter [(key, x)] = .error e ↔ q.index.Refuses key x e) ∧
      (∀ key x, (∃ q', q.filter [(key, x)] = .ok q') ↔ ∀ e, ¬q.index.Refuses key x e) ∧
      (∀ key x f op, q.index.Designates key f op → f.isMultiValue = false →
        ∀ name lookup, q.filter [(key, x)] ≠ .error (.unsupportedLookup name lookup)) ∧
      (∀ (g : Filter) p, g.Compares q.index p → p.operator ≠ .search ∧ p.operator ≠ .notEqual) ∧
      ∀ g name lookup, q.filterBy g = .error (.unsupportedLookup name lookup) →
        (∀ op : Operator, op.name ≠ lookup) ∨ (lookup = Operator.notEqual.name ∧
          ∃ f ∈ q.index.schema.fields, f.isMultiValue = true ∧ f.name = name) := by
  have hrefuses : ∀ key x e, q.filter [(key, x)] = .error e ↔ q.index.Refuses key x e := by
    intro key x e
    rw [filter_eq, collect_singleton, map_eq_error, Index.lookupUpdates_eq_error_iff hi]
  refine ⟨hrefuses, fun key x => ?_, fun key x f op hkey hscalar name lookup h => ?_,
    fun g p hp => hp.operator, fun g name lookup h => ?_⟩
  · simp only [← hrefuses]
    cases q.filter [(key, x)] <;> simp
  · rcases ((hrefuses key x _).mp h).unsupportedLookup with ⟨hnone, -⟩ | ⟨g, hkey', hset, -⟩
    · exact hnone f op hkey
    · obtain ⟨rfl, -⟩ := hkey.unique hi hkey'
      rw [hscalar] at hset
      cases hset
  · rw [filterBy_eq, map_eq_error] at h
    rcases Filter.refuses_of_filterUpdates hi h with ⟨key, x, hrefused⟩ | ⟨f, hf⟩
    · rcases hrefused.unsupportedLookup with ⟨-, hop⟩ | ⟨f, hkey, hset, hname, hlookup⟩
      · exact .inl hop
      · exact .inr ⟨hlookup, f, Index.mem_of_designates hi hkey, hset, hname⟩
    · cases hf
      exact .inl fun op => by cases op <;> decide

/-- The price of a product. -/
def priceField : Field := (Field.scalar "price" .integer).withColumn "price_attr"

/-- On products: a field that is not declared, an operator that does not exist, an inequality on
tags, and a second price that is no number. -/
theorem products_refusals : Index.products.Valid ∧ ∃ q, Index.products.query = .ok q ∧
    q.filter [("size__like", .scalar .null)] = .error (.unknownField "products" "size") ∧
    q.filter [("price__like", .sequence [])] = .error (.unsupportedLookup "price" "like") ∧
    q.filter [("tags__notequal", .sequence [])] = .error (.unsupportedLookup "tags" "notequal") ∧
    q.filter [("price__in", .sequence [.int 3, .text "x", .null])] =
      .error (.invalidValue "price" "'x' is not an integer") := by
  have hvalid := Index.products_valid
  obtain ⟨q, hq⟩ : ∃ q, Index.products.query = .ok q := ⟨_, rfl⟩
  have hindex : q.index = Index.products := by
    cases hq
    rfl
  obtain ⟨hrefuses, -⟩ := filter_refuses_iff (q := q) (hindex ▸ hvalid)
  rw [hindex] at hrefuses
  have hprice : Index.products.TokenOf "price" priceField :=
    .declared (show priceField ∈ Index.products.schema.fields by decide) (by decide)
  have htags : Index.products.TokenOf "tags" (.multi32 "tags") :=
    .declared (show .multi32 "tags" ∈ Index.products.schema.fields by decide) (by decide)
  have hunknown : ∀ op : Operator, op.name ≠ "like" := fun op => by cases op <;> decide
  have hsecond : priceField.Misfits .oneOf (.sequence [.int 3, .text "x", .null])
      (.notInteger (.text "x")) :=
    .value (fun h => absurd rfl h) (show _ = [Value.int 3] ++ .text "x" :: [.null] from rfl)
      (fun u hu => ⟨.integer 3, List.mem_singleton.mp hu ▸ rfl⟩) rfl
  refine ⟨hvalid, q, hq, (hrefuses _ _ _).mpr ?_, (hrefuses _ _ _).mpr ?_, (hrefuses _ _ _).mpr ?_,
    (hrefuses _ _ _).mpr ?_⟩
  · exact .field (show _ = "size" :: (some "like").toList from rfl) (by decide) (by decide)
      (by decide)
  · exact .operator (f := priceField) rfl (by decide) hprice hunknown
  · exact .predicate (.stated rfl (by decide) htags) (.setInequality rfl)
  · exact .predicate (.stated (show _ = ["price", Operator.oneOf.name] from rfl) (by decide) hprice)
      (.misfit (by decide) (fun _ => by decide) hsecond)

end Query

end IndexQuery
