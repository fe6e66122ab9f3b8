import IndexQuery.Proofs.Validity

/-!
# Which names keys can address

A key is composed of a name, the separator and the name of an operator, and taken apart from the
left.  The name comes back if it holds no separator and does not end in an underscore, which would
open a separator with the first underscore of the one behind it.  So a declared field whose name
ends in an underscore is reached by its bare name only, and so is such an alias.

    pieces (cs ++ '_' :: '_' :: ds) = cs :: pieces ds   if cs is separable       (pieces_append)
    parse key = .ok k ↔
      tokens key = k.field :: k.operator.toList ∧ "" ∉ tokens key              (parse_eq_ok_iff)
    r.resolve (compose name o) = .ok (f, o) ↔
      Separable name ∧ r.resolveField name = .ok f                         (resolve_compose_iff)
-/

namespace IndexQuery

open Text Outcome

namespace LookupKey

/-! ## Algorithm -/

/-- The key for a name and an operator. -/
def compose (name : String) (o : Operator) : String := name ++ separator ++ o.name

/-- The texts of a key between separators. -/
def tokens (key : String) : List String := (pieces key.toList).map String.ofList

/-- A name that a separator can follow. -/
def Separable (name : String) : Prop :=
  hasSeparator name = false ∧ name.toList.getLast? ≠ some '_'

instance (name : String) : Decidable (Separable name) :=
  inferInstanceAs (Decidable (hasSeparator name = false ∧ name.toList.getLast? ≠ some '_'))

/-! ## Pieces -/

/-- No separator begins at a character. -/
theorem pieces_cons {c : Char} {cs : List Char} (h : ¬(c = '_' ∧ cs.head? = some '_')) :
    pieces (c :: cs) = consPiece c (pieces cs) := by
  rw [pieces]
  intro r hc hcs
  exact h ⟨hc, by rw [hcs]; rfl⟩

theorem length_consPiece (c : Char) {ps : List (List Char)} (h : ps ≠ []) :
    (consPiece c ps).length = ps.length := by
  cases ps with
  | nil => exact absurd rfl h
  | cons p ps => rfl

/-- Separators between the pieces make up the text again. -/
theorem intercalate_pieces (cs : List Char) : ['_', '_'].intercalate (pieces cs) = cs := by
  fun_induction pieces cs with
  | case1 => rfl
  | case2 r ih =>
    cases h : pieces r with
    | nil => exact absurd h (pieces_ne_nil r)
    | cons p ps =>
      rw [h] at ih
      rw [List.intercalate_cons_cons, ih]
      rfl
  | case3 c r hc ih =>
    cases h : pieces r with
    | nil => exact absurd h (pieces_ne_nil r)
    | cons p ps =>
      rw [h] at ih
      rw [consPiece]
      cases ps with
      | nil =>
        rw [List.intercalate_singleton] at ih ⊢
        rw [ih]
      | cons q qs =>
        rw [List.intercalate_cons_cons] at ih ⊢
        rw [List.cons_append, List.cons_append, ih]

theorem occursIn_cons {cs : List Char} {c : Char}
    (h : occursIn separator.toList (c :: cs) = false) :
    ¬(c = '_' ∧ cs.head? = some '_') ∧ occursIn separator.toList cs = false := by
  rw [show separator.toList = ['_', '_'] by decide] at h ⊢
  simp only [occursIn, Bool.or_eq_false_iff] at h
  refine ⟨?_, h.2⟩
  rintro ⟨rfl, hcs⟩
  obtain ⟨r, rfl⟩ := List.head?_eq_some_iff.mp hcs
  simp [List.isPrefixOf] at h

theorem pieces_append {cs : List Char} (h : occursIn separator.toList cs = false)
    (hlast : cs.getLast? ≠ some '_') (ds : List Char) :
    pieces (cs ++ '_' :: '_' :: ds) = cs :: pieces ds := by
  induction cs with
  | nil => rw [List.nil_append, pieces]
  | cons c cs ih =>
    obtain ⟨hc, hcs⟩ := occursIn_cons h
    have hhead : ¬(c = '_' ∧ (cs ++ '_' :: '_' :: ds).head? = some '_') := by
      cases cs with
      | nil =>
        rintro ⟨rfl, -⟩
        exact hlast rfl
      | cons d cs => exact hc
    have hrest : cs.getLast? ≠ some '_' := by
      cases cs with
      | nil => simp
      | cons d cs =>
        rw [List.getLast?_cons_cons] at hlast
        exact hlast
    rw [List.cons_append, pieces_cons hhead, ih hcs hrest, consPiece]

/-- A separator behind a text adds a piece, wherever the pieces then end. -/
theorem length_pieces_append (cs ds : List Char) :
    (pieces cs).length < (pieces (cs ++ '_' :: '_' :: ds)).length := by
  have hpos := fun r => List.length_pos_iff.mpr (pieces_ne_nil r)
  fun_induction pieces cs with
  | case1 =>
    have := hpos ds
    rw [List.nil_append, pieces]
    simp only [List.length_cons, List.length_nil]
    omega
  | case2 r ih =>
    rw [List.cons_append, List.cons_append, pieces]
    simp only [List.length_cons]
    omega
  | case3 c r hc ih =>
    rw [length_consPiece c (pieces_ne_nil r), List.cons_append]
    by_cases hhead : c = '_' ∧ (r ++ '_' :: '_' :: ds).head? = some '_'
    · obtain ⟨rfl, hr⟩ := hhead
      cases r with
      | nil =>
        have := hpos ('_' :: ds)
        rw [List.nil_append, pieces]
        simp only [pieces, List.length_cons, List.length_nil]
        omega
      | cons d r =>
        cases hr
        exact absurd rfl (hc r rfl)
    · rw [pieces_cons hhead, length_consPiece c (pieces_ne_nil _)]
      exact ih

/-! ## Tokens -/

theorem tokens_ne_nil (key : String) : tokens key ≠ [] := by
  simp [tokens, pieces_ne_nil]

theorem split?_eq_some_iff {key : String} {k : LookupKey} :
    split? key = some k ↔ tokens key = k.field :: k.operator.toList := by
  obtain ⟨field, operator⟩ := k
  unfold split? tokens
  rcases pieces key.toList with _ | ⟨cs, _ | ⟨ds, _ | ⟨es, rest⟩⟩⟩ <;> cases operator <;> simp

theorem split?_eq_none_iff {key : String} : split? key = none ↔ 2 < (tokens key).length := by
  have hne := tokens_ne_nil key
  unfold tokens at hne ⊢
  unfold split?
  rcases hpieces : pieces key.toList with _ | ⟨cs, _ | ⟨ds, _ | ⟨es, rest⟩⟩⟩
  · simp [hpieces] at hne
  all_goals simp

/-- No token is empty if neither the field nor the operator is. -/
theorem empty_mem_tokens_iff {key : String} {k : LookupKey}
    (h : tokens key = k.field :: k.operator.toList) :
    "" ∈ tokens key ↔ k.field = "" ∨ k.operator = some "" := by
  rw [h, List.mem_cons, Option.mem_toList]
  exact or_congr_left eq_comm

theorem parse_eq_ok_iff {key : String} {k : LookupKey} : parse key = .ok k ↔
    tokens key = k.field :: k.operator.toList ∧ "" ∉ tokens key := by
  unfold parse
  constructor
  · intro h
    split at h
    · cases h
    · next hsplit =>
      split at h
      · cases h
      · next hne =>
        cases h
        have htokens := split?_eq_some_iff.mp hsplit
        exact ⟨htokens, fun hmem => hne ((empty_mem_tokens_iff htokens).mp hmem)⟩
  · rintro ⟨htokens, hne⟩
    rw [split?_eq_some_iff.mpr htokens]
    exact if_neg fun h => hne ((empty_mem_tokens_iff htokens).mpr h)

theorem parse_eq_error_iff {key : String} {e : Error} : parse key = .error e ↔
    (2 < (tokens key).length ∧ e = .invalidLookup key "nested lookups not supported") ∨
      ((tokens key).length ≤ 2 ∧ "" ∈ tokens key ∧
        e = .invalidLookup key "empty field or operator") := by
  unfold parse
  cases hsplit : split? key with
  | none =>
    have hlen := split?_eq_none_iff.mp hsplit
    simp [hlen, Nat.not_le_of_lt hlen, eq_comm]
  | some k =>
    have hlen : ¬2 < (tokens key).length := by
      rw [← split?_eq_none_iff, hsplit]
      nofun
    have hmem := empty_mem_tokens_iff (split?_eq_some_iff.mp hsplit)
    dsimp only
    split
    · next hempty =>
      have hmem := hmem.mpr hempty
      simp [hmem, hlen, Nat.le_of_not_lt hlen, eq_comm]
    · next hempty =>
      have hmem := mt hmem.mp hempty
      simp [hmem, hlen]

/-! ## Keys -/

/-- The name of an operator is one piece, also behind an underscore. -/
theorem pieces_operator (o : Operator) :
    pieces o.name.toList = [o.name.toList] ∧
      pieces ('_' :: o.name.toList) = ['_' :: o.name.toList] := by
  cases o <;> decide

theorem toList_compose (name : String) (o : Operator) :
    (compose name o).toList = name.toList ++ '_' :: '_' :: o.name.toList := by
  rw [compose, String.toList_append, String.toList_append, List.append_assoc]
  rfl

/-- A name without separator is a key for itself. -/
theorem parse_name {name : String} (hne : name ≠ "") (h : hasSeparator name = false) :
    parse name = .ok ⟨name, none⟩ := by
  have htokens : tokens name = [name] := by
    unfold tokens
    rw [pieces_eq_singleton_iff.mpr h, List.map_singleton, String.ofList_toList]
  exact parse_eq_ok_iff.mpr ⟨htokens, by simp [htokens, hne.symm]⟩

theorem parse_compose {name : String} (hne : name ≠ "") (h : Separable name) (o : Operator) :
    parse (compose name o) = .ok ⟨name, some o.name⟩ := by
  have htokens : tokens (compose name o) = [name, o.name] := by
    unfold tokens
    rw [toList_compose, pieces_append h.1 h.2, (pieces_operator o).1]
    simp
  have ho : o.name ≠ "" := by cases o <;> decide
  exact parse_eq_ok_iff.mpr ⟨htokens, by simp [htokens, hne.symm, ho.symm]⟩

/-- The pieces of a key that is taken apart. -/
theorem pieces_of_parse {key : String} {k : LookupKey} (h : parse key = .ok k) :
    pieces key.toList = k.field.toList :: k.operator.toList.map String.toList := by
  have hpieces := congrArg (List.map String.toList) (parse_eq_ok_iff.mp h).1
  simpa [tokens, Function.comp_def] using hpieces

/-- A text with a separator has at least two pieces. -/
theorem one_lt_length_pieces {cs : List Char} (h : occursIn separator.toList cs = true) :
    1 < (pieces cs).length := by
  cases hp : pieces cs with
  | nil => exact absurd hp (pieces_ne_nil cs)
  | cons p ps =>
    cases ps with
    | nil =>
      have hcs := intercalate_pieces cs
      rw [hp, List.intercalate_singleton] at hcs
      subst hcs
      rw [pieces_eq_singleton_iff.mp hp] at h
      cases h
    | cons q qs => exact Nat.lt_of_lt_of_le (by decide) (Nat.le_add_left 2 qs.length)

/-- Without its last underscore a name without separator can be followed by one. -/
theorem pieces_underscore {cs : List Char} (h : occursIn separator.toList (cs ++ ['_']) = false)
    (ds : List Char) :
    pieces ((cs ++ ['_']) ++ '_' :: '_' :: ds) = cs :: pieces ('_' :: ds) := by
  have hno : ¬separator.toList <:+: cs ++ ['_'] := by
    rw [← occursIn_eq_true_iff, h]
    decide
  have hcs : occursIn separator.toList cs = false := by
    apply eq_false_of_ne_true
    intro hoccurs
    exact hno ((occursIn_eq_true_iff.mp hoccurs).trans (List.infix_append' [] cs ['_']))
  have hlast : cs.getLast? ≠ some '_' := by
    intro hlast
    obtain ⟨bs, rfl⟩ := List.getLast?_eq_some_iff.mp hlast
    refine hno ⟨bs, [], ?_⟩
    rw [List.append_nil, List.append_assoc]
    rfl
  rw [List.append_assoc]
  exact pieces_append hcs hlast ('_' :: ds)

/-- Behind any other name the operator of the key begins with an underscore. -/
theorem operator_of_parse_compose {name : String} (h : ¬Separable name) {o : Operator}
    {k : LookupKey} (hk : parse (compose name o) = .ok k) : k.operator = some ("_" ++ o.name) := by
  have hpieces := pieces_of_parse hk
  rw [toList_compose] at hpieces
  cases hsep : hasSeparator name with
  | false =>
    have hlast : name.toList.getLast? = some '_' :=
      Decidable.byContradiction fun hne => h ⟨hsep, hne⟩
    obtain ⟨cs, hcs⟩ := List.getLast?_eq_some_iff.mp hlast
    unfold hasSeparator at hsep
    rw [hcs] at hsep hpieces
    rw [pieces_underscore hsep, (pieces_operator o).2] at hpieces
    cases hoperator : k.operator with
    | none =>
      rw [hoperator] at hpieces
      cases hpieces
    | some s =>
      rw [hoperator] at hpieces
      have hs : '_' :: o.name.toList = s.toList := (List.cons.inj (List.cons.inj hpieces).2).1
      rw [← String.ofList_toList (s := s), ← hs, ← String.ofList_toList (s := "_" ++ o.name),
        String.toList_append]
      rfl
  | true =>
    have hlength := length_pieces_append name.toList o.name.toList
    have htwo := one_lt_length_pieces hsep
    rw [hpieces] at hlength
    cases hoperator : k.operator <;>
      simp only [hoperator, Option.toList_none, Option.toList_some, List.map_nil, List.map_cons,
        List.length_cons, List.length_nil] at hlength <;> omega

/-- A key is what it was taken apart from. -/
theorem toList_of_parse {key : String} {k : LookupKey} (h : parse key = .ok k) :
    key.toList = k.field.toList ++ k.operator.toList.flatMap fun s => '_' :: '_' :: s.toList := by
  rw [← intercalate_pieces key.toList, pieces_of_parse h]
  cases k.operator with
  | none => exact List.intercalate_singleton.trans (List.append_nil _).symm
  | some s =>
    simp only [Option.toList_some, List.map_cons, List.map_nil, List.flatMap_cons,
      List.flatMap_nil, List.append_nil]
    rw [List.intercalate_cons_cons, List.intercalate_singleton, List.append_assoc]
    rfl

/-- A key with a separator names an operator. -/
theorem operator_of_hasSeparator {key : String} (hs : hasSeparator key = true) {k : LookupKey}
    (h : parse key = .ok k) : ∃ s, k.operator = some s ∧
      key.toList = k.field.toList ++ '_' :: '_' :: s.toList := by
  have hlength := one_lt_length_pieces hs
  have hkey := toList_of_parse h
  rw [pieces_of_parse h] at hlength
  cases hoperator : k.operator with
  | none =>
    rw [hoperator] at hlength
    exact absurd hlength (by simp)
  | some s =>
    rw [hoperator] at hkey
    exact ⟨s, rfl, by simpa using hkey⟩

theorem ofName?_underscore (o : Operator) : Operator.ofName? ("_" ++ o.name) = none := by
  cases o <;> decide

end LookupKey

namespace Resolver

open LookupKey

variable {r : Resolver} {name : String} {f : Field} {o n : Operator}

/-! ## Resolved keys -/

theorem resolve_compose (hne : name ≠ "") (hs : Separable name) (o : Operator) :
    r.resolve (compose name o) = (r.resolveField name).map fun f => (f, o) := by
  unfold resolve
  rw [parse_compose hne hs]
  show (r.resolveField name >>= fun f => operatorFor f (some o.name) >>= _) = _
  cases r.resolveField name with
  | error e => rfl
  | ok f =>
    show (operatorFor f (some o.name) >>= _) = _
    rw [operatorFor, Operator.ofName?_name]
    rfl

theorem resolveNegated_compose (hne : name ≠ "") (hs : Separable name)
    (hn : o.inverse? = some n) :
    r.resolveNegated (compose name o) = (r.resolveField name).map fun f => (f, n) := by
  unfold resolveNegated
  rw [parse_compose hne hs]
  show (negatedOperator ⟨name, some o.name⟩ >>= _) = _
  unfold negatedOperator
  dsimp only
  rw [Operator.ofName?_name, Option.bind_some, hn]
  cases r.resolveField name <;> rfl

/-- A composed key gives the field and the operator exactly if the name is separable. -/
theorem resolve_compose_iff (hne : name ≠ "") :
    r.resolve (compose name o) = .ok (f, o) ↔ Separable name ∧ r.resolveField name = .ok f := by
  constructor
  · intro h
    obtain ⟨k, hk, h⟩ := bind_eq_ok.mp h
    obtain ⟨g, hg, h⟩ := bind_eq_ok.mp h
    obtain ⟨op, hop, h⟩ := bind_eq_ok.mp h
    cases h
    by_cases hs : Separable name
    · rw [parse_compose hne hs] at hk
      cases hk
      exact ⟨hs, hg⟩
    · rw [operator_of_parse_compose hs hk, operatorFor, ofName?_underscore] at hop
      cases hop
  · rintro ⟨hs, hf⟩
    rw [resolve_compose hne hs, hf]
    rfl

theorem resolveNegated_compose_iff (hne : name ≠ "") (hn : o.inverse? = some n) :
    r.resolveNegated (compose name o) = .ok (f, n) ↔
      Separable name ∧ r.resolveField name = .ok f := by
  constructor
  · intro h
    obtain ⟨k, hk, h⟩ := bind_eq_ok.mp h
    obtain ⟨op, hop, h⟩ := bind_eq_ok.mp h
    obtain ⟨g, hg, h⟩ := bind_eq_ok.mp h
    cases h
    by_cases hs : Separable name
    · rw [parse_compose hne hs] at hk
      cases hk
      exact ⟨hs, hg⟩
    · unfold negatedOperator at hop
      rw [operator_of_parse_compose hs hk] at hop
      dsimp only at hop
      rw [ofName?_underscore] at hop
      cases hop
  · rintro ⟨hs, hf⟩
    rw [resolveNegated_compose hne hs hn, hf]
    rfl

theorem resolve_name (hne : name ≠ "") (h : hasSeparator name = false) :
    r.resolve name = (r.resolveField name).map fun f => (f, .exact) := by
  unfold resolve
  rw [parse_name hne h]
  show (r.resolveField name >>= _) = _
  cases r.resolveField name <;> rfl

theorem resolveNegated_name (hne : name ≠ "") (h : hasSeparator name = false) :
    r.resolveNegated name = (r.resolveField name).map fun f => (f, .notEqual) := by
  unfold resolveNegated
  rw [parse_name hne h]
  show (r.resolveField name >>= _) = _
  cases r.resolveField name <;> rfl

/-! ## Names of fields and the alias -/

theorem ne_empty_of_isIdentifier {s : String} (h : isIdentifier s = true) : s ≠ "" := by
  rintro rfl
  exact absurd h (by decide)

theorem resolveField_key (hs : r.schema.Sound) :
    r.resolveField r.schema.primaryKey.name = .ok r.schema.primaryKey := by
  unfold resolveField
  split
  · rfl
  · rw [Schema.field?_name hs hs.key]

theorem resolveField_name (hs : r.schema.Sound) (hf : f ∈ r.schema.fields)
    (hne : f.name ≠ r.keyAlias) : r.resolveField f.name = .ok f := by
  unfold resolveField
  rw [if_neg hne, Schema.field?_name hs hf]

theorem resolveField_alias : r.resolveField r.keyAlias = .ok r.schema.primaryKey := if_pos rfl

/-- An alias with a separator is read as a key, and the alias itself is no part of it. -/
theorem alias_eq_compose (hkey : hasSeparator r.keyAlias = true) {k : LookupKey}
    (hk : LookupKey.parse r.keyAlias = .ok k)
    (hf : r.resolveField k.field = .ok r.schema.primaryKey) (hop : k.operator = some o.name) :
    r.keyAlias = compose r.schema.primaryKey.name o := by
  obtain ⟨s, hs, htext⟩ := operator_of_hasSeparator hkey hk
  rw [hop] at hs
  cases hs
  have hshort : k.field ≠ r.keyAlias := by
    intro h
    rw [← h] at htext
    have hlength := congrArg List.length htext
    simp only [List.length_append, List.length_cons] at hlength
    omega
  have hname : r.schema.primaryKey.name = k.field := by
    unfold resolveField at hf
    rw [if_neg hshort] at hf
    split at hf
    · next hfield =>
      cases hf
      exact Schema.name_of_field? hfield
    · cases hf
  apply String.toList_inj.mp
  rw [toList_compose, hname, htext]

/-- The bare alias means the document id, unless it reads as a key for something else. -/
theorem resolve_alias_iff (hs : r.schema.Sound) (hne : r.keyAlias ≠ "") :
    r.resolve r.keyAlias = .ok (r.schema.primaryKey, .exact) ↔
      hasSeparator r.keyAlias = false ∨
        Separable r.schema.primaryKey.name ∧
          r.keyAlias = compose r.schema.primaryKey.name .exact := by
  have hkne := ne_empty_of_isIdentifier (hs.name _ hs.key)
  cases hsep : hasSeparator r.keyAlias with
  | false =>
    rw [resolve_name hne hsep, resolveField_alias]
    simp [Except.map]
  | true =>
    constructor
    · intro h
      right
      have hcompose : r.keyAlias = compose r.schema.primaryKey.name .exact := by
        obtain ⟨k, hk, h⟩ := bind_eq_ok.mp h
        obtain ⟨g, hg, h⟩ := bind_eq_ok.mp h
        obtain ⟨op, hop, h⟩ := bind_eq_ok.mp h
        cases h
        obtain ⟨s, hoperator, -⟩ := operator_of_hasSeparator hsep hk
        refine alias_eq_compose hsep hk hg ?_
        rw [hoperator, operatorFor] at hop
        split at hop
        · next hname =>
          cases hop
          rw [hoperator, Operator.name_of_ofName? hname]
        · cases hop
      rw [hcompose] at h
      exact ⟨((resolve_compose_iff hkne).mp h).1, hcompose⟩
    · intro h
      obtain ⟨hseparable, hcompose⟩ := h.resolve_left Bool.noConfusion
      rw [hcompose]
      exact (resolve_compose_iff hkne).mpr ⟨hseparable, resolveField_key hs⟩

theorem resolveNegated_alias_iff (hs : r.schema.Sound) (hne : r.keyAlias ≠ "") :
    r.resolveNegated r.keyAlias = .ok (r.schema.primaryKey, .notEqual) ↔
      hasSeparator r.keyAlias = false ∨
        Separable r.schema.primaryKey.name ∧
          r.keyAlias = compose r.schema.primaryKey.name .exact := by
  have hkne := ne_empty_of_isIdentifier (hs.name _ hs.key)
  cases hsep : hasSeparator r.keyAlias with
  | false =>
    rw [resolveNegated_name hne hsep, resolveField_alias]
    simp [Except.map]
  | true =>
    constructor
    · intro h
      right
      have hcompose : r.keyAlias = compose r.schema.primaryKey.name .exact := by
        obtain ⟨k, hk, h⟩ := bind_eq_ok.mp h
        obtain ⟨op, hop, h⟩ := bind_eq_ok.mp h
        obtain ⟨g, hg, h⟩ := bind_eq_ok.mp h
        cases h
        obtain ⟨s, hoperator, -⟩ := operator_of_hasSeparator hsep hk
        refine alias_eq_compose hsep hk hg ?_
        unfold negatedOperator at hop
        rw [hoperator] at hop
        dsimp only at hop
        split at hop
        · next hinverse =>
          cases hop
          obtain ⟨o, hname, ho⟩ := Option.bind_eq_some_iff.mp hinverse
          have hexact : o = .exact := by cases o <;> first | rfl | cases ho
          rw [hoperator, ← Operator.name_of_ofName? hname, hexact]
        · cases hop
      rw [hcompose] at h
      exact ⟨((resolveNegated_compose_iff hkne rfl).mp h).1, hcompose⟩
    · intro h
      obtain ⟨hseparable, hcompose⟩ := h.resolve_left Bool.noConfusion
      rw [hcompose]
      exact (resolveNegated_compose_iff hkne rfl).mpr ⟨hseparable, resolveField_key hs⟩

end Resolver

namespace Index

open LookupKey

variable {i : Index}

/-- Which keys made of declared names and of the alias are resolved.  A declared name is always
resolved alone, and with an operator unless it ends in an underscore; the alias is resolved with an
operator only if it is separable, and alone if it holds no separator or spells the key for the
document id itself. -/
theorem addressed_iff (hi : i.Valid) :
    (∀ f ∈ i.schema.fields, f.name ≠ i.settings.keyAlias →
      i.resolver.resolve f.name = .ok (f, .exact) ∧
      i.resolver.resolveNegated f.name = .ok (f, .notEqual) ∧
      ∀ o, (i.resolver.resolve (compose f.name o) = .ok (f, o) ↔
          f.name.toList.getLast? ≠ some '_') ∧
        ∀ n, o.inverse? = some n →
          (i.resolver.resolveNegated (compose f.name o) = .ok (f, n) ↔
            f.name.toList.getLast? ≠ some '_')) ∧
    (i.resolver.resolve i.settings.keyAlias = .ok (i.schema.primaryKey, .exact) ↔
      hasSeparator i.settings.keyAlias = false ∨ Separable i.schema.primaryKey.name ∧
        i.settings.keyAlias = compose i.schema.primaryKey.name .exact) ∧
    (i.resolver.resolveNegated i.settings.keyAlias = .ok (i.schema.primaryKey, .notEqual) ↔
      hasSeparator i.settings.keyAlias = false ∨ Separable i.schema.primaryKey.name ∧
        i.settings.keyAlias = compose i.schema.primaryKey.name .exact) ∧
    ∀ o, (i.resolver.resolve (compose i.settings.keyAlias o) = .ok (i.schema.primaryKey, o) ↔
        Separable i.settings.keyAlias) ∧
      ∀ n, o.inverse? = some n →
        (i.resolver.resolveNegated (compose i.settings.keyAlias o) =
          .ok (i.schema.primaryKey, n) ↔ Separable i.settings.keyAlias) := by
  have hs : i.resolver.schema.Sound := hi.sound
  obtain ⟨-, halias, -⟩ := Settings.validate_eq_ok hi.validate
  have hane : i.settings.keyAlias ≠ "" := Resolver.ne_empty_of_isIdentifier halias
  have hkey : i.resolver.resolveField i.settings.keyAlias = .ok i.schema.primaryKey :=
    Resolver.resolveField_alias
  refine ⟨fun f hf hne => ?_, Resolver.resolve_alias_iff hs hane,
    Resolver.resolveNegated_alias_iff hs hane, fun o => ⟨?_, fun n hn => ?_⟩⟩
  · have hfne := Resolver.ne_empty_of_isIdentifier (hs.name f hf)
    have hsep : hasSeparator f.name = false := hs.separator f hf
    have hfield : i.resolver.resolveField f.name = .ok f := Resolver.resolveField_name hs hf hne
    refine ⟨?_, ?_, fun o => ⟨?_, fun n hn => ?_⟩⟩
    · rw [Resolver.resolve_name hfne hsep, hfield]
      rfl
    · rw [Resolver.resolveNegated_name hfne hsep, hfield]
      rfl
    · rw [Resolver.resolve_compose_iff hfne]
      constructor
      · intro h
        exact h.1.2
      · intro h
        exact ⟨⟨hsep, h⟩, hfield⟩
    · rw [Resolver.resolveNegated_compose_iff hfne hn]
      constructor
      · intro h
        exact h.1.2
      · intro h
        exact ⟨⟨hsep, h⟩, hfield⟩
  · rw [Resolver.resolve_compose_iff hane]
    constructor
    · intro h
      exact h.1
    · intro h
      exact ⟨h, hkey⟩
  · rw [Resolver.resolveNegated_compose_iff hane hn]
    constructor
    · intro h
      exact h.1
    · intro h
      exact ⟨h, hkey⟩

theorem products_addressed :
    products.resolver.resolve (compose "tags" .greater) = .ok (.multi32 "tags", .greater) := by
  have hfields := (addressed_iff products_valid).1 (.multi32 "tags") (by decide) (by decide)
  exact (hfields.2.2 .greater).1.mpr (by decide)

/-- An index with a field that no operator can follow. -/
def notes : Index := ⟨⟨"notes", [Schema.standardKey, .scalar "a_" .integer], Schema.standardKey⟩,
  Settings.standard⟩

/-- The underscores of a name and of a separator are split too far to the left. -/
theorem notes_unaddressed : notes.Valid ∧ .scalar "a_" .integer ∈ notes.schema.fields ∧
    "a_" ≠ notes.settings.keyAlias ∧
    notes.resolver.resolve (compose "a_" .greater) = .error (.unknownField "notes" "a") ∧
    notes.resolver.resolveNegated (compose "a_" .greater) =
      .error (.unsupportedNegation "a" "_gt") :=
  ⟨⟨⟨"notes", notes.schema.fields.tail, rfl⟩, rfl⟩, by decide, by decide, rfl, rfl⟩

end Index

end IndexQuery
