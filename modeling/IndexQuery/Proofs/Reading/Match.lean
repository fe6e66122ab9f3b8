import IndexQuery.Proofs.Reading.Statement

/-!
# Reading search terms

The daemon reads search terms word by word: a word with `@` in front names a field, and the words
behind it are looked for in that field, up to the next such word.  Nothing ends a field but another
one, so unscoped terms that stand behind those of a field are read as terms of that field.

    readScopes text = heard e.scopes          if e.queryText? = some text       (readScopes_eq)
    heard groups = groups ↔ no group but the first is unscoped                 (heard_eq_iff)
    q₀.applyAll cs = .ok q → the daemon reads the scopes of q as they are if and only if no term is
      unscoped or an unscoped one came first                                          (match_reads)
-/

namespace IndexQuery

open Text Outcome

namespace MatchExpr

/-! ## Algorithm -/

/-- The words of a text between blanks. -/
def words (text : String) : List String := (text.toList.splitOn ' ').map String.ofList

/-- The field that a word names, if it begins with the sign for fields. -/
def mark? (word : String) : Option String :=
  match word.toList with
  | '@' :: name => some (String.ofList name)
  | _ => none

/-- The groups of a row of words, of which some have been read in a scope. -/
def groupWords (scope : MatchScope) (terms : List String) :
    List String → List (MatchScope × List String)
  | [] => [(scope, terms)]
  | word :: rest =>
    match mark? word with
    | some name => (scope, terms) :: groupWords (.column name) [] rest
    | none => groupWords scope (terms ++ [word]) rest

/-- The scopes that the daemon reads in a text, with the words that it reads in each. -/
def readScopes (text : String) : List (MatchScope × List String) :=
  (groupWords .anywhere [] (words text)).filter fun g => !g.2.isEmpty

/-- Groups as they are read behind another one: an unscoped group adds to the one before it. -/
def heardBehind (g : MatchScope × List String) :
    List (MatchScope × List String) → List (MatchScope × List String)
  | [] => [g]
  | (.anywhere, terms) :: groups => heardBehind (g.1, g.2 ++ terms) groups
  | (.column name, terms) :: groups => g :: heardBehind (.column name, terms) groups

/-- Groups as they are read. -/
def heard : List (MatchScope × List String) → List (MatchScope × List String)
  | [] => []
  | g :: groups => heardBehind g groups

/-- The scope of the first search for a term. -/
def firstScope (bs : List (MatchScope × List String)) : Option MatchScope :=
  (bs.find? fun b => b.2.any (· != "")).map Prod.fst

/-- A term that is one word to the daemon, and holds nothing that it reads otherwise. -/
structure IsWord (term : String) : Prop where
  nonempty : term ≠ ""
  plain : ∀ c ∈ term.toList, c.isWhitespace = false ∧ c ≠ '@' ∧ needsEscape c = false

instance (term : String) : Decidable (IsWord term) :=
  have : Decidable (∀ c ∈ term.toList, c.isWhitespace = false ∧ c ≠ '@' ∧ needsEscape c = false) :=
    List.decidableBAll _ _
  decidable_of_iff (term ≠ "" ∧ ∀ c ∈ term.toList,
      c.isWhitespace = false ∧ c ≠ '@' ∧ needsEscape c = false)
    ⟨fun h => ⟨h.1, h.2⟩, fun h => ⟨h.1, h.2⟩⟩

/-- The words of a group's text. -/
def groupTextWords : MatchScope × List String → List String
  | (.anywhere, terms) => terms
  | (.column name, terms) => ("@" ++ name) :: terms

/-- A group of words, in a field whose name has no blank if it has one. -/
structure IsGroup (g : MatchScope × List String) : Prop where
  nonempty : g.2 ≠ []
  terms : ∀ t ∈ g.2, IsWord t
  name : ∀ name, g.1 = .column name → ' ' ∉ name.toList

/-! ## Words -/

theorem words_intercalate {ws : List String} (hne : ws ≠ []) (h : ∀ w ∈ ws, ' ' ∉ w.toList) :
    words (" ".intercalate ws) = ws := by
  have hsep : " ".toList = [' '] := by decide
  have hblank : ∀ l ∈ ws.map String.toList, ' ' ∉ l := by
    intro l hl
    obtain ⟨w, hw, rfl⟩ := List.mem_map.mp hl
    exact h w hw
  unfold words
  rw [String.toList_intercalate, hsep,
    List.splitOn_intercalate ' ' hblank (fun hnil => hne (List.map_eq_nil_iff.mp hnil)),
    List.map_map]
  simp [Function.comp_def]

theorem intercalate_append {ws vs : List String} (hw : ws ≠ []) (hv : vs ≠ []) :
    " ".intercalate (ws ++ vs) = " ".intercalate ws ++ " " ++ " ".intercalate vs := by
  induction ws with
  | nil => exact absurd rfl hw
  | cons w ws ih =>
    cases ws with
    | nil => rw [List.singleton_append, String.intercalate_cons_of_ne_nil hv,
        String.intercalate_singleton]
    | cons u us =>
      have hrest := ih (List.cons_ne_nil u us)
      rw [List.cons_append] at hrest ⊢
      rw [String.intercalate_cons_cons, List.cons_append, String.intercalate_cons_cons, hrest]
      simp only [String.append_assoc]

/-- Texts of several words are joined as all their words. -/
theorem intercalate_flatMap {α : Type} {parts : α → List String} {as : List α}
    (h : ∀ a ∈ as, parts a ≠ []) :
    " ".intercalate (as.map fun a => " ".intercalate (parts a)) =
      " ".intercalate (as.flatMap parts) := by
  induction as with
  | nil => rfl
  | cons a as ih =>
    have hrest := fun b hb => h b (List.mem_cons_of_mem a hb)
    cases as with
    | nil => rw [List.map_singleton, String.intercalate_singleton, List.flatMap_singleton]
    | cons b bs =>
      have hne : (b :: bs).flatMap parts ≠ [] := by
        rw [List.flatMap_cons]
        exact fun hnil => hrest b List.mem_cons_self (List.append_eq_nil_iff.mp hnil).1
      rw [List.flatMap_cons, intercalate_append (h a List.mem_cons_self) hne, ← ih hrest,
        List.map_cons, List.map_cons, String.intercalate_cons_cons]

theorem escapeText_of_isWord {t : String} (h : IsWord t) : escapeText t = t := by
  unfold escapeText
  rw [escape_of_plain fun c hc => (h.plain c hc).2.2, String.ofList_toList]

theorem mark?_of_isWord {t : String} (h : IsWord t) : mark? t = none := by
  unfold mark?
  split
  · next name htext =>
    exact absurd rfl (h.plain '@' (htext ▸ List.mem_cons_self)).2.1
  · rfl

theorem mark?_name (name : String) : mark? ("@" ++ name) = some name := by
  have htext : ("@" ++ name).toList = '@' :: name.toList := by
    rw [String.toList_append]
    rfl
  unfold mark?
  rw [htext]
  exact congrArg some String.ofList_toList

theorem not_blank_of_isWord {t : String} (h : IsWord t) : ' ' ∉ t.toList := by
  intro hblank
  exact absurd (h.plain ' ' hblank).1 (by decide)

/-! ## Groups -/

namespace IsGroup

variable {g : MatchScope × List String}

theorem groupText_eq (h : IsGroup g) : groupText g = " ".intercalate (groupTextWords g) := by
  obtain ⟨scope, terms⟩ := g
  have hterms : terms.map escapeText = terms := by
    have hmap := List.map_congr_left fun t ht => escapeText_of_isWord (h.terms t ht)
    rwa [List.map_id'] at hmap
  cases scope with
  | anywhere => rw [groupText, groupTextWords, hterms]
  | column name =>
    rw [groupText, groupTextWords, hterms, String.intercalate_cons_of_ne_nil h.nonempty]

theorem not_blank (h : IsGroup g) : ∀ w ∈ groupTextWords g, ' ' ∉ w.toList := by
  obtain ⟨scope, terms⟩ := g
  intro w hw
  cases scope with
  | anywhere => exact not_blank_of_isWord (h.terms w hw)
  | column name =>
    rcases List.mem_cons.mp hw with rfl | hw
    · rw [String.toList_append]
      intro hblank
      rcases List.mem_append.mp hblank with hblank | hblank
      · exact absurd hblank (by decide)
      · exact h.name name rfl hblank
    · exact not_blank_of_isWord (h.terms w hw)

theorem words_ne_nil (h : IsGroup g) : groupTextWords g ≠ [] := by
  obtain ⟨scope, terms⟩ := g
  cases scope with
  | anywhere => exact h.nonempty
  | column name => exact List.cons_ne_nil _ _

end IsGroup

/-- Words that name no field are added to the group that is read. -/
theorem groupWords_append {us : List String} (h : ∀ t ∈ us, mark? t = none) (scope : MatchScope)
    (terms ws : List String) :
    groupWords scope terms (us ++ ws) = groupWords scope (terms ++ us) ws := by
  induction us generalizing terms with
  | nil => rw [List.append_nil, List.nil_append]
  | cons u us ih =>
    rw [List.cons_append, groupWords, h u List.mem_cons_self]
    dsimp only
    rw [ih fun t ht => h t (List.mem_cons_of_mem u ht), List.append_assoc]
    rfl

theorem groupWords_eq_heardBehind {groups : List (MatchScope × List String)}
    (h : ∀ g ∈ groups, IsGroup g) (scope : MatchScope) (terms : List String) :
    groupWords scope terms (groups.flatMap groupTextWords) =
      heardBehind (scope, terms) groups := by
  induction groups generalizing scope terms with
  | nil => rfl
  | cons g groups ih =>
    obtain ⟨s, us⟩ := g
    have hrest := fun g hg => h g (List.mem_cons_of_mem _ hg)
    have hus : ∀ t ∈ us, mark? t = none := fun t ht =>
      mark?_of_isWord ((h _ List.mem_cons_self).terms t ht)
    rw [List.flatMap_cons]
    cases s with
    | anywhere =>
      rw [groupTextWords, groupWords_append hus, ih hrest, heardBehind]
    | column name =>
      rw [groupTextWords, List.cons_append, groupWords, mark?_name]
      dsimp only
      rw [groupWords_append hus, ih hrest, heardBehind, List.nil_append]

theorem nonempty_of_mem_heardBehind {g : MatchScope × List String} (hg : g.2 ≠ [])
    {groups : List (MatchScope × List String)} (h : ∀ k ∈ groups, IsGroup k) :
    ∀ k ∈ heardBehind g groups, k.2 ≠ [] := by
  induction groups generalizing g with
  | nil =>
    intro k hk
    obtain rfl := List.mem_singleton.mp hk
    exact hg
  | cons k groups ih =>
    obtain ⟨s, us⟩ := k
    have hrest := fun g hg => h g (List.mem_cons_of_mem _ hg)
    cases s with
    | anywhere =>
      refine ih (fun hnil => hg ?_) hrest
      exact (List.append_eq_nil_iff.mp hnil).1
    | column name =>
      intro k hk
      rcases List.mem_cons.mp hk with rfl | hk
      · exact hg
      · exact ih (h _ List.mem_cons_self).nonempty hrest k hk

/-- The text of groups is read as the groups that are heard. -/
theorem readScopes_eq {e : MatchExpr} (h : ∀ g ∈ e.scopes, IsGroup g) {text : String}
    (htext : e.queryText? = some text) : readScopes text = heard e.scopes := by
  obtain ⟨groups⟩ := e
  unfold queryText? at htext
  split at htext
  · cases htext
  · next hempty =>
    cases htext
    have hgroups : groups ≠ [] := fun hnil => hempty (by rw [hnil]; rfl)
    have hwords : words (" ".intercalate (groups.map groupText)) =
        groups.flatMap groupTextWords := by
      rw [List.map_congr_left fun g hg => (h g hg).groupText_eq,
        intercalate_flatMap fun g hg => (h g hg).words_ne_nil]
      refine words_intercalate (fun hnil => ?_) fun w hw => ?_
      · obtain ⟨g, gs, rfl⟩ := List.exists_cons_of_ne_nil hgroups
        rw [List.flatMap_cons] at hnil
        exact (h g List.mem_cons_self).words_ne_nil (List.append_eq_nil_iff.mp hnil).1
      · obtain ⟨g, hg, hw⟩ := List.mem_flatMap.mp hw
        exact (h g hg).not_blank w hw
    have hkeep : ∀ {gs : List (MatchScope × List String)}, (∀ g ∈ gs, g.2 ≠ []) →
        gs.filter (fun g => !g.2.isEmpty) = gs := by
      intro gs hgs
      refine List.filter_eq_self.mpr fun g hg => ?_
      simpa using hgs g hg
    unfold readScopes
    rw [hwords, groupWords_eq_heardBehind h]
    cases groups with
    | nil => exact absurd rfl hgroups
    | cons g groups =>
      obtain ⟨s, us⟩ := g
      have hfirst := (h _ List.mem_cons_self).nonempty
      have hheard := hkeep (nonempty_of_mem_heardBehind hfirst fun g hg =>
        h g (List.mem_cons_of_mem _ hg))
      cases s with
      | anywhere => exact hheard
      | column name => exact hheard

theorem length_heardBehind (g : MatchScope × List String)
    (groups : List (MatchScope × List String)) :
    (heardBehind g groups).length = groups.countP (fun k => k.1 != .anywhere) + 1 := by
  induction groups generalizing g with
  | nil => rfl
  | cons k groups ih =>
    obtain ⟨s, us⟩ := k
    cases s with
    | anywhere =>
      rw [heardBehind, ih]
      rfl
    | column name =>
      rw [heardBehind, List.length_cons, ih, List.countP_cons_of_pos (by simp)]

theorem heardBehind_of_columns {groups : List (MatchScope × List String)}
    (h : ∀ k ∈ groups, k.1 ≠ .anywhere) (g : MatchScope × List String) :
    heardBehind g groups = g :: groups := by
  induction groups generalizing g with
  | nil => rfl
  | cons k groups ih =>
    obtain ⟨s, us⟩ := k
    cases s with
    | anywhere => exact absurd rfl (h _ List.mem_cons_self)
    | column name => rw [heardBehind, ih fun k hk => h k (List.mem_cons_of_mem _ hk)]

/-- Groups are heard as they are exactly if none but the first is unscoped. -/
theorem heard_eq_iff (groups : List (MatchScope × List String)) :
    heard groups = groups ↔ ∀ k ∈ groups.tail, k.1 ≠ .anywhere := by
  cases groups with
  | nil => exact ⟨fun _ k hk => absurd hk List.not_mem_nil, fun _ => rfl⟩
  | cons g groups =>
    constructor
    · intro heq k hk
      have hlength := congrArg List.length heq
      rw [heard, length_heardBehind, List.length_cons] at hlength
      have hall := List.countP_eq_length.mp (Nat.add_right_cancel hlength) k hk
      exact bne_iff_ne.mp hall
    · intro h
      exact heardBehind_of_columns h g

/-! ## Groups of a run -/

theorem queryText?_eq_none_iff {bs : List (MatchScope × List String)} :
    (ofSearches bs).queryText? = none ↔ ∀ b ∈ bs, ∀ t ∈ b.2, t = "" := by
  have hempty := isEmpty_ofSearches bs
  unfold queryText?
  split
  · next h =>
    rw [h] at hempty
    refine ⟨fun _ b hb t ht => ?_, fun _ => rfl⟩
    by_contra hne
    exact Bool.noConfusion (hempty.mpr ⟨b, hb, t, ht, hne⟩)
  · next h =>
    obtain ⟨b, hb, t, ht, hne⟩ := hempty.mp (Bool.eq_false_iff.mpr h)
    exact ⟨nofun, fun hall => absurd (hall b hb t ht) hne⟩

/-- The scope of the first group. -/
def first (e : MatchExpr) : Option MatchScope := (e.scopes.map Prod.fst).head?

/-- The first group is the one of the first search for a term. -/
theorem first_ofSearches (bs : List (MatchScope × List String)) :
    (ofSearches bs).first = firstScope bs := by
  have hbrought : ((brought bs).map Prod.fst).head? = firstScope bs := by
    induction bs with
    | nil => rfl
    | cons b bs ih =>
      have hcons : brought (b :: bs) =
          (b.2.filter (· != "")).map (fun t => (b.1, t)) ++ brought bs := rfl
      have hany : b.2.any (· != "") = !(b.2.filter (· != "")).isEmpty := by
        rw [Bool.eq_iff_iff]
        simp
      unfold firstScope
      rw [hcons, List.find?_cons, hany]
      cases b.2.filter (· != "") with
      | nil => exact ih
      | cons t ts => rfl
  unfold first
  rw [map_fst_ofSearches, ← hbrought]
  cases (brought bs).map Prod.fst <;> simp [List.eraseDups_cons]

/-- A scope with terms has a group. -/
theorem exists_group_of_terms {e : MatchExpr} {scope : MatchScope} (h : e.terms scope ≠ []) :
    ∃ g ∈ e.scopes, g.1 = scope := by
  by_contra hno
  apply h
  unfold terms
  rw [List.find?_eq_none.mpr]
  · rfl
  · intro g hg hscope
    exact hno ⟨g, hg, by simpa using hscope⟩

/-- Groups of different scopes are heard as they are exactly if there are no unscoped terms or the
unscoped ones stand in front. -/
theorem Grouped.heard_eq_iff {e : MatchExpr} (h : e.Grouped) :
    heard e.scopes = e.scopes ↔ e.terms .anywhere = [] ∨ e.first = some .anywhere := by
  rw [MatchExpr.heard_eq_iff]
  constructor
  · intro hcolumns
    by_cases hnil : e.terms .anywhere = []
    · exact .inl hnil
    · right
      obtain ⟨g, hg, hscope⟩ := exists_group_of_terms hnil
      unfold first
      cases hscopes : e.scopes with
      | nil =>
        rw [hscopes] at hg
        cases hg
      | cons k groups =>
        rw [hscopes] at hg hcolumns
        rcases List.mem_cons.mp hg with rfl | hg
        · exact congrArg some hscope
        · exact absurd hscope (hcolumns g hg)
  · rintro (hnil | hfirst) k hk hscope
    · have hmem := List.mem_of_mem_tail hk
      have hterms := h.terms_eq hmem
      rw [hscope, hnil] at hterms
      exact h.nonempty k hmem hterms.symm
    · have hnodup := h.scopes
      unfold first at hfirst
      cases hscopes : e.scopes with
      | nil =>
        rw [hscopes] at hk
        cases hk
      | cons g groups =>
        rw [hscopes] at hk hfirst hnodup
        have hg : g.1 = k.1 := (Option.some.inj hfirst).trans hscope.symm
        rw [List.map_cons, List.nodup_cons] at hnodup
        exact hnodup.1 (hg ▸ List.mem_map_of_mem hk)

end MatchExpr

/-! ## Search terms of calls -/

namespace Index

variable {i : Index}

/-- Terms are searched for everywhere or in the column of a declared field. -/
theorem scope_of_mem_searches (hs : i.schema.Sound) {c : Call}
    {b : MatchScope × List String} (hb : b ∈ i.searches c) :
    b.1 = .anywhere ∨ ∃ f ∈ i.schema.fields, b.1 = .column f.storageColumn := by
  have hlookup : ∀ {key : String} {x : Operand}, b ∈ search (i.resolver.resolve key) x →
      ∃ f ∈ i.schema.fields, b.1 = .column f.storageColumn := by
    intro key x hb
    unfold search at hb
    split at hb
    · next f hr =>
      split at hb
      · obtain rfl := List.mem_singleton.mp hb
        exact ⟨f, Resolver.mem_of_resolve hs hr, rfl⟩
      · cases hb
    · cases hb
  have hfield : ∀ {d : String × List String}, b ∈ i.fieldSearch d →
      ∃ f ∈ i.schema.fields, b.1 = .column f.storageColumn := by
    intro d hb
    unfold fieldSearch at hb
    split at hb
    · next f hf =>
      obtain rfl := List.mem_singleton.mp hb
      exact ⟨f, Resolver.mem_of_resolveField hs hf, rfl⟩
    · cases hb
  cases c with
  | filter ls =>
    obtain ⟨l, -, hb⟩ := List.mem_flatMap.mp hb
    exact .inr (hlookup hb)
  | filterBy f =>
    cases f with
    | lookup key x => exact .inr (hlookup hb)
    | all fs => cases hb
    | any fs => cases hb
  | matchText ts =>
    obtain rfl := List.mem_singleton.mp hb
    exact .inl rfl
  | matchField field ts => exact .inr (hfield hb)
  | matchAll free byField =>
    rcases List.mem_cons.mp hb with rfl | hb
    · exact .inl rfl
    · obtain ⟨d, -, hb⟩ := List.mem_flatMap.mp hb
      exact .inr (hfield hb)
  | _ => cases hb

/-- The groups of search terms that are words. -/
theorem isGroup_of_mem_scopes (hs : i.schema.Sound) {cs : List Call}
    (hw : ∀ b ∈ cs.flatMap i.searches, ∀ t ∈ b.2, MatchExpr.IsWord t) :
    ∀ g ∈ (MatchExpr.ofSearches (cs.flatMap i.searches)).scopes, MatchExpr.IsGroup g := by
  intro g hg
  have hgrouped := MatchExpr.Grouped.ofSearches (cs.flatMap i.searches)
  have hterms : ∀ t ∈ g.2, ∃ b ∈ cs.flatMap i.searches, b.1 = g.1 ∧ t ∈ b.2 := by
    intro t ht
    rw [← hgrouped.terms_eq hg] at ht
    exact (MatchExpr.mem_terms_ofSearches.mp ht).2
  refine ⟨hgrouped.nonempty g hg, fun t ht => ?_, fun name hname => ?_⟩
  · obtain ⟨b, hb, -, htb⟩ := hterms t ht
    exact hw b hb t htb
  · obtain ⟨t, ht⟩ := List.exists_mem_of_ne_nil _ (hgrouped.nonempty g hg)
    obtain ⟨b, hb, hscope, -⟩ := hterms t ht
    obtain ⟨c, -, hb⟩ := List.mem_flatMap.mp hb
    rcases scope_of_mem_searches hs hb with hb | ⟨f, hf, hb⟩
    · rw [hscope, hname] at hb
      cases hb
    · rw [hscope, hname] at hb
      cases hb
      intro hblank
      exact absurd (isTail_of_mem (hs.column f hf) hblank) (by decide)

/-- Search terms that are words are bound together as the last parameter.  Every scope holds the
terms that calls put in it, and the daemon reads the scopes as they are exactly if no term is
unscoped or an unscoped one came first; otherwise it reads the unscoped terms in the field whose
terms stand before them. -/
theorem match_reads (hi : i.Valid) {q₀ q : Query} (hq₀ : i.query = .ok q₀) {cs : List Call}
    (hq : q₀.applyAll cs = .ok q)
    (hw : ∀ b ∈ cs.flatMap i.searches, ∀ t ∈ b.2, MatchExpr.IsWord t) :
    (∀ scope t, t ∈ q.clauses.matching.terms scope ↔
      ∃ b ∈ cs.flatMap i.searches, b.1 = scope ∧ t ∈ b.2) ∧
    (q.clauses.matching.queryText? = none ↔ ∀ b ∈ cs.flatMap i.searches, b.2 = []) ∧
    ∃ s, q.compile = .ok s ∧ ∀ text, q.clauses.matching.queryText? = some text →
      (∃ ps, s.params = ps ++ [.string text]) ∧
      MatchExpr.readScopes text = MatchExpr.heard q.clauses.matching.scopes ∧
      (MatchExpr.readScopes text = q.clauses.matching.scopes ↔
        q.clauses.matching.terms .anywhere = [] ∨
          MatchExpr.firstScope (cs.flatMap i.searches) = some .anywhere) := by
  obtain ⟨us, hus, h⟩ := reaches_of_applyAll hi hq₀ hq
  have hmatching : q.clauses.matching = MatchExpr.ofSearches (cs.flatMap i.searches) := by
    rw [h.matching, ← (adds_collect adds_updates hus).searches, Update.flatMap_searches]
    rfl
  have hgroups := isGroup_of_mem_scopes hi.sound hw
  have hgrouped := MatchExpr.Grouped.ofSearches (cs.flatMap i.searches)
  refine ⟨fun scope t => ?_, ?_, _, h.compile_eq hi, fun text htext => ⟨?_, ?_⟩⟩
  · rw [hmatching, MatchExpr.mem_terms_ofSearches]
    constructor
    · exact fun ht => ht.2
    · rintro ⟨b, hb, hscope, ht⟩
      exact ⟨(hw b hb t ht).nonempty, b, hb, hscope, ht⟩
  · rw [hmatching, MatchExpr.queryText?_eq_none_iff]
    constructor
    · intro hnone b hb
      refine List.eq_nil_iff_forall_not_mem.mpr fun t ht => ?_
      exact (hw b hb t ht).nonempty (hnone b hb t ht)
    · intro hnil b hb t ht
      rw [hnil b hb] at ht
      cases ht
  · refine ⟨(q.clauses.fragments.foldl Fragment.and q.base.whereFragment).params, ?_⟩
    unfold Statement.joined
    rw [Fragment.params_and]
    unfold Statement.matchFragment
    rw [htext]
  · rw [hmatching] at htext ⊢
    have hread := MatchExpr.readScopes_eq hgroups htext
    rw [hread, ← MatchExpr.first_ofSearches]
    exact ⟨rfl, hgrouped.heard_eq_iff⟩

/-- Calls for an unscoped term and then for terms in a field. -/
def searchCalls : List Call :=
  [.matchText ["fast"], .filter [("title__search", .scalar (.text "safe"))],
    .matchAll ["sound"] [("title", ["rust", "safe"])]]

theorem products_match_reads : ∃ q₀ q s ps, products.query = .ok q₀ ∧
    q₀.applyAll searchCalls = .ok q ∧ q.compile = .ok s ∧
    s.params = ps ++ [.string "fast sound @title safe rust"] ∧
    MatchExpr.readScopes "fast sound @title safe rust" = q.clauses.matching.scopes := by
  obtain ⟨o, ho, hquery⟩ := query_eq_ok products_valid
  cases ho
  have hw : ∀ b ∈ searchCalls.flatMap products.searches, ∀ t ∈ b.2, MatchExpr.IsWord t := by
    decide
  obtain ⟨-, -, s, hs, hread⟩ := match_reads products_valid hquery
    (rfl : Query.applyAll _ searchCalls = .ok _) hw
  obtain ⟨⟨ps, hps⟩, -, hiff⟩ := hread "fast sound @title safe rust" rfl
  exact ⟨_, _, s, ps, hquery, rfl, hs, hps, hiff.mpr (.inr rfl)⟩

/-- Calls for terms in a field and then for an unscoped one. -/
def lateCalls : List Call := [.matchField "title" ["rust"], .matchText ["fast"]]

/-- Behind the terms of a field, an unscoped term is read as one of them. -/
theorem products_match_misread : products.Valid ∧
    (∀ b ∈ lateCalls.flatMap products.searches, ∀ t ∈ b.2, MatchExpr.IsWord t) ∧
    ∃ q₀ q s, products.query = .ok q₀ ∧ q₀.applyAll lateCalls = .ok q ∧
      q.compile = .ok s ∧ s.params = [.string "@title rust fast"] ∧
      q.clauses.matching.scopes = [(.column "title", ["rust"]), (.anywhere, ["fast"])] ∧
      MatchExpr.readScopes "@title rust fast" = [(.column "title", ["rust", "fast"])] := by
  obtain ⟨o, ho, hquery⟩ := query_eq_ok products_valid
  cases ho
  exact ⟨products_valid, by decide, _, _, _, hquery, rfl, rfl, rfl, rfl, by decide +kernel⟩

end Index

end IndexQuery
