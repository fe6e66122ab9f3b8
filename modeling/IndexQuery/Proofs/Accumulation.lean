import IndexQuery.MatchExpr
import Mathlib.Data.List.Induction

/-!
# Search terms that add up

Search terms come in additions, each of several terms to one scope.  What they add up to is told by
first occurrences alone: the scopes stand in the order in which a term first came to them, and each
holds its terms in the order in which they first came.  An addition counts the terms that are new to
its scope, and one that was made before has none.

    (ofSearches bs).scopes.map Prod.fst = ((brought bs).map Prod.fst).eraseDups
    (ofSearches bs).terms s = (broughtTo s bs).eraseDups                     (terms_ofSearches)
    ((e.add s ts).terms s).length = (e.terms s).length + countAdded s e ts   (length_terms_add)
    (∀ t ∈ ts, t ≠ "" → t ∈ e.terms s) → e.add s ts = e                            (add_of_mem)
-/

namespace IndexQuery

/-! ## First occurrences -/

section

variable {α : Type} [DecidableEq α]

/-- A member at the end is kept if it is new. -/
theorem eraseDups_concat (l : List α) (a : α) :
    (l ++ [a]).eraseDups = if a ∈ l then l.eraseDups else l.eraseDups ++ [a] := by
  have hnew : [a].removeAll l = if a ∈ l then [] else [a] := by
    by_cases h : a ∈ l <;> simp [List.removeAll, h]
  rw [List.eraseDups_append, hnew]
  split
  · exact List.append_nil _
  · rfl

theorem nodup_eraseDups (l : List α) : l.eraseDups.Nodup := by
  induction l using List.reverseRecOn with
  | nil => exact List.nodup_nil
  | append_singleton l a ih =>
    rw [eraseDups_concat]
    split
    · exact ih
    · next h =>
      refine List.nodup_append.mpr ⟨ih, List.pairwise_singleton _ _, fun b hb c hc => ?_⟩
      rw [List.mem_singleton.mp hc]
      exact fun heq => h (heq ▸ List.mem_eraseDups.mp hb)

end

namespace MatchExpr

/-! ## Algorithm -/

/-- The search terms of a run as one expression. -/
def ofSearches (bs : List (MatchScope × List String)) : MatchExpr :=
  bs.foldl (fun e b => e.add b.1 b.2) .empty

/-- The terms that additions bring, each with its scope; an empty one counts for nothing. -/
def brought (bs : List (MatchScope × List String)) : List (MatchScope × String) :=
  bs.flatMap fun b => (b.2.filter (· != "")).map fun t => (b.1, t)

/-- The terms that additions bring to a scope. -/
def broughtTo (s : MatchScope) (bs : List (MatchScope × List String)) : List String :=
  ((brought bs).filter fun r => r.1 == s).map Prod.snd

/-- The expression of terms that come one by one. -/
def ofTerms (rs : List (MatchScope × String)) : MatchExpr :=
  rs.foldl (fun e r => addTerm r.1 e r.2) .empty

/-- Groups of different scopes, none of which is empty. -/
structure Grouped (e : MatchExpr) : Prop where
  scopes : (e.scopes.map Prod.fst).Nodup
  nonempty : ∀ g ∈ e.scopes, g.2 ≠ []

/-! ## Terms that come one by one -/

theorem map_fst_insertScoped (scope : MatchScope) (term : String)
    (groups : List (MatchScope × List String)) :
    (insertScoped scope term groups).map Prod.fst =
      if scope ∈ groups.map Prod.fst then groups.map Prod.fst
      else groups.map Prod.fst ++ [scope] := by
  induction groups with
  | nil => rfl
  | cons g groups ih =>
    obtain ⟨s, us⟩ := g
    unfold insertScoped
    by_cases hs : s = scope
    · simp [hs]
    · rw [if_neg hs, List.map_cons, ih]
      by_cases hmem : scope ∈ groups.map Prod.fst
      · simp [hmem]
      · simp [hmem, Ne.symm hs]

theorem add_eq_foldl (e : MatchExpr) (s : MatchScope) (ts : List String) :
    e.add s ts =
      ((ts.filter (· != "")).map fun t => (s, t)).foldl (fun e r => addTerm r.1 e r.2) e := by
  induction ts generalizing e with
  | nil => rfl
  | cons t ts ih =>
    have hrest : e.add s (t :: ts) = (addTerm s e t).add s ts := rfl
    rw [hrest, ih, List.filter_cons]
    by_cases ht : t = ""
    · simp [ht, addTerm]
    · simp [ht]

theorem ofSearches_eq_ofTerms (bs : List (MatchScope × List String)) :
    ofSearches bs = ofTerms (brought bs) := by
  unfold ofSearches ofTerms brought
  rw [List.foldl_flatMap]
  simp only [add_eq_foldl]

theorem ofTerms_concat (rs : List (MatchScope × String)) (r : MatchScope × String) :
    ofTerms (rs ++ [r]) = addTerm r.1 (ofTerms rs) r.2 := List.foldl_append

section

variable {rs : List (MatchScope × String)}

theorem map_fst_ofTerms (h : ∀ r ∈ rs, r.2 ≠ "") :
    (ofTerms rs).scopes.map Prod.fst = (rs.map Prod.fst).eraseDups := by
  induction rs using List.reverseRecOn with
  | nil => rfl
  | append_singleton rs r ih =>
    have hr := h r (List.mem_append_right rs List.mem_cons_self)
    have hrest := ih fun p hp => h p (List.mem_append_left [r] hp)
    rw [ofTerms_concat, addTerm, if_neg hr, map_fst_insertScoped, hrest, List.map_append,
      List.map_singleton, eraseDups_concat]
    simp only [List.mem_eraseDups]

theorem terms_ofTerms (h : ∀ r ∈ rs, r.2 ≠ "") (s : MatchScope) :
    (ofTerms rs).terms s = ((rs.filter fun r => r.1 == s).map Prod.snd).eraseDups := by
  induction rs using List.reverseRecOn with
  | nil => rfl
  | append_singleton rs r ih =>
    have hr := h r (List.mem_append_right rs List.mem_cons_self)
    have hrest := ih fun p hp => h p (List.mem_append_left [r] hp)
    rw [ofTerms_concat, List.filter_append, List.map_append]
    by_cases hs : r.1 = s
    · subst hs
      have hlast : [r].filter (fun p => p.1 == r.1) = [r] := by simp
      rw [terms_addTerm_self hr, hrest, insertTerm, hlast, List.map_singleton, eraseDups_concat]
      simp only [List.mem_eraseDups]
    · have hlast : [r].filter (fun p => p.1 == s) = [] := by simp [hs]
      rw [terms_addTerm_of_ne (Ne.symm hs), hrest, hlast, List.map_nil, List.append_nil]

end

/-! ## What additions add up to -/

section

variable {bs : List (MatchScope × List String)}

theorem mem_brought {r : MatchScope × String} :
    r ∈ brought bs ↔ r.2 ≠ "" ∧ ∃ b ∈ bs, b.1 = r.1 ∧ r.2 ∈ b.2 := by
  unfold brought
  constructor
  · intro h
    obtain ⟨b, hb, h⟩ := List.mem_flatMap.mp h
    obtain ⟨t, ht, rfl⟩ := List.mem_map.mp h
    obtain ⟨ht, hne⟩ := List.mem_filter.mp ht
    exact ⟨bne_iff_ne.mp hne, b, hb, rfl, ht⟩
  · rintro ⟨hne, b, hb, hs, ht⟩
    refine List.mem_flatMap.mpr ⟨b, hb, List.mem_map.mpr ⟨r.2, ?_, Prod.ext hs rfl⟩⟩
    exact List.mem_filter.mpr ⟨ht, bne_iff_ne.mpr hne⟩

theorem map_fst_ofSearches :
    (ofSearches bs).scopes.map Prod.fst = ((brought bs).map Prod.fst).eraseDups := by
  rw [ofSearches_eq_ofTerms]
  exact map_fst_ofTerms fun r hr => (mem_brought.mp hr).1

theorem terms_ofSearches (s : MatchScope) :
    (ofSearches bs).terms s = (broughtTo s bs).eraseDups := by
  rw [ofSearches_eq_ofTerms]
  exact terms_ofTerms (fun r hr => (mem_brought.mp hr).1) s

/-- A scope holds the terms that were searched for in it, but for empty ones. -/
theorem mem_terms_ofSearches {s : MatchScope} {t : String} :
    t ∈ (ofSearches bs).terms s ↔ t ≠ "" ∧ ∃ b ∈ bs, b.1 = s ∧ t ∈ b.2 := by
  rw [terms_ofSearches, List.mem_eraseDups]
  refine Iff.trans ⟨fun h => ?_, fun h => ?_⟩ (mem_brought (r := (s, t)))
  · obtain ⟨r, hr, rfl⟩ := List.mem_map.mp h
    obtain ⟨hr, hs⟩ := List.mem_filter.mp hr
    exact beq_iff_eq.mp hs ▸ hr
  · exact List.mem_map.mpr ⟨(s, t), List.mem_filter.mpr ⟨h, beq_self_eq_true s⟩, rfl⟩

theorem scopes_eq_nil_iff : (ofSearches bs).scopes = [] ↔ brought bs = [] := by
  rw [← List.map_eq_nil_iff (f := Prod.fst), map_fst_ofSearches]
  cases brought bs with
  | nil => exact iff_of_true rfl rfl
  | cons r rs => exact iff_of_false (by simp [List.eraseDups_cons]) (List.cons_ne_nil r rs)

/-- There is nothing to search for if and only if no term is more than the empty one. -/
theorem isEmpty_ofSearches (bs : List (MatchScope × List String)) :
    (ofSearches bs).isEmpty = false ↔ ∃ b ∈ bs, ∃ t ∈ b.2, t ≠ "" := by
  have hempty : (ofSearches bs).isEmpty = false ↔ brought bs ≠ [] := by
    rw [← Bool.not_eq_true, ne_eq, ← scopes_eq_nil_iff]
    exact not_congr List.isEmpty_iff
  rw [hempty]
  constructor
  · intro h
    obtain ⟨r, hr⟩ := List.exists_mem_of_ne_nil _ h
    obtain ⟨hne, b, hb, -, ht⟩ := mem_brought.mp hr
    exact ⟨b, hb, r.2, ht, hne⟩
  · rintro ⟨b, hb, t, ht, hne⟩
    exact List.ne_nil_of_mem (mem_brought.mpr ⟨hne, b, hb, rfl, ht⟩ : (b.1, t) ∈ brought bs)

/-- The terms of a scope are those of its group, if no other group has the scope. -/
theorem terms_of_mem_scopes {e : MatchExpr} (h : (e.scopes.map Prod.fst).Nodup)
    {g : MatchScope × List String} (hg : g ∈ e.scopes) : e.terms g.1 = g.2 := by
  have hfind : ∀ {groups : List (MatchScope × List String)}, (groups.map Prod.fst).Nodup →
      g ∈ groups → groups.find? (fun k => k.1 == g.1) = some g := by
    intro groups hscopes hg
    induction groups with
    | nil => cases hg
    | cons k groups ih =>
      rw [List.map_cons, List.nodup_cons] at hscopes
      rcases List.mem_cons.mp hg with rfl | hg
      · simp
      · have hne : k.1 ≠ g.1 := fun heq => hscopes.1 (heq ▸ List.mem_map_of_mem hg)
        rw [List.find?_cons_of_neg (by simpa using hne), ih hscopes.2 hg]
  unfold terms
  rw [hfind h hg]
  rfl

namespace Grouped

theorem ofSearches (bs : List (MatchScope × List String)) :
    (MatchExpr.ofSearches bs).Grouped := by
  have hscopes : ((MatchExpr.ofSearches bs).scopes.map Prod.fst).Nodup := by
    rw [map_fst_ofSearches]
    exact nodup_eraseDups _
  refine ⟨hscopes, fun g hg => ?_⟩
  have hscope := List.mem_map_of_mem (f := Prod.fst) hg
  rw [map_fst_ofSearches, List.mem_eraseDups] at hscope
  obtain ⟨r, hr, hs⟩ := List.mem_map.mp hscope
  obtain ⟨hne, b, hb, hbs, ht⟩ := mem_brought.mp hr
  rw [← terms_of_mem_scopes hscopes hg]
  exact List.ne_nil_of_mem (mem_terms_ofSearches.mpr ⟨hne, b, hb, hbs.trans hs, ht⟩)

/-- The terms of a scope are those of its group. -/
theorem terms_eq {e : MatchExpr} (h : e.Grouped) {g : MatchScope × List String}
    (hg : g ∈ e.scopes) : e.terms g.1 = g.2 := terms_of_mem_scopes h.scopes hg

end Grouped

end

/-! ## Single additions -/

section

variable (e : MatchExpr) (s : MatchScope)

/-- Each term that an addition counts is one more in its scope. -/
theorem length_terms_add (ts : List String) :
    ((e.add s ts).terms s).length = (e.terms s).length + countAdded s e ts := by
  induction ts generalizing e with
  | nil => rfl
  | cons t ts ih =>
    have hterm : ((addTerm s e t).terms s).length =
        (e.terms s).length + if e.isNew s t then 1 else 0 := by
      by_cases ht : t = ""
      · simp [ht, addTerm, isNew]
      · rw [terms_addTerm_self ht, insertTerm]
        by_cases hmem : t ∈ e.terms s <;> simp [isNew, ht, hmem]
    have hrest : e.add s (t :: ts) = (addTerm s e t).add s ts := rfl
    rw [hrest, ih, hterm, countAdded, Nat.add_assoc]

theorem countAdded_append (ts us : List String) :
    countAdded s e (ts ++ us) = countAdded s e ts + countAdded s (e.add s ts) us := by
  have hwhole := length_terms_add e s (ts ++ us)
  rw [add_append, length_terms_add, length_terms_add] at hwhole
  omega

/-- Additions to one scope in a row are one addition. -/
theorem foldl_add_flatten (tss : List (List String)) :
    (tss.map fun ts => (s, ts)).foldl (fun e b => e.add b.1 b.2) e = e.add s tss.flatten := by
  induction tss generalizing e with
  | nil => rfl
  | cons ts tss ih => rw [List.map_cons, List.foldl_cons, ih, List.flatten_cons, add_append]

variable {e s}

/-- A term that its scope holds changes nothing. -/
theorem addTerm_of_mem {t : String} (h : t ∈ e.terms s) : addTerm s e t = e := by
  obtain ⟨groups⟩ := e
  have hgroups : insertScoped s t groups = groups := by
    induction groups with
    | nil => cases h
    | cons g groups ih =>
      obtain ⟨s', ts⟩ := g
      unfold insertScoped
      by_cases hs : s' = s
      · have hmem : t ∈ ts := by simpa [terms, hs] using h
        rw [if_pos hs, insertTerm, if_pos hmem]
      · rw [if_neg hs, ih (by simpa [terms, hs] using h)]
  unfold addTerm
  split
  · rfl
  · rw [hgroups]

/-- Terms that their scope holds change nothing, and neither do empty ones. -/
theorem add_of_mem {ts : List String} (h : ∀ t ∈ ts, t ≠ "" → t ∈ e.terms s) :
    e.add s ts = e := by
  induction ts with
  | nil => rfl
  | cons t ts ih =>
    have hterm : addTerm s e t = e := by
      by_cases ht : t = ""
      · rw [addTerm, if_pos ht]
      · exact addTerm_of_mem (h t List.mem_cons_self ht)
    have hrest : e.add s (t :: ts) = (addTerm s e t).add s ts := rfl
    rw [hrest, hterm, ih fun u hu => h u (List.mem_cons_of_mem t hu)]

end

/-! ## Histories of additions -/

/-- After any additions the scopes are those that a term came to, in the order of their first term,
and the terms of a scope are those that came to it, in the order in which each first came; no scope
stands twice or is empty.  The count of an addition is the growth of its scope.  To cut an addition
into several in a row changes neither the expression, whatever comes behind, nor what is counted in
all; and an addition that was made before counts nothing and leaves the expression as it is. -/
theorem searches_accumulate (bs : List (MatchScope × List String)) :
    (ofSearches bs).scopes.map Prod.fst = ((brought bs).map Prod.fst).eraseDups ∧
    (∀ s, (ofSearches bs).terms s = (broughtTo s bs).eraseDups) ∧
    (∀ g ∈ (ofSearches bs).scopes, g.2 = (broughtTo g.1 bs).eraseDups ∧ g.2 ≠ []) ∧
    ((ofSearches bs).scopes.map Prod.fst).Nodup ∧
    (∀ s ts, ((ofSearches (bs ++ [(s, ts)])).terms s).length =
      ((ofSearches bs).terms s).length + countAdded s (ofSearches bs) ts) ∧
    (∀ s (tss : List (List String)) cs, ofSearches (bs ++ (s, tss.flatten) :: cs) =
      ofSearches (bs ++ tss.map (fun ts => (s, ts)) ++ cs)) ∧
    (∀ s ts us, countAdded s (ofSearches bs) (ts ++ us) =
      countAdded s (ofSearches bs) ts + countAdded s (ofSearches (bs ++ [(s, ts)])) us) ∧
    ∀ b ∈ bs, countAdded b.1 (ofSearches bs) b.2 = 0 ∧
      ofSearches (bs ++ [b]) = ofSearches bs := by
  have hgrouped := Grouped.ofSearches bs
  have happend : ∀ ds, ofSearches (bs ++ ds) =
      ds.foldl (fun e b => e.add b.1 b.2) (ofSearches bs) := fun ds => List.foldl_append
  have hconcat : ∀ s ts, ofSearches (bs ++ [(s, ts)]) = (ofSearches bs).add s ts :=
    fun s ts => happend [(s, ts)]
  refine ⟨map_fst_ofSearches, terms_ofSearches, fun g hg => ⟨?_, hgrouped.nonempty g hg⟩,
    hgrouped.scopes, fun s ts => ?_, fun s tss cs => ?_, fun s ts us => ?_, fun b hb => ?_⟩
  · rw [← terms_ofSearches, hgrouped.terms_eq hg]
  · rw [hconcat, length_terms_add]
  · rw [List.append_assoc, happend, happend, List.foldl_append, foldl_add_flatten, List.foldl_cons]
  · rw [hconcat, countAdded_append]
  · have hheld : (ofSearches bs).add b.1 b.2 = ofSearches bs :=
      add_of_mem fun t ht hne => mem_terms_ofSearches.mpr ⟨hne, b, hb, rfl, ht⟩
    have hgrowth := length_terms_add (ofSearches bs) b.1 b.2
    rw [hheld] at hgrowth
    exact ⟨by omega, (hconcat b.1 b.2).trans hheld⟩

end MatchExpr

end IndexQuery
