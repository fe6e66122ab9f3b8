import IndexQuery.Proofs.Origin
import IndexQuery.Proofs.Reading.Reader
import IndexQuery.Proofs.Scan.Condition

/-!
# Comparisons are atoms

A comparison of a declared field is read as one atom, provided that no name in it is a connective
and that the marker cannot be taken for a word or a parenthesis.

    comparisonText? marker f op n = some s → IsComparison (ofText s) n
                                                              (isComparison_comparisonText)
    i.Readable → i.Compares g → IsComparison (ofText g.sql) g.params.length
                                                              (isComparison_of_compares)
-/

namespace IndexQuery

open Text Identifier Token

/-- Whether a name reads as a connective, in letters of any case. -/
def Text.isConnective (s : String) : Bool := isAnd (.word s.toList) || isOr (.word s.toList)

/-- No name of an index is spelled like a connective, and its marker has no letters and no
parentheses. -/
structure Index.Readable (i : Index) : Prop where
  name : ∀ f ∈ i.schema.fields, isConnective f.name = false
  column : ∀ f ∈ i.schema.fields, isConnective f.storageColumn = false
  marker : ∀ c ∈ i.settings.marker.toList, c.isAlpha = false ∧ c ≠ '(' ∧ c ≠ ')'

namespace Token

/-! ## Tokens without open connectives -/

instance (ts : List Token) : Decidable (Solid ts) :=
  decidable_of_iff (closesFrom 0 ts = true ∧ unsplitFrom isAnd 0 ts = true ∧
      unsplitFrom isOr 0 ts = true)
    ⟨fun h => ⟨h.1, h.2.1, h.2.2⟩, fun h => ⟨h.closed, h.noAnd, h.noOr⟩⟩

/-- A token that is neither a parenthesis nor a connective. -/
def isPlain (t : Token) : Bool := t != .opening && t != .closing && !isAnd t && !isOr t

theorem solid_of_isPlain {ts : List Token} (h : ∀ t ∈ ts, isPlain t = true) : Solid ts := by
  induction ts with
  | nil => decide
  | cons t ts ih =>
    have ht : Solid [t] := by
      have hplain := h t List.mem_cons_self
      simp only [isPlain, Bool.and_eq_true, bne_iff_ne, Bool.not_eq_true'] at hplain
      obtain ⟨⟨⟨hopen, hclose⟩, hand⟩, hor⟩ := hplain
      have hdepth : depth 0 t = 0 := by
        cases t with
        | opening => exact absurd rfl hopen
        | _ => rfl
      constructor
      · simp [closesFrom, hclose, hdepth]
      · simp [unsplitFrom, hand]
      · simp [unsplitFrom, hor]
    exact ht.append (ih fun u hu => h u (List.mem_cons_of_mem t hu))

/-- A name in front of what has no open connective makes an atom. -/
theorem isAtom_cons {t : Token} (ht : isPlain t = true) {ts : List Token} (hts : Solid ts) :
    IsAtom (t :: ts) := by
  have hone : Solid [t] := solid_of_isPlain fun u hu => by rwa [List.mem_singleton.mp hu]
  have h := hone.append hts
  refine ⟨h, t, ts, rfl, ?_⟩
  rintro rfl
  cases ht

/-! ### Parameters do not matter -/

theorem closesFrom_fill (ps : List Param) (d : Nat) (ts : List Token) :
    closesFrom d (fill ps ts) = closesFrom d ts := by
  induction ts generalizing ps d with
  | nil => cases ps <;> rfl
  | cons t ts ih =>
    cases ps with
    | nil => rfl
    | cons p ps =>
      by_cases ht : t = .mark
      · subst ht
        simp [fill, closesFrom, depth, ih]
      · simp [fill, ht, closesFrom, ih]

theorem unsplitFrom_fill {separates : Token → Bool} (hs : ∀ t, (∀ cs, t ≠ .word cs) →
    separates t = false) (ps : List Param) (d : Nat) (ts : List Token) :
    unsplitFrom separates d (fill ps ts) = unsplitFrom separates d ts := by
  induction ts generalizing ps d with
  | nil => cases ps <;> rfl
  | cons t ts ih =>
    cases ps with
    | nil => rfl
    | cons p ps =>
      by_cases ht : t = .mark
      · subst ht
        have hvalue : separates (.value p) = false := hs _ fun cs h => Token.noConfusion h
        have hmark : separates .mark = false := hs _ fun cs h => Token.noConfusion h
        simp [fill, unsplitFrom, depth, ih, hvalue, hmark]
      · simp [fill, ht, unsplitFrom, ih]

theorem isKeyword_of_not_word {keyword : String} {t : Token} (h : ∀ cs, t ≠ .word cs) :
    isKeyword keyword t = false := by
  cases t with
  | word cs => exact absurd rfl (h cs)
  | _ => rfl

/-- Parameters in the place of placeholders leave an atom an atom. -/
theorem IsAtom.fill {ts : List Token} (h : IsAtom ts) (ps : List Param) :
    IsAtom (Token.fill ps ts) := by
  obtain ⟨t, r, rfl, ht⟩ := h.head
  refine ⟨⟨?_, ?_, ?_⟩, ?_⟩
  · rw [closesFrom_fill, h.closed]
  · exact (unsplitFrom_fill (fun _ => isKeyword_of_not_word) ps 0 _).trans h.noAnd
  · exact (unsplitFrom_fill (fun _ => isKeyword_of_not_word) ps 0 _).trans h.noOr
  · cases ps with
    | nil => exact ⟨t, r, rfl, ht⟩
    | cons p ps =>
      by_cases hm : t = .mark
      · exact ⟨.value p, Token.fill ps r, by simp [Token.fill, hm], by simp⟩
      · exact ⟨t, Token.fill (p :: ps) r, by simp [Token.fill, hm], ht⟩

/-! ## Tokens of comparisons -/

/-- Tokens without open connectives, with the given number of placeholders. -/
structure Operands (ts : List Token) (n : Nat) : Prop where
  solid : Solid ts
  count : marks ts = n

instance (ts : List Token) (n : Nat) : Decidable (Operands ts n) :=
  decidable_of_iff (Solid ts ∧ marks ts = n) ⟨fun h => ⟨h.1, h.2⟩, fun h => ⟨h.solid, h.count⟩⟩

theorem Operands.append {a b : List Token} {m n : Nat} (ha : Operands a m) (hb : Operands b n) :
    Operands (a ++ b) (m + n) :=
  ⟨ha.solid.append hb.solid, by rw [marks_append, ha.count, hb.count]⟩

theorem Operands.zero_append {a b : List Token} {n : Nat} (ha : Operands a 0)
    (hb : Operands b n) : Operands (a ++ b) n := by
  have h := ha.append hb
  rwa [Nat.zero_add] at h

theorem Operands.group {a : List Token} {n : Nat} (ha : Operands a n) :
    Operands (.opening :: (a ++ [.closing])) n := by
  refine ⟨solid_group ha.solid.closed, ?_⟩
  show marks ([.opening] ++ (a ++ [.closing])) = n
  rw [marks_append, marks_append, ha.count]
  exact Nat.zero_add n

theorem operands_placeholderList (n : Nat) :
    Operands (ofText (Fragment.placeholderList n)) n := by
  unfold Fragment.placeholderList
  induction n with
  | zero => decide
  | succ n ih =>
    cases n with
    | zero => decide
    | succ n =>
      have hmark : Operands (ofText "?" ++ ofText ", ") 1 := by decide
      rw [List.replicate_succ, List.replicate_succ, String.intercalate_cons_cons,
        ← List.replicate_succ, ofText_append (.inl (by decide)), ofText_append (.inr (by decide)),
        Nat.add_comm (n + 1)]
      exact hmark.append ih

/-- An atom with the given number of placeholders. -/
structure IsComparison (ts : List Token) (n : Nat) : Prop extends IsAtom ts where
  count : marks ts = n

theorem isPlain_word {s : String} (h : isConnective s = false) :
    isPlain (.word s.toList) = true := by
  simp only [isConnective, Bool.or_eq_false_iff] at h
  simp [isPlain, h.1, h.2]

/-- A name before operands. -/
theorem isComparison_cons {s : String} (hs : isConnective s = false) {ts : List Token} {n : Nat}
    (h : Operands ts n) : IsComparison (.word s.toList :: ts) n := by
  refine ⟨isAtom_cons (isPlain_word hs) h.solid, ?_⟩
  rw [← h.count]
  simp [marks]

theorem operands_word {s : String} (hs : isConnective s = false) :
    Operands [.word s.toList] 0 := by
  refine ⟨solid_of_isPlain fun t ht => ?_, by simp [marks]⟩
  rw [List.mem_singleton.mp ht]
  exact isPlain_word hs

/-- A name between texts that end and begin outside words. -/
theorem ofText_wrap {s : String} (hs : isIdentifier s = true) {a b : String}
    (ha : a.toList.getLast?.any isTail = false) (hb : b.toList.head?.any isTail = false) :
    ofText (a ++ s ++ b) = ofText a ++ .word s.toList :: ofText b := by
  rw [ofText_append (.inr hb), ofText_append (.inl ha), ofText_identifier hs, List.append_assoc]
  rfl

/-- A name compared with a value. -/
theorem ofText_compare {column : String} (hc : isIdentifier column = true) (symbol : String) :
    ofText (column ++ " " ++ symbol ++ " ?") =
      .word column.toList :: (ofText symbol ++ [.mark]) := by
  have hblank : ofText (column ++ " ") = [.word column.toList] := by
    rw [ofText_append (.inr (by decide)), ofText_identifier hc]
    rfl
  rw [ofText_append (.inr (by decide)), ofText_append (apart_of_getLast? rfl (by decide)), hblank]
  rfl

end Token

namespace Predicate

variable {column sql : String} {op : Operator} {n : Nat}

theorem isComparison_compareText (hc : isIdentifier column = true)
    (hk : isConnective column = false) (hn : op ≠ .oneOf → n = 1) (hs : op ≠ .search) :
    IsComparison (ofText (Condition.compareText column op n)) n := by
  have hsymbol : ∀ {s : String}, Operands (ofText s ++ [.mark]) 1 →
      IsComparison (ofText (column ++ " " ++ s ++ " ?")) 1 := by
    intro s h
    rw [ofText_compare hc]
    exact isComparison_cons hk h
  cases op with
  | oneOf =>
    have hlist := (operands_placeholderList n).group
    have hin : Operands (ofText " IN") 0 := by decide
    have htokens : ofText (column ++ " IN (" ++ Fragment.placeholderList n ++ ")") =
        .word column.toList ::
          (ofText " IN" ++ .opening :: (ofText (Fragment.placeholderList n) ++ [.closing])) := by
      rw [ofText_append (.inr (by decide)), ofText_append (apart_of_getLast? rfl (by decide)),
        ofText_append (.inr (by decide)), ofText_identifier hc]
      rfl
    show IsComparison (ofText (column ++ " IN (" ++ Fragment.placeholderList n ++ ")")) n
    rw [htokens]
    exact isComparison_cons hk (hin.zero_append hlist)
  | search => exact absurd rfl hs
  | exact => rw [hn (by decide)]; exact hsymbol (s := "=") (by decide)
  | greater => rw [hn (by decide)]; exact hsymbol (s := ">") (by decide)
  | greaterEqual => rw [hn (by decide)]; exact hsymbol (s := ">=") (by decide)
  | less => rw [hn (by decide)]; exact hsymbol (s := "<") (by decide)
  | lessEqual => rw [hn (by decide)]; exact hsymbol (s := "<=") (by decide)
  | notEqual => rw [hn (by decide)]; exact hsymbol (s := "<>") (by decide)

theorem isComparison_setComparison (hc : isIdentifier column = true)
    (hk : isConnective column = false) (h : setComparison? column op = some sql) :
    IsComparison (ofText sql) 1 := by
  have hbound : ∀ function symbol : String, isConnective function = false →
      Operands (ofText symbol ++ [.mark]) 1 →
      ofText sql = .word function.toList ::
        ((.opening :: ([.word column.toList] ++ [.closing])) ++ (ofText symbol ++ [.mark])) →
      IsComparison (ofText sql) 1 := by
    intro function symbol hf hts htokens
    rw [htokens]
    exact isComparison_cons hf ((operands_word hk).group.zero_append hts)
  cases op with
  | exact =>
    cases h
    have hmark : Operands [.symbol ',', .mark] 1 := by decide
    have htokens : ofText ("IN(" ++ column ++ ", ?)") = .word "IN".toList ::
        (.opening :: (([.word column.toList] ++ [.symbol ',', .mark]) ++ [.closing])) :=
      ofText_wrap hc (by decide) (by decide)
    rw [htokens]
    exact isComparison_cons (by decide) ((operands_word hk).zero_append hmark).group
  | greater =>
    cases h
    exact hbound "LEAST" ">" (by decide) (by decide) (ofText_wrap hc (by decide) (by decide))
  | greaterEqual =>
    cases h
    exact hbound "LEAST" ">=" (by decide) (by decide) (ofText_wrap hc (by decide) (by decide))
  | less =>
    cases h
    exact hbound "GREATEST" "<" (by decide) (by decide) (ofText_wrap hc (by decide) (by decide))
  | lessEqual =>
    cases h
    exact hbound "GREATEST" "<=" (by decide) (by decide) (ofText_wrap hc (by decide) (by decide))
  | oneOf => cases h
  | search => cases h
  | notEqual => cases h

/-! ## Marked names -/

/-- A word with a character other than a letter in front is no connective. -/
theorem isPlain_word_cons {c : Char} (hc : c.isAlpha = false) (r : List Char) :
    isPlain (.word (c :: r)) = true := by
  have hlower : c.toLower = c := by
    have hupper : ¬(c.val ≥ 'A'.val ∧ c.val ≤ 'Z'.val) := by
      intro h
      have hup : c.isUpper = true := decide_eq_true h
      have hsides : (c.isUpper || c.isLower) = false := hc
      rw [hup, Bool.true_or] at hsides
      cases hsides
    unfold Char.toLower
    rw [dif_neg hupper]
  have hkeyword : ∀ {d : Char} {ds : List Char}, d.isAlpha = true →
      ((c :: r).map Char.toLower == d :: ds) = false := by
    intro d ds hd
    rw [List.map_cons, hlower]
    apply beq_false_of_ne
    intro h
    rw [(List.cons.inj h).1, hd] at hc
    cases hc
  have hand : isAnd (.word (c :: r)) = false := hkeyword (d := 'a') (by decide)
  have hor : isOr (.word (c :: r)) = false := hkeyword (d := 'o') (by decide)
  simp [isPlain, hand, hor]

/-- A character of a marker. -/
theorem isPlain_ofChar {c : Char} (hopen : c ≠ '(') (hclose : c ≠ ')') (hmark : c ≠ placeholder)
    {t : Token} (ht : t ∈ ofChar c) : isPlain t = true ∧ t ≠ .mark := by
  unfold ofChar at ht
  rw [if_neg hopen, if_neg hclose, if_neg hmark] at ht
  split at ht
  · cases ht
  · obtain rfl := List.mem_singleton.mp ht
    exact ⟨rfl, fun h => Token.noConfusion h⟩

/-- Behind the characters `w` and a marker, a name is part of a word that is no connective. -/
theorem isPlain_scan {s : String} (hs : isIdentifier s = true) (hk : isConnective s = false)
    {m : List Char} (hm : ∀ c ∈ m, c.isAlpha = false ∧ c ≠ '(' ∧ c ≠ ')' ∧ c ≠ placeholder)
    {w : List Char} (hw : ∀ c ∈ w, c.isAlpha = false) :
    scan w (m ++ s.toList) ≠ [] ∧
      ∀ t ∈ scan w (m ++ s.toList), isPlain t = true ∧ t ≠ .mark := by
  have hword : ∀ {w : List Char}, (∀ c ∈ w, c.isAlpha = false) →
      ∀ t ∈ ofWord w, isPlain t = true ∧ t ≠ .mark := by
    intro w hw t ht
    cases w with
    | nil => cases ht
    | cons c r =>
      obtain rfl := List.mem_singleton.mp ht
      exact ⟨isPlain_word_cons (hw c List.mem_cons_self) r, fun h => Token.noConfusion h⟩
  induction m generalizing w with
  | nil =>
    rw [List.nil_append, scan_of_isTail fun c hc => isTail_of_mem hs hc]
    cases w with
    | nil =>
      obtain ⟨c, r, hcr, -, -⟩ := isIdentifier_eq_true_iff.mp hs
      have hplain := isPlain_word hk
      rw [hcr] at hplain
      rw [List.nil_append, hcr]
      refine ⟨List.cons_ne_nil _ _, fun t ht => ?_⟩
      obtain rfl := List.mem_singleton.mp ht
      exact ⟨hplain, fun h => Token.noConfusion h⟩
    | cons c r =>
      refine ⟨List.cons_ne_nil _ _, fun t ht => ?_⟩
      obtain rfl := List.mem_singleton.mp ht
      exact ⟨isPlain_word_cons (hw c List.mem_cons_self) _, fun h => Token.noConfusion h⟩
  | cons c m ih =>
    obtain ⟨hc, hopen, hclose, hmark⟩ := hm c List.mem_cons_self
    have hrest := fun d hd => hm d (List.mem_cons_of_mem c hd)
    rw [List.cons_append, scan]
    split
    · apply ih hrest
      intro d hd
      rcases List.mem_append.mp hd with hd | hd
      · exact hw d hd
      · rw [List.mem_singleton.mp hd]
        exact hc
    · obtain ⟨hne, hplain⟩ := ih hrest (w := []) fun d hd => absurd hd List.not_mem_nil
      refine ⟨fun h => hne (List.append_eq_nil_iff.mp (List.append_eq_nil_iff.mp h).2).2, ?_⟩
      intro t ht
      rcases List.mem_append.mp ht with ht | ht
      · exact hword hw t ht
      · rcases List.mem_append.mp ht with ht | ht
        · exact isPlain_ofChar hopen hclose hmark ht
        · exact hplain t ht

theorem isComparison_inequality {marker : String} (hmarker : Settings.isMarker marker = true)
    (hm : ∀ c ∈ marker.toList, c.isAlpha = false ∧ c ≠ '(' ∧ c ≠ ')') {s : String}
    (hs : isIdentifier s = true) (hk : isConnective s = false) :
    IsComparison (ofText (marker ++ s ++ " <> ?")) 1 := by
  have hquiet : ∀ c ∈ marker.toList, c.isAlpha = false ∧ c ≠ '(' ∧ c ≠ ')' ∧ c ≠ placeholder :=
    fun c hc => ⟨(hm c hc).1, (hm c hc).2.1, (hm c hc).2.2,
      (Settings.quiet_marker hmarker c hc).2⟩
  obtain ⟨hne, hplain⟩ := isPlain_scan hs hk hquiet (w := []) fun d hd => absurd hd List.not_mem_nil
  have htail : Operands (ofText " <> ?") 1 := by decide
  rw [ofText_append (.inr (by decide)), ofText, String.toList_append]
  cases hts : scan [] (marker.toList ++ s.toList) with
  | nil => exact absurd hts hne
  | cons t ts =>
    rw [hts] at hplain
    have hsolid := solid_of_isPlain fun u hu => (hplain u (List.mem_cons_of_mem t hu)).1
    refine ⟨isAtom_cons (hplain t List.mem_cons_self).1 (hsolid.append htail.solid), ?_⟩
    have hcount : marks (t :: ts) = 0 :=
      List.count_eq_zero.mpr fun h => (hplain _ h).2 rfl
    rw [marks_append, hcount, htail.count]

/-! ## All comparisons -/

theorem isComparison_comparisonText {marker : String} {f : Field}
    (hmarker : Settings.isMarker marker = true)
    (hm : ∀ c ∈ marker.toList, c.isAlpha = false ∧ c ≠ '(' ∧ c ≠ ')')
    (hname : isIdentifier f.name = true) (hcolumn : isIdentifier f.storageColumn = true)
    (hkname : isConnective f.name = false) (hkcolumn : isConnective f.storageColumn = false)
    (hn : op ≠ .oneOf → n = 1) (h : comparisonText? marker f op n = some sql) :
    IsComparison (ofText sql) n := by
  unfold comparisonText? at h
  split at h
  · split at h
    · cases h
      have hcomma : Operands [.symbol ','] 0 := by decide
      have htokens :
          ofText ("IN(" ++ f.storageColumn ++ ", " ++ Fragment.placeholderList n ++ ")") =
          .word "IN".toList :: (.opening :: (([.word f.storageColumn.toList] ++
            ([.symbol ','] ++ ofText (Fragment.placeholderList n))) ++ [.closing])) := by
        rw [ofText_append (.inr (by decide)), ofText_append (apart_of_getLast? rfl (by decide)),
          ofText_wrap hcolumn (by decide) (by decide), List.append_assoc, List.append_assoc]
        rfl
      rw [htokens]
      exact isComparison_cons (by decide) ((operands_word hkcolumn).zero_append
        (hcomma.zero_append (operands_placeholderList n))).group
    · next hne =>
      rw [hn hne]
      exact isComparison_setComparison hcolumn hkcolumn h
  · split at h
    · cases h
      rw [hn (by decide)]
      unfold inequalityColumn
      split
      · exact isComparison_inequality hmarker hm hname hkname
      · have htail : Operands (ofText " <> ?") 1 := by decide
        rw [ofText_append (.inr (by decide)), ofText_identifier hcolumn]
        exact isComparison_cons hkcolumn htail
    · cases h
    · next hs =>
      cases h
      exact isComparison_compareText hcolumn hkcolumn hn hs

end Predicate

namespace Index

variable {i : Index} {g : Fragment}

theorem isComparison_of_compares (hi : i.Valid) (hr : i.Readable) (h : i.Compares g) :
    IsComparison (ofText g.sql) g.params.length := by
  obtain ⟨p, hp, hg⟩ := h
  have hs := hi.sound
  obtain ⟨hm, -⟩ := Settings.validate_eq_ok hi.validate
  refine Predicate.isComparison_comparisonText hm hr.marker (hs.name _ hp) (hs.column _ hp)
    (hr.name _ hp) (hr.column _ hp) (fun hne => ?_) hg.text
  obtain ⟨q, hq⟩ := hg.single hne
  rw [hq]
  rfl

end Index

end IndexQuery
