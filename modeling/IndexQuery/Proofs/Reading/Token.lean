import IndexQuery.Fragment
import IndexQuery.Proofs.Scan.Text

/-!
# Tokens of a condition

A condition is read as words, parentheses, placeholders and other symbols; blanks only separate.
With its parameters in the place of its placeholders it is the list of tokens `Fragment.bound`.

    ofText (s ++ t) = ofText s ++ ofText t   if no word runs across       (ofText_append)
    fill (ps ++ qs) (ts ++ us) = fill ps ts ++ fill qs us                 (fill_append)
    params (fill ps (ofText s)) = ps                                      (params_fill_ofText)
-/

namespace IndexQuery

open Text Identifier

/-- A piece of a condition. -/
inductive Token where
  /-- An unbroken run of letters, digits and underscores. -/
  | word (cs : List Char)
  | symbol (c : Char)
  | opening
  | closing
  /-- A placeholder without its parameter. -/
  | mark
  /-- A parameter in the place of its placeholder. -/
  | value (p : Param)
  deriving DecidableEq, Repr

namespace Token

/-! ## Algorithm -/

/-- What a character that belongs to no word is read as. -/
def ofChar (c : Char) : List Token :=
  if c = ' ' then []
  else if c = '(' then [.opening]
  else if c = ')' then [.closing]
  else if c = placeholder then [.mark]
  else [.symbol c]

/-- The word that a run of characters is, unless it is empty. -/
def ofWord : List Char → List Token
  | [] => []
  | c :: r => [.word (c :: r)]

/-- The tokens of a text of which a word was begun. -/
def scan (w : List Char) : List Char → List Token
  | [] => ofWord w
  | c :: r => if isTail c then scan (w ++ [c]) r else ofWord w ++ (ofChar c ++ scan [] r)

/-- The tokens of a text. -/
def ofText (s : String) : List Token := scan [] s.toList

/-- How many placeholders there are. -/
def marks (ts : List Token) : Nat := ts.count .mark

/-- Parameters put in the place of placeholders, in order. -/
def fill : List Param → List Token → List Token
  | _, [] => []
  | [], ts => ts
  | p :: ps, t :: ts => if t = .mark then .value p :: fill ps ts else t :: fill (p :: ps) ts

/-- The parameter that a token is. -/
def value? : Token → Option Param
  | .value p => some p
  | _ => none

/-- The parameters among tokens. -/
def params (ts : List Token) : List Param := ts.filterMap value?

/-- A word that means a connective, in letters of any case. -/
def isKeyword (keyword : String) : Token → Bool
  | .word cs => cs.map Char.toLower == keyword.toList
  | _ => false

/-- The word for both. -/
def isAnd : Token → Bool := isKeyword "and"

/-- The word for one of two. -/
def isOr : Token → Bool := isKeyword "or"

end Token

/-- The tokens of a fragment, its parameters in the place of its placeholders. -/
def Fragment.bound (f : Fragment) : List Token := Token.fill f.params (Token.ofText f.sql)

namespace Token

/-! ## Tokens of neighbouring texts -/

theorem scan_append {c : Char} (hc : isTail c = false) (w a b : List Char) :
    scan w (a ++ c :: b) = scan w a ++ (ofChar c ++ scan [] b) := by
  induction a generalizing w with
  | nil => simp only [List.nil_append, scan, hc, Bool.false_eq_true, if_false]
  | cons d a ih =>
    rw [List.cons_append, scan, scan]
    split
    · exact ih _
    · rw [ih, List.append_assoc, List.append_assoc]

/-- No word runs from one text into the other. -/
def Apart (s t : String) : Prop :=
  s.toList.getLast?.any isTail = false ∨ t.toList.head?.any isTail = false

theorem apart_of_getLast? {s t u : String} {c : Char} (hc : t.toList.getLast? = some c)
    (h : isTail c = false) : Apart (s ++ t) u := by
  refine .inl ?_
  rw [String.toList_append, List.getLast?_append, hc]
  exact h

theorem ofText_append {s t : String} (h : Apart s t) :
    ofText (s ++ t) = ofText s ++ ofText t := by
  unfold ofText
  rw [String.toList_append]
  rcases h with h | h
  · rcases List.eq_nil_or_concat s.toList with hs | ⟨a, c, hs⟩
    · rw [hs]
      rfl
    · rw [List.concat_eq_append] at hs
      rw [hs, List.getLast?_concat] at h
      have hc : isTail c = false := h
      have hnil : scan [] (a ++ [c]) = scan [] a ++ (ofChar c ++ []) := scan_append hc [] a []
      rw [hs, hnil, List.append_assoc, List.singleton_append, scan_append hc, List.append_nil,
        List.append_assoc]
  · cases ht : t.toList with
    | nil =>
      rw [List.append_nil]
      exact (List.append_nil _).symm
    | cons c b =>
      rw [ht] at h
      have hc : isTail c = false := h
      have hcons : scan [] (c :: b) = ofChar c ++ scan [] b := scan_append hc [] [] b
      rw [scan_append hc, hcons]

theorem scan_of_isTail {cs : List Char} (h : ∀ c ∈ cs, isTail c = true) (w : List Char) :
    scan w cs = ofWord (w ++ cs) := by
  induction cs generalizing w with
  | nil => rw [scan, List.append_nil]
  | cons c cs ih =>
    rw [scan, if_pos (h c List.mem_cons_self), ih fun d hd => h d (List.mem_cons_of_mem c hd),
      List.append_assoc, List.singleton_append]

/-- An identifier is one word. -/
theorem ofText_identifier {s : String} (h : isIdentifier s = true) :
    ofText s = [.word s.toList] := by
  unfold ofText
  rw [scan_of_isTail fun c hc => isTail_of_mem h hc, List.nil_append]
  obtain ⟨c, r, hs, -, -⟩ := isIdentifier_eq_true_iff.mp h
  rw [hs]
  rfl

/-! ## Parameters in the place of placeholders -/

theorem marks_append (ts us : List Token) : marks (ts ++ us) = marks ts + marks us :=
  List.count_append

theorem fill_nil (ts : List Token) : fill [] ts = ts := by
  cases ts <;> rfl

theorem fill_append {ps : List Param} {ts : List Token} (h : marks ts = ps.length)
    (qs : List Param) (us : List Token) :
    fill (ps ++ qs) (ts ++ us) = fill ps ts ++ fill qs us := by
  induction ts generalizing ps with
  | nil =>
    obtain rfl := List.eq_nil_of_length_eq_zero h.symm
    rfl
  | cons t ts ih =>
    by_cases ht : t = .mark
    · subst ht
      cases ps with
      | nil => simp [marks] at h
      | cons p ps =>
        have hps : marks ts = ps.length := by simpa [marks] using h
        simp [fill, ih hps]
    · have hts : marks ts = ps.length := by simpa [marks, ht] using h
      cases ps with
      | nil =>
        have hrest := ih hts
        rw [fill_nil] at *
        cases qs with
        | nil => rw [List.nil_append, fill_nil, fill_nil]
        | cons q qs =>
          rw [List.nil_append] at hrest
          simp only [List.nil_append, List.cons_append, fill, if_neg ht, hrest]
      | cons p ps =>
        have hrest := ih hts
        simp only [List.cons_append, fill, if_neg ht] at hrest ⊢
        rw [hrest]

theorem fill_unmarked {ts : List Token} (h : marks ts = 0) (ps : List Param) (us : List Token) :
    fill ps (ts ++ us) = ts ++ fill ps us := by
  have hnone : marks ts = ([] : List Param).length := h
  have hfill := fill_append hnone ps us
  rwa [fill_nil, List.nil_append] at hfill

/-- Two lists of tokens, each with its own parameters, and tokens before, between and behind
them. -/
theorem fill_join {ps qs : List Param} {ts us : List Token} (ht : marks ts = ps.length)
    (hu : marks us = qs.length) {a b c : List Token} (ha : marks a = 0) (hb : marks b = 0) :
    fill (ps ++ qs) (a ++ (ts ++ (b ++ (us ++ c)))) =
      a ++ (fill ps ts ++ (b ++ (fill qs us ++ c))) := by
  have hlast : fill qs (us ++ c) = fill qs us ++ c := by
    have h := fill_append hu [] c
    rwa [List.append_nil, fill_nil] at h
  rw [fill_unmarked ha, fill_append ht, fill_unmarked hb, hlast]

theorem fill_group {ps : List Param} {ts : List Token} (h : marks ts = ps.length) :
    fill ps (.opening :: (ts ++ [.closing])) = .opening :: (fill ps ts ++ [.closing]) := by
  have hopening : marks [.opening] = 0 := rfl
  have hfill := fill_append h [] [.closing]
  rw [List.append_nil, fill_nil] at hfill
  rw [← List.singleton_append, fill_unmarked hopening, hfill, List.singleton_append]

theorem params_append (ts us : List Token) : params (ts ++ us) = params ts ++ params us :=
  List.filterMap_append

theorem params_cons (t : Token) (ts : List Token) : params (t :: ts) = params [t] ++ params ts :=
  params_append [t] ts

theorem params_fill {ts : List Token} (hts : params ts = []) {ps : List Param}
    (h : marks ts = ps.length) : params (fill ps ts) = ps := by
  induction ts generalizing ps with
  | nil =>
    obtain rfl := List.eq_nil_of_length_eq_zero h.symm
    rfl
  | cons t ts ih =>
    cases ps with
    | nil => rw [fill_nil, hts]
    | cons p ps =>
      by_cases ht : t = .mark
      · subst ht
        have hps : marks ts = ps.length := by simpa [marks] using h
        have hrest := ih (by simpa [params, value?] using hts) hps
        simp only [fill, if_true]
        exact congrArg (p :: ·) hrest
      · have hps : marks ts = (p :: ps).length := by simpa [marks, ht] using h
        have htail : params ts = [] ∧ value? t = none := by
          cases hv : value? t <;> simp_all [params]
        have hrest := ih htail.1 hps
        simp only [fill, if_neg ht]
        simpa [params, htail.2] using hrest

theorem params_ofChar (c : Char) : params (ofChar c) = [] := by
  unfold ofChar
  repeat' split
  all_goals rfl

theorem params_ofWord (w : List Char) : params (ofWord w) = [] := by
  cases w <;> rfl

theorem params_scan (w cs : List Char) : params (scan w cs) = [] := by
  induction cs generalizing w with
  | nil => exact params_ofWord w
  | cons c cs ih =>
    rw [scan]
    split
    · exact ih _
    · rw [params_append, params_append, params_ofWord, params_ofChar, ih]
      rfl

/-- A text has no parameters but those that are put in. -/
theorem params_fill_ofText {s : String} {ps : List Param} (h : marks (ofText s) = ps.length) :
    params (fill ps (ofText s)) = ps := params_fill (params_scan [] s.toList) h

end Token

end IndexQuery
