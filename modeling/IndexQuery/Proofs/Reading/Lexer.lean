import IndexQuery.Proofs.Reading.Reader

/-!
# Tokens of a text with literals

A fragment from outside may hold literals, in which words, parentheses and question marks mean
nothing.  Here a literal is one word, quotes and all, and blanks of every kind only separate.  A
text without literals whose blanks are spaces has the tokens that `ofText` gives it.

    marks (lex s) = the placeholders of s outside literals                           (marks_lex)
    lex (s ++ " AND " ++ t) = lex s ++ andWord :: lex t   if s leaves no literal open    (lex_and)
    lex ("(" ++ s ++ (")" ++ t)) = opening :: (lex s ++ closing :: lex t)    likewise  (lex_group)
    lex s = ofText s                                      if s is plain            (lex_eq_ofText)
-/

namespace IndexQuery.Token

open Text Identifier

/-! ## Algorithm -/

/-- The tokens that a character completes, and the word or literal that is begun behind it. -/
def lexStep (p : Place) (w : List Char) (c : Char) : List Token × List Char :=
  match p with
  | .outside =>
    if isTail c then ([], w ++ [c])
    else if c = '\'' then (ofWord w, [c])
    else if c.isWhitespace then (ofWord w, [])
    else (ofWord w ++ ofChar c, [])
  | .literal => if c = '\'' then ([.word (w ++ [c])], []) else ([], w ++ [c])
  | .escaped => ([], w ++ [c])

/-- The tokens of a text of which a word or a literal was begun. -/
def lexFrom (p : Place) (w : List Char) : List Char → List Token
  | [] => ofWord w
  | c :: r => (lexStep p w c).1 ++ lexFrom (p.next c) (lexStep p w c).2 r

/-- The tokens of a text with literals. -/
def lex (s : String) : List Token := lexFrom .outside [] s.toList

/-- A text without quotes whose blanks are spaces. -/
def Plain (cs : List Char) : Prop := ∀ c ∈ cs, c ≠ '\'' ∧ (c.isWhitespace = true → c = ' ')

instance (cs : List Char) : Decidable (Plain cs) :=
  List.decidableBAll (fun c => c ≠ '\'' ∧ (c.isWhitespace = true → c = ' ')) cs

/-! ## Lemmas -/

/-- A text that leaves no literal open is read apart from what follows, unless a word runs on. -/
theorem lexFrom_append {p : Place} {a : List Char} (h : p.after a = .outside) (w : List Char)
    {c : Char} (hc : isTail c = false) (b : List Char) :
    lexFrom p w (a ++ c :: b) = lexFrom p w a ++ lexFrom .outside [] (c :: b) := by
  induction a generalizing p w with
  | nil =>
    obtain rfl : p = .outside := h
    have hword : lexStep .outside w c =
        (ofWord w ++ (lexStep .outside [] c).1, (lexStep .outside [] c).2) := by
      have hnil : ofWord [] = [] := rfl
      simp only [lexStep, hc, Bool.false_eq_true, if_false, hnil, List.nil_append]
      split <;> (try split) <;> simp
    rw [List.nil_append, lexFrom, lexFrom, lexFrom, hword, List.append_assoc]
  | cons d a ih => rw [List.cons_append, lexFrom, lexFrom, ih h, List.append_assoc]

theorem lexFrom_blank {p : Place} {a : List Char} (h : p.after a = .outside) (w b : List Char) :
    lexFrom p w (a ++ ' ' :: b) = lexFrom p w a ++ lexFrom .outside [] b :=
  lexFrom_append h w (by decide) b

theorem lex_and {s : String} (hs : Place.outside.after s.toList = .outside) (t : String) :
    lex (s ++ " AND " ++ t) = lex s ++ andWord :: lex t := by
  have hchars : (s ++ " AND " ++ t).toList =
      s.toList ++ ' ' :: (['A', 'N', 'D'] ++ ' ' :: t.toList) := by
    rw [String.toList_append, String.toList_append, List.append_assoc]
    rfl
  unfold lex
  rw [hchars, lexFrom_blank hs, lexFrom_blank rfl]
  rfl

/-- Parentheses around a text that leaves no literal open. -/
theorem lex_group {s : String} (hs : Place.outside.after s.toList = .outside) (t : String) :
    lex ("(" ++ s ++ (")" ++ t)) = .opening :: (lex s ++ .closing :: lex t) := by
  have hchars : ("(" ++ s ++ (")" ++ t)).toList = '(' :: (s.toList ++ ')' :: t.toList) := by
    simp only [String.toList_append]
    rfl
  unfold lex
  rw [hchars]
  show .opening :: lexFrom .outside [] (s.toList ++ ')' :: t.toList) = _
  rw [lexFrom_append hs [] (by decide)]
  rfl

theorem lex_or {s t : String} (hs : Place.outside.after s.toList = .outside)
    (ht : Place.outside.after t.toList = .outside) :
    lex ("(" ++ s ++ ") OR (" ++ t ++ ")") =
      [.opening] ++ (lex s ++ ([.closing, orWord, .opening] ++ (lex t ++ [.closing]))) := by
  have htext : "(" ++ s ++ ") OR (" ++ t ++ ")" =
      "(" ++ s ++ (")" ++ (" OR " ++ ("(" ++ t ++ (")" ++ "")))) := by
    rw [String.append_empty]
    have hword : ") OR (" = ")" ++ (" OR " ++ "(") := by decide
    rw [hword]
    simp only [String.append_assoc]
  have hor : ∀ u : String, lex (" OR " ++ ("(" ++ u)) = orWord :: lex ("(" ++ u) := by
    intro u
    unfold lex
    simp only [String.toList_append]
    rfl
  rw [htext, lex_group hs, String.append_assoc, hor, ← String.append_assoc, lex_group ht]
  simp only [List.cons_append, List.nil_append]
  rfl

theorem marks_ofWord (w : List Char) : marks (ofWord w) = 0 := by
  cases w <;> rfl

theorem marks_ofChar {c : Char} (h : c ≠ placeholder) : marks (ofChar c) = 0 := by
  unfold ofChar
  rw [if_neg h]
  repeat' split
  all_goals rfl

/-- Placeholders are found outside literals only. -/
theorem marks_lexStep (p : Place) (w : List Char) (c : Char) :
    marks (lexStep p w c).1 = if p = .outside ∧ c = placeholder then 1 else 0 := by
  cases p with
  | outside =>
    by_cases hmark : c = placeholder
    · subst hmark
      show marks (ofWord w ++ ofChar placeholder) = 1
      rw [marks_append, marks_ofWord]
      rfl
    · have hnone : (if Place.outside = .outside ∧ c = placeholder then 1 else 0) = 0 :=
        if_neg fun h => hmark h.2
      rw [hnone]
      by_cases htail : isTail c = true
      · simp only [lexStep, if_pos htail]
        rfl
      · by_cases hquote : c = '\''
        · simp only [lexStep, if_neg htail, if_pos hquote, marks_ofWord]
        · by_cases hspace : c.isWhitespace = true
          · simp only [lexStep, if_neg htail, if_neg hquote, if_pos hspace, marks_ofWord]
          · simp only [lexStep, if_neg htail, if_neg hquote, if_neg hspace, marks_append,
              marks_ofWord, marks_ofChar hmark]
  | literal =>
    have hnone : (if Place.literal = .outside ∧ c = placeholder then 1 else 0) = 0 := rfl
    rw [hnone, lexStep]
    split <;> rfl
  | escaped => rfl

theorem marks_lexFrom (p : Place) (w cs : List Char) :
    marks (lexFrom p w cs) = placeholdersFrom p cs := by
  induction cs generalizing p w with
  | nil => exact marks_ofWord w
  | cons c r ih => rw [lexFrom, marks_append, marks_lexStep, ih, placeholdersFrom]

theorem marks_lex (s : String) : marks (lex s) = placeholdersFrom .outside s.toList :=
  marks_lexFrom .outside [] s.toList

/-! ## Plain texts -/

theorem Plain.append {cs ds : List Char} (hc : Plain cs) (hd : Plain ds) : Plain (cs ++ ds) := by
  intro c h
  rcases List.mem_append.mp h with h | h
  · exact hc c h
  · exact hd c h

theorem Plain.concat {s t : String} (hs : Plain s.toList) (ht : Plain t.toList) :
    Plain (s ++ t).toList := by
  rw [String.toList_append]
  exact Plain.append hs ht

theorem plain_identifier {s : String} (h : isIdentifier s = true) : Plain s.toList := by
  intro c hc
  have htail := isTail_of_mem h hc
  refine ⟨(quiet_identifier h c hc).1, fun hspace => ?_⟩
  simp only [Char.isWhitespace, Bool.or_eq_true, decide_eq_true_eq] at hspace
  rcases hspace with ((rfl | rfl) | rfl) | rfl
  · rfl
  all_goals exact absurd htail (by decide)

/-- A plain text opens no literal. -/
theorem Plain.after {cs : List Char} (h : Plain cs) : Place.outside.after cs = .outside := by
  induction cs with
  | nil => rfl
  | cons c r ih =>
    have hnext : Place.outside.next c = .outside := if_neg (h c List.mem_cons_self).1
    rw [after_cons, hnext]
    exact ih fun d hd => h d (List.mem_cons_of_mem c hd)

theorem lexFrom_eq_scan {cs : List Char} (h : Plain cs) (w : List Char) :
    lexFrom .outside w cs = scan w cs := by
  induction cs generalizing w with
  | nil => rfl
  | cons c r ih =>
    obtain ⟨hquote, hblank⟩ := h c List.mem_cons_self
    have hrest := ih fun d hd => h d (List.mem_cons_of_mem c hd)
    have hnext : Place.outside.next c = .outside := if_neg hquote
    rw [lexFrom, hnext, hrest, scan]
    by_cases htail : isTail c = true
    · simp only [lexStep, if_pos htail, List.nil_append]
    · by_cases hspace : c.isWhitespace = true
      · obtain rfl := hblank hspace
        rfl
      · simp only [lexStep, if_neg htail, if_neg hquote, if_neg hspace, List.append_assoc]

theorem lex_eq_ofText {s : String} (h : Plain s.toList) : lex s = ofText s :=
  lexFrom_eq_scan h []

-- No connective stands within quotes, also behind an escaped one.
example : (lex "name = 'it\\'s (OR)' AND size > ?").map isOr = List.replicate 7 false := by decide

end IndexQuery.Token
