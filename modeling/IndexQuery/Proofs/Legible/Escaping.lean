import IndexQuery.MatchExpr
import IndexQuery.Proofs.Scan.Text

/-!
# Escaped texts between quotes

A text is escaped to stand between quotes.  A reader who meets it there leaves the literal with the
last quote and not before, finds no placeholder in it, and reads on as if it had not been there; and
the text can be got back, by leaving out the backslash before each escaped character.  A search
expression is escaped term by term, which comes to the same as to escape the whole of it, since
there is nothing to escape between the terms: neither in blanks nor in the names of fields.

    w <+: escape cs → Place.literal.after w ≠ .outside                    (after_prefix_escape)
    unescape (escape cs) = cs                                                (unescape_escape)
    escapeText (sep.intercalate parts) = sep.intercalate (parts.map escapeText)
      if there is nothing to escape in sep                               (escapeText_intercalate)
    e.queryText? = (e.assembled? id).map escapeText                       (queryText?_eq_escaped)
-/

namespace IndexQuery

open Text

/-! ## Algorithm -/

/-- The text without the backslash before each escaped character. -/
def Text.unescape : List Char → List Char
  | '\\' :: c :: r => c :: unescape r
  | c :: r => c :: unescape r
  | [] => []

/-- An escaped text as it was. -/
def unescapeText (s : String) : String := String.ofList (unescape s.toList)

/-- A text that can stand between quotes.  Up to the last quote a reader is inside the literal and
finds no placeholder; then the literal is closed, and what follows is read as it is by itself. -/
structure Quotable (s : String) : Prop where
  inside : ∀ w, w <+: s.toList → Place.outside.after ('\'' :: w) ≠ .outside
  silent : placeholdersFrom .outside ("'" ++ s).toList = 0
  closed : Place.outside.after ("'" ++ s ++ "'").toList = .outside
  rest : ∀ u : String, placeholdersFrom .outside ("'" ++ s ++ "'" ++ u).toList =
    placeholdersFrom .outside u.toList

namespace MatchExpr

/-- A group with each term written by `write`. -/
def groupTextWith (write : String → String) : MatchScope × List String → String
  | (.anywhere, terms) => " ".intercalate (terms.map write)
  | (.column name, terms) => "@" ++ name ++ " " ++ " ".intercalate (terms.map write)

/-- The expression with each term written by `write`, if it has a term. -/
def assembled? (write : String → String) (e : MatchExpr) : Option String :=
  if e.isEmpty then none else some (" ".intercalate (e.scopes.map (groupTextWith write)))

/-- Every field that an expression looks in is named by an identifier. -/
def NamesIdentifiers (e : MatchExpr) : Prop :=
  ∀ g ∈ e.scopes, ∀ name, g.1 = .column name → isIdentifier name = true

end MatchExpr

/-! ## Reading behind a quote -/

namespace Text

/-- No part of an escaped text that begins with it closes the literal. -/
theorem after_prefix_escape {cs w : List Char} (h : w <+: escape cs) :
    Place.literal.after w ≠ .outside := by
  induction cs generalizing w with
  | nil =>
    rw [List.prefix_nil.mp h]
    decide
  | cons c r ih =>
    unfold escape at h
    split at h
    · -- the backslash, and behind it the character that it escapes
      rcases List.prefix_cons_iff.mp h with rfl | ⟨v, rfl, hv⟩
      · decide
      · rcases List.prefix_cons_iff.mp hv with rfl | ⟨x, rfl, hx⟩
        · decide
        · rw [after_cons, after_cons]
          exact ih hx
    · next hc =>
      rcases List.prefix_cons_iff.mp h with rfl | ⟨v, rfl, hv⟩
      · decide
      · rw [after_cons, next_literal hc]
        exact ih hv

theorem unescape_cons {c : Char} (h : c ≠ '\\') (r : List Char) :
    unescape (c :: r) = c :: unescape r := by
  cases r <;> simp [unescape, h]

theorem unescape_escape (cs : List Char) : unescape (escape cs) = cs := by
  induction cs with
  | nil => rfl
  | cons c r ih =>
    unfold escape
    split
    · rw [unescape, ih]
    · next hc =>
      have hplain : c ≠ '\\' := fun heq => hc (heq ▸ rfl)
      rw [unescape_cons hplain, ih]

theorem needsEscape_of_isTail {c : Char} (h : Identifier.isTail c = true) :
    needsEscape c = false := by
  have hquote : c ≠ '\'' := by
    rintro rfl
    exact absurd h (by decide)
  have hbackslash : c ≠ '\\' := by
    rintro rfl
    exact absurd h (by decide)
  simp [needsEscape, hquote, hbackslash]

end Text

/-! ## Escaped strings -/

theorem quotable_escapeText (s : String) : Quotable (escapeText s) := by
  have hopen : Place.outside.next '\'' = .literal := rfl
  have htext : ("'" ++ escapeText s ++ "'").toList = '\'' :: escape s.toList ++ ['\''] := by
    simp [escapeText]
  have hscans := htext ▸ scans_quoted s.toList
  refine ⟨fun w hw => ?_, ?_, hscans.closed, fun u => ?_⟩
  · rw [escapeText, String.toList_ofList] at hw
    rw [after_cons, hopen]
    exact after_prefix_escape hw
  · have hhead : ("'" ++ escapeText s).toList = '\'' :: escape s.toList := by simp [escapeText]
    rw [hhead, placeholdersFrom, hopen, placeholdersFrom_escape]
    rfl
  · rw [String.toList_append, placeholdersFrom_append, hscans.closed, hscans.count, Nat.zero_add]

theorem unescapeText_escapeText (s : String) : unescapeText (escapeText s) = s := by
  unfold unescapeText escapeText
  rw [String.toList_ofList, unescape_escape, String.ofList_toList]

theorem escapeText_append (s t : String) :
    escapeText (s ++ t) = escapeText s ++ escapeText t := by
  unfold escapeText
  rw [String.toList_append, escape_append, String.ofList_append]

theorem escapeText_intercalate {separator : String} (hs : escapeText separator = separator)
    (parts : List String) :
    escapeText (separator.intercalate parts) = separator.intercalate (parts.map escapeText) := by
  induction parts with
  | nil => rfl
  | cons s parts ih =>
    cases parts with
    | nil => rw [List.map_singleton, String.intercalate_singleton, String.intercalate_singleton]
    | cons t parts =>
      rw [String.intercalate_cons_cons, escapeText_append, escapeText_append, hs, ih]
      simp only [List.map_cons, String.intercalate_cons_cons]

theorem escapeText_identifier {s : String} (h : isIdentifier s = true) : escapeText s = s := by
  unfold escapeText
  rw [escape_of_plain fun c hc => needsEscape_of_isTail (isTail_of_mem h hc), String.ofList_toList]

/-! ## Search expressions -/

namespace MatchExpr

theorem queryText?_eq_assembled? (e : MatchExpr) : e.queryText? = e.assembled? escapeText := by
  have hgroup : groupText = groupTextWith escapeText := by
    funext ⟨scope, terms⟩
    cases scope <;> rfl
  rw [queryText?, assembled?, hgroup]

theorem escapeText_groupTextWith {g : MatchScope × List String}
    (h : ∀ name, g.1 = .column name → isIdentifier name = true) :
    escapeText (groupTextWith id g) = groupTextWith escapeText g := by
  obtain ⟨scope, terms⟩ := g
  have hblank : escapeText " " = " " := rfl
  have hterms : escapeText (" ".intercalate (terms.map id)) =
      " ".intercalate (terms.map escapeText) := by
    rw [List.map_id, escapeText_intercalate hblank]
  cases scope with
  | anywhere => exact hterms
  | column name =>
    have hmark : escapeText "@" = "@" := rfl
    have hname := escapeText_identifier (h name rfl)
    rw [groupTextWith, groupTextWith, escapeText_append, escapeText_append, escapeText_append,
      hterms, hmark, hname, hblank]

theorem queryText?_eq_escaped {e : MatchExpr} (h : e.NamesIdentifiers) :
    e.queryText? = (e.assembled? id).map escapeText := by
  have hgroups : (e.scopes.map (groupTextWith id)).map escapeText =
      e.scopes.map (groupTextWith escapeText) := by
    rw [List.map_map]
    exact List.map_congr_left fun g hg => escapeText_groupTextWith (h g hg)
  rw [queryText?_eq_assembled?]
  unfold assembled?
  split
  · rfl
  · rw [Option.map_some, escapeText_intercalate rfl, hgroups]

/-- An escaped text can stand between quotes whatever it is and whatever follows, and tells the text
that was escaped.  So does the text of a search expression whose fields have identifiers for names:
it is made of escaped terms, and that is to escape the same expression made of the terms as they
are, which can be got back from it. -/
theorem escaping_loses_nothing :
    (∀ t : String, Quotable (escapeText t) ∧ unescapeText (escapeText t) = t) ∧
    (∀ e : MatchExpr, e.queryText? = e.assembled? escapeText) ∧
    ∀ e : MatchExpr, e.NamesIdentifiers →
      e.queryText? = (e.assembled? id).map escapeText ∧
      (∀ q ∈ e.queryText?, Quotable q) ∧
      e.queryText?.map unescapeText = e.assembled? id := by
  refine ⟨fun t => ⟨quotable_escapeText t, unescapeText_escapeText t⟩, queryText?_eq_assembled?,
    fun e he => ⟨queryText?_eq_escaped he, fun q hq => ?_, ?_⟩⟩
  · rw [queryText?_eq_escaped he] at hq
    obtain ⟨t, -, rfl⟩ := Option.map_eq_some_iff.mp hq
    exact quotable_escapeText t
  · have hback : unescapeText ∘ escapeText = id := funext unescapeText_escapeText
    rw [queryText?_eq_escaped he, Option.map_map, hback, Option.map_id]
    rfl

/-- Searches in two fields and in all, for terms with quotes and backslashes at every place. -/
def backslashed : MatchExpr :=
  ⟨[(.column "title", ["it's", "\\"]), (.anywhere, ["a\\'"]), (.column "body_2", ["'?'"])]⟩

theorem backslashed_got_back : backslashed.NamesIdentifiers ∧
    backslashed.queryText? = some "@title it\\'s \\\\ a\\\\\\' @body_2 \\'?\\'" ∧
    (∀ q ∈ backslashed.queryText?, Quotable q) ∧
    backslashed.queryText?.map unescapeText = some "@title it's \\ a\\' @body_2 '?'" := by
  have hnames : backslashed.NamesIdentifiers := by
    intro g hg name hname
    simp only [backslashed, List.mem_cons, List.not_mem_nil, or_false] at hg
    rcases hg with rfl | rfl | rfl
    · cases hname
      decide
    · cases hname
    · cases hname
      decide
  obtain ⟨-, -, hsearch⟩ := escaping_loses_nothing
  obtain ⟨-, hquotable, hback⟩ := hsearch backslashed hnames
  exact ⟨hnames, rfl, hquotable, hback⟩

end MatchExpr

end IndexQuery
