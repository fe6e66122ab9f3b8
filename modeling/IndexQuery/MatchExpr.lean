import IndexQuery.Text.Literal

/-!
# Full-text match expressions

Search terms grouped by the part of a document that they are looked for in.  Groups stand in the
order of their first term; a term is held once per group, and an empty term never.

    e.add s (ts ++ us) = (e.add s ts).add s us                                    (add_append)
    (addTerm s e t).terms s = insertTerm t (e.terms s)   if t ≠ ""         (terms_addTerm_self)
    (addTerm s e t).terms r = e.terms r                  if r ≠ s         (terms_addTerm_of_ne)
-/

namespace IndexQuery

open Text

/-- Where a term is looked for. -/
inductive MatchScope where
  | anywhere
  | column (name : String)
  deriving DecidableEq, Repr

/-- The text that marks a scope. -/
def MatchScope.text : MatchScope → String
  | .anywhere => "*"
  | .column name => "@" ++ name

/-- Search terms grouped by scope. -/
structure MatchExpr where
  scopes : List (MatchScope × List String)
  deriving DecidableEq, Repr

/-- A text with quotes and backslashes escaped. -/
def escapeText (s : String) : String := String.ofList (escape s.toList)

namespace MatchExpr

/-! ## Algorithm -/

/-- The expression without terms. -/
def empty : MatchExpr := ⟨[]⟩

/-- Whether there is no term. -/
def isEmpty (e : MatchExpr) : Bool := e.scopes.isEmpty

/-- A group with one more term. -/
def insertTerm (term : String) (terms : List String) : List String :=
  if term ∈ terms then terms else terms ++ [term]

/-- Groups with one more term, in the group of its scope or in a new one at the end. -/
def insertScoped (scope : MatchScope) (term : String) :
    List (MatchScope × List String) → List (MatchScope × List String)
  | [] => [(scope, [term])]
  | (s, terms) :: groups =>
    if s = scope then (s, insertTerm term terms) :: groups
    else (s, terms) :: insertScoped scope term groups

/-- The expression with one more term; an empty one is left out. -/
def addTerm (scope : MatchScope) (e : MatchExpr) (term : String) : MatchExpr :=
  if term = "" then e else ⟨insertScoped scope term e.scopes⟩

/-- The expression with more terms. -/
def add (e : MatchExpr) (scope : MatchScope) (terms : List String) : MatchExpr :=
  terms.foldl (addTerm scope) e

/-- The terms of a scope. -/
def terms (e : MatchExpr) (scope : MatchScope) : List String :=
  ((e.scopes.find? fun (s, _) => s == scope).map Prod.snd).getD []

/-- Whether adding a term to a scope changes the expression. -/
def isNew (e : MatchExpr) (scope : MatchScope) (term : String) : Bool :=
  term != "" && !(e.terms scope).contains term

/-- How many of the terms an addition puts in, each counted against the terms before it. -/
def countAdded (scope : MatchScope) : MatchExpr → List String → Nat
  | _, [] => 0
  | e, t :: ts => (if e.isNew scope t then 1 else 0) + countAdded scope (addTerm scope e t) ts

/-- A group as the daemon reads it. -/
def groupText : MatchScope × List String → String
  | (.anywhere, terms) => " ".intercalate (terms.map escapeText)
  | (.column name, terms) => "@" ++ name ++ " " ++ " ".intercalate (terms.map escapeText)

/-- The expression as the daemon reads it, if it has a term. -/
def queryText? (e : MatchExpr) : Option String :=
  if e.isEmpty then none else some (" ".intercalate (e.scopes.map groupText))

/-! ## Lemmas -/

theorem add_append (e : MatchExpr) (scope : MatchScope) (ts us : List String) :
    e.add scope (ts ++ us) = (e.add scope ts).add scope us := by
  simp [add]

theorem terms_addTerm_self {e : MatchExpr} {scope : MatchScope} {term : String} (h : term ≠ "") :
    (addTerm scope e term).terms scope = insertTerm term (e.terms scope) := by
  obtain ⟨groups⟩ := e
  simp only [addTerm, if_neg h, terms]
  induction groups with
  | nil => simp [insertScoped, insertTerm]
  | cons g groups ih =>
    obtain ⟨s, ts⟩ := g
    by_cases hs : s = scope <;> simp [insertScoped, hs, ih]

theorem terms_addTerm_of_ne {e : MatchExpr} {scope s : MatchScope} {term : String}
    (h : s ≠ scope) : (addTerm scope e term).terms s = e.terms s := by
  obtain ⟨groups⟩ := e
  by_cases ht : term = ""
  · rw [addTerm, if_pos ht]
  · simp only [addTerm, if_neg ht, terms]
    induction groups with
    | nil => simp [insertScoped, Ne.symm h]
    | cons g groups ih =>
      obtain ⟨s', ts⟩ := g
      by_cases hs : s' = scope
      · simp [insertScoped, hs, Ne.symm h]
      · by_cases hs' : s' = s
        · simp [insertScoped, hs', h]
        · simpa [insertScoped, hs, hs'] using ih

end MatchExpr

end IndexQuery
