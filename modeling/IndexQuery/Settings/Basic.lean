import IndexQuery.Options
import IndexQuery.Text.Blank

/-!
# Settings of an index

What all queries of an index share: how full-text columns are marked, the alias of the document
id, limits, and the options that every query starts with.
-/

namespace IndexQuery

open Text

/-- The settings of an index. -/
structure Settings where
  /-- What stands in front of a full-text field in an inequality. -/
  marker : String
  /-- The name that always means the document id. -/
  keyAlias : String
  /-- The number of rows of a query that states none. -/
  defaultLimit : Option UInt64
  /-- The greatest number of rows of any query. -/
  maxLimit : UInt64
  /-- The options that every query starts with, in order. -/
  defaultOptions : List (String × OptionValue)
  deriving DecidableEq, Repr

namespace Settings

/-- The settings of an index that states none. -/
def standard : Settings := ⟨"@", "pk", none, 1000, []⟩

/-- A character that a marker may not hold. -/
def spoilsMarker (c : Char) : Bool := isBlank c || c == placeholder || needsEscape c

/-- Whether a text can mark a column. -/
def isMarker (s : String) : Bool := s != "" && !s.toList.any spoilsMarker

/-- The error for a setting. -/
def refuse (setting reason : String) : Except Error Unit :=
  .error (.config (.invalid setting reason))

/-- The options that every query starts with. -/
def optionSet (s : Settings) : Except Error OptionSet := OptionSet.empty.setAll s.defaultOptions

/-- Accepts a default limit that is not above the greatest one. -/
def checkDefaultLimit (s : Settings) : Except Error Unit :=
  match s.defaultLimit with
  | none => .ok ()
  | some n =>
    if s.maxLimit < n then
      refuse "default_limit"
        (decimal n.toNat ++ " exceeds max_limit " ++ decimal s.maxLimit.toNat)
    else .ok ()

/-- Accepts settings that queries can be built with. -/
def validate (s : Settings) : Except Error Unit := do
  if !isMarker s.marker then
    refuse "attribute_marker" ("'" ++ s.marker ++ "' is not a usable marker")
  if !isIdentifier s.keyAlias then
    refuse "primary_key_alias" ("'" ++ s.keyAlias ++ "' is not an identifier")
  if s.maxLimit = 0 then refuse "max_limit" "must be greater than zero"
  s.checkDefaultLimit
  let _ ← s.optionSet

/-- A requested number of rows, or the greatest one if that is less. -/
def clamp (s : Settings) (requested : UInt64) : UInt64 := min requested s.maxLimit

end Settings

end IndexQuery
