import IndexQuery.Text.Digits

/-!
# Errors

Every way in which building or running a query fails, and its wording.
-/

namespace IndexQuery

open Text

/-- Why settings or a schema are refused. -/
inductive ConfigError where
  /-- The document cannot be read. -/
  | unreadable (reason : String)
  /-- A setting has a value that it may not have. -/
  | invalid (setting reason : String)
  deriving DecidableEq, Repr

/-- Why a query could not be built or run. -/
inductive Error where
  /-- The key of a lookup has the wrong form. -/
  | invalidLookup (key reason : String)
  /-- The index has no field of that name. -/
  | unknownField (index field : String)
  /-- The field cannot be queried with that operator. -/
  | unsupportedLookup (field lookup : String)
  /-- The operator has no complement. -/
  | unsupportedNegation (field lookup : String)
  /-- Groups of filters have no complement; carries their number. -/
  | compoundNegation (count : Nat)
  /-- A fragment of a statement has another number of placeholders than of parameters. -/
  | malformedFragment (template : String) (placeholders params : Nat)
  /-- The value does not suit the field. -/
  | invalidValue (field reason : String)
  /-- The name of an option is no identifier. -/
  | invalidOption (name : String)
  /-- Settings or a schema are refused. -/
  | config (e : ConfigError)
  /-- The search daemon failed. -/
  | execution (reason : String)
  deriving DecidableEq, Repr

/-- The wording of an error of configuration. -/
def ConfigError.message : ConfigError → String
  | .unreadable reason => "failed to parse search config: " ++ reason
  | .invalid setting reason => "invalid search config: " ++ setting ++ ": " ++ reason

/-- The wording of an error. -/
def Error.message : Error → String
  | .invalidLookup key reason => "invalid lookup '" ++ key ++ "': " ++ reason
  | .unknownField index field => "unknown field '" ++ field ++ "' on index '" ++ index ++ "'"
  | .unsupportedLookup field lookup =>
    "unsupported lookup '" ++ lookup ++ "' for field '" ++ field ++ "'"
  | .unsupportedNegation field lookup =>
    "negated filters are not supported for lookup '" ++ lookup ++ "' on '" ++ field ++ "'"
  | .compoundNegation count =>
    "compound expressions cannot be negated (" ++ decimal count ++ " given)"
  | .malformedFragment template placeholders params =>
    "malformed fragment '" ++ template ++ "': " ++ decimal placeholders ++ " placeholders for " ++
      decimal params ++ " parameters"
  | .invalidValue field reason => "invalid value for field '" ++ field ++ "': " ++ reason
  | .invalidOption name => "invalid option name '" ++ name ++ "'"
  | .config e => e.message
  | .execution reason => "execution failed: " ++ reason

/-- Whether the caller's input is at fault, and neither a fragment nor the daemon. -/
def Error.isCallerError : Error → Bool
  | .malformedFragment .. | .execution _ => false
  | _ => true

end IndexQuery
