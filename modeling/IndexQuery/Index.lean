import IndexQuery.Resolution
import IndexQuery.Settings.Basic

/-!
# Indexes

A search index: its schema with settings that were checked.
-/

namespace IndexQuery

/-- The version of this library. -/
def version : String := "0.1.0"

/-- A search index. -/
structure Index where
  schema : Schema
  settings : Settings
  deriving DecidableEq, Repr

namespace Index

/-- The index with a schema and settings, if the settings are accepted. -/
def new (schema : Schema) (settings : Settings) : Except Error Index := do
  settings.validate
  return ⟨schema, settings⟩

/-- The resolver of lookup keys. -/
def resolver (i : Index) : Resolver := ⟨i.schema, i.settings.keyAlias⟩

end Index

end IndexQuery
