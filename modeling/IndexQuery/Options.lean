import IndexQuery.Error
import IndexQuery.MatchExpr
import IndexQuery.Param
import IndexQuery.Text.Identifier

/-!
# Options of a query

Named directives for the search daemon.  Setting an option again keeps its place and replaces its
value.

    ⟨put m v es⟩.get? n = if n = m then some v else ⟨es⟩.get? n                          (get?_put)
    names of put m v es = names of es, with m at the end if it is new                   (names_put)
-/

namespace IndexQuery

open Text

/-- The value of an option. -/
inductive OptionValue where
  | bool (b : Bool)
  | int (n : Int64)
  | float (x : Binary64)
  | string (s : String)
  /-- A weight for each of several names. -/
  | weights (ws : List (String × Int64))
  deriving DecidableEq, Repr

namespace OptionValue

/-- A value as it stands in a statement. -/
def text : OptionValue → String
  | .bool b => if b then "1" else "0"
  | .int n => signedDecimal n.toInt
  | .float x => statementLayout.text x
  | .string s => "'" ++ escapeText s ++ "'"
  | .weights ws =>
    "(" ++ ", ".intercalate (ws.map fun (name, w) => name ++ "=" ++ signedDecimal w.toInt) ++ ")"

/-- The names that a value brings with it. -/
def names : OptionValue → List String
  | .weights ws => ws.map Prod.fst
  | _ => []

end OptionValue

/-- Options in the order in which they were first set. -/
structure OptionSet where
  entries : List (String × OptionValue)
  deriving DecidableEq, Repr

namespace OptionSet

/-! ## Algorithm -/

/-- No options. -/
def empty : OptionSet := ⟨[]⟩

/-- Accepts an option whose name, and every name in its value, is an identifier. -/
def check (name : String) (value : OptionValue) : Except Error Unit :=
  if !isIdentifier name then .error (.invalidOption name)
  else
    match value.names.find? fun n => !isIdentifier n with
    | some bad => .error (.invalidOption (name ++ "." ++ bad))
    | none => .ok ()

/-- Entries with a value put under a name. -/
def put (name : String) (value : OptionValue) :
    List (String × OptionValue) → List (String × OptionValue)
  | [] => [(name, value)]
  | (n, v) :: r => if n = name then (n, value) :: r else (n, v) :: put name value r

/-- Sets an option. -/
def set (o : OptionSet) (name : String) (value : OptionValue) : Except Error OptionSet :=
  (check name value).map fun () => ⟨put name value o.entries⟩

/-- Sets options in order, as far as every one is accepted. -/
def setAll (o : OptionSet) (os : List (String × OptionValue)) : Except Error OptionSet :=
  os.foldlM (fun o (name, value) => o.set name value) o

/-- The value of an option. -/
def get? (o : OptionSet) (name : String) : Option OptionValue :=
  (o.entries.find? fun (n, _) => n == name).map Prod.snd

/-- An option as it stands in a statement. -/
def entryText : String × OptionValue → String
  | (name, value) => name ++ "=" ++ value.text

/-- The clause that states all options, if there are any. -/
def clause? (o : OptionSet) : Option String :=
  if o.entries.isEmpty then none
  else some ("OPTION " ++ ", ".intercalate (o.entries.map entryText))

/-! ## Lemmas -/

theorem names_put (name : String) (value : OptionValue) (es : List (String × OptionValue)) :
    (put name value es).map Prod.fst =
      if name ∈ es.map Prod.fst then es.map Prod.fst else es.map Prod.fst ++ [name] := by
  induction es with
  | nil => simp [put]
  | cons e r ih =>
    obtain ⟨n, v⟩ := e
    by_cases h : n = name
    · simp [put, h]
    · by_cases hr : name ∈ r.map Prod.fst <;> simp_all [put, Ne.symm h]

theorem get?_put (name : String) (value : OptionValue) (es : List (String × OptionValue))
    (n : String) :
    (⟨put name value es⟩ : OptionSet).get? n =
      if n = name then some value else (⟨es⟩ : OptionSet).get? n := by
  induction es with
  | nil =>
    by_cases h : n = name
    · simp [put, get?, h]
    · simp [put, get?, h, Ne.symm h]
  | cons e r ih =>
    obtain ⟨m, v⟩ := e
    simp only [get?] at ih ⊢
    by_cases h : m = name
    · subst h
      by_cases hn : n = m
      · simp [put, hn]
      · simp [put, hn, Ne.symm hn]
    · by_cases hn : m = n
      · subst hn
        simp [put, h]
      · simp [put, h, hn, ih]

end OptionSet

end IndexQuery
