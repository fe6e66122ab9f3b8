import IndexQuery.Numeral

/-!
# JSON values

A tree of JSON values in which numbers stay as they are written and members keep their order.  A
string may hold an escape for half of a surrogate pair; it is then well formed but no text, and
is kept as `none`.
-/

namespace IndexQuery

/-- A JSON value. -/
inductive Json where
  | null
  | bool (b : Bool)
  | number (n : Numeral)
  | string (s : Option String)
  | array (vs : List Json)
  | object (ms : List (Option String × Json))

namespace Json

/-- The text of a string. -/
def text? : Json → Option String
  | .string s => s
  | _ => none

/-- The elements of an array. -/
def elements? : Json → Option (List Json)
  | .array vs => some vs
  | _ => none

/-- The first and the second element of an array of two. -/
def pair? : Json → Option (Json × Json)
  | .array [v, w] => some (v, w)
  | _ => none

/-- The values of the members that carry a name. -/
def valuesOf (name : String) (ms : List (Option String × Json)) : List Json :=
  ms.filterMap fun (k, v) => if k = some name then some v else none

/-- At most one value: outside, `none` if there are more. -/
def atMostOne : List Json → Option (Option Json)
  | [] => some none
  | [v] => some (some v)
  | _ => none

/-- The values of a record with the given field names, `none` for a field that is missing.  A
record is an object, in which other members are ignored, or an array of its fields in order. -/
def record? (names : List String) : Json → Option (List (Option Json))
  | .object ms =>
    if ms.all (·.1.isSome) then names.mapM fun name => atMostOne (valuesOf name ms) else none
  | .array vs =>
    if vs.length ≤ names.length then
      some (vs.map some ++ List.replicate (names.length - vs.length) none)
    else none
  | _ => none

/-- The name of an alternative without content: a string, or an object whose only member has that
name and the value `null`. -/
def alternative? : Json → Option String
  | .string s => s
  | .object [(s, .null)] => s
  | _ => none

end Json

end IndexQuery
