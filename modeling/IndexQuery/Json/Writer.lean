import IndexQuery.Json.Basic

/-!
# JSON text of a value

Values are written without blanks.  A string escapes quotes, backslashes and control characters
and holds everything else as it is.
-/

namespace IndexQuery.Json

open Text

/-- A digit in base sixteen, in lower case. -/
def hexDigit (n : Nat) : Char := Nat.digitChar (n % 16)

/-- A character as it stands in a string. -/
def writeChar (c : Char) : List Char :=
  if c = '"' then ['\\', '"']
  else if c = '\\' then ['\\', '\\']
  else if c = '\x08' then ['\\', 'b']
  else if c = '\x0c' then ['\\', 'f']
  else if c = '\n' then ['\\', 'n']
  else if c = '\r' then ['\\', 'r']
  else if c = '\t' then ['\\', 't']
  else if c.toNat < 0x20 then ['\\', 'u', '0', '0', hexDigit (c.toNat / 16), hexDigit c.toNat]
  else [c]

/-- A string between its quotes. -/
def writeString (s : String) : List Char := '"' :: s.toList.flatMap writeChar ++ ['"']

mutual

/-- A value as text; a string that is no text is written empty. -/
def write : Json → List Char
  | .null => "null".toList
  | .bool b => if b then "true".toList else "false".toList
  | .number n => n.text
  | .string s => writeString (s.getD "")
  | .array vs => '[' :: writeElements vs ++ [']']
  | .object ms => '\x7b' :: writeMembers ms ++ ['\x7d']

/-- The elements of an array with commas between them. -/
def writeElements : List Json → List Char
  | [] => []
  | [v] => write v
  | v :: vs => write v ++ ',' :: writeElements vs

/-- The members of an object with commas between them. -/
def writeMembers : List (Option String × Json) → List Char
  | [] => []
  | [(k, v)] => writeString (k.getD "") ++ ':' :: write v
  | (k, v) :: ms => writeString (k.getD "") ++ ':' :: write v ++ ',' :: writeMembers ms

end

/-- The text of a value. -/
def toText (v : Json) : String := String.ofList v.write

end IndexQuery.Json
