import IndexQuery.Json.Basic

/-!
# Reading JSON text

A strict reader: one value, with blanks around it and nothing else.  Every call that does not
consume a character itself leads to one that does, so a text of length `n` needs at most `2 n + 2`
nested calls, and `read` starts with that many.
-/

namespace IndexQuery.Json

open Text

/-! ## Strings -/

/-- What one place of a string names: a character, or a code unit of UTF-16 by an escape. -/
inductive StringItem where
  | char (c : Char)
  | codeUnit (n : Nat)
  deriving DecidableEq, Repr

/-- The value of a digit in base sixteen. -/
def hexValue? (c : Char) : Option Nat :=
  if c.isDigit then some (c.toNat - '0'.toNat)
  else if 'a' ≤ c ∧ c ≤ 'f' then some (c.toNat - 'a'.toNat + 10)
  else if 'A' ≤ c ∧ c ≤ 'F' then some (c.toNat - 'A'.toNat + 10)
  else none

/-- The code unit that four digits in base sixteen name. -/
def codeUnit? (a b c d : Char) : Option Nat := do
  let a ← hexValue? a
  let b ← hexValue? b
  let c ← hexValue? c
  let d ← hexValue? d
  return ((a * 16 + b) * 16 + c) * 16 + d

/-- The character that a backslash and one more character name. -/
def shortEscape? (c : Char) : Option Char :=
  if c = '"' ∨ c = '\\' ∨ c = '/' then some c
  else if c = 'b' then some '\x08'
  else if c = 'f' then some '\x0c'
  else if c = 'n' then some '\n'
  else if c = 'r' then some '\r'
  else if c = 't' then some '\t'
  else none

/-- The items of a string up to its closing quote, and what follows the quote. -/
def readItems : List Char → Option (List StringItem × List Char)
  | [] => none
  | '"' :: r => some ([], r)
  | '\\' :: 'u' :: a :: b :: c :: d :: r => do
    let n ← codeUnit? a b c d
    let (items, r) ← readItems r
    return (.codeUnit n :: items, r)
  | '\\' :: e :: r => do
    let c ← shortEscape? e
    let (items, r) ← readItems r
    return (.char c :: items, r)
  | c :: r =>
    if c.toNat < 0x20 ∨ c = '\\' then none
    else do
      let (items, r) ← readItems r
      return (.char c :: items, r)

/-- A code unit that opens a surrogate pair. -/
def isHighSurrogate (n : Nat) : Bool := 0xD800 ≤ n && n < 0xDC00

/-- A code unit that closes a surrogate pair. -/
def isLowSurrogate (n : Nat) : Bool := 0xDC00 ≤ n && n < 0xE000

/-- The characters that the items name, unless half of a surrogate pair is among them. -/
def textOf? : List StringItem → Option (List Char)
  | [] => some []
  | .char c :: r => (textOf? r).map (c :: ·)
  | .codeUnit n :: r =>
    if isLowSurrogate n then none
    else if isHighSurrogate n then
      match r with
      | .codeUnit m :: r =>
        if isLowSurrogate m then
          (textOf? r).map (Char.ofNat (0x10000 + (n - 0xD800) * 0x400 + (m - 0xDC00)) :: ·)
        else none
      | _ => none
    else (textOf? r).map (Char.ofNat n :: ·)

/-- A string behind its opening quote. -/
def readString (cs : List Char) : Option (Option String × List Char) :=
  (readItems cs).map fun (items, r) => ((textOf? items).map String.ofList, r)

/-! ## Numbers -/

/-- A number: no plus sign, no needless zero in front, digits on both sides of a point. -/
def readNumber (cs : List Char) : Option (Numeral × List Char) := do
  let (negative, unsigned) :=
    match cs with
    | '-' :: r => (true, r)
    | r => (false, r)
  let whole := takeDigits unsigned
  if whole = [] ∨ (whole.head? = some '0' ∧ 1 < whole.length) then none
  else
    let (fraction, rest) ←
      match dropDigits unsigned with
      | '.' :: r => if takeDigits r = [] then none else some (takeDigits r, dropDigits r)
      | r => some ([], r)
    let (exponent, rest) ← Numeral.takeExponent rest
    return (⟨negative, whole, fraction, exponent⟩, rest)

/-! ## Values -/

/-- A character that may stand between the parts of a value. -/
def isBlank (c : Char) : Bool := c == ' ' || c == '\t' || c == '\n' || c == '\r'

/-- The text behind its leading blanks. -/
def skipBlanks (cs : List Char) : List Char := cs.dropWhile isBlank

/-- What follows a word that the text starts with. -/
def dropWord? : List Char → List Char → Option (List Char)
  | [], cs => some cs
  | _ :: _, [] => none
  | w :: ws, c :: cs => if w = c then dropWord? ws cs else none

/-- A value without parts that are values. -/
def readScalar (cs : List Char) : Option (Json × List Char) :=
  match cs with
  | 'n' :: r => (dropWord? "ull".toList r).map (.null, ·)
  | 't' :: r => (dropWord? "rue".toList r).map (.bool true, ·)
  | 'f' :: r => (dropWord? "alse".toList r).map (.bool false, ·)
  | '"' :: r => (readString r).map fun (s, r) => (.string s, r)
  | _ => (readNumber cs).map fun (n, r) => (.number n, r)

mutual

/-- The value at the head of a text, behind blanks. -/
def readValue : Nat → List Char → Option (Json × List Char)
  | 0, _ => none
  | fuel + 1, cs =>
    match skipBlanks cs with
    | '[' :: r =>
      match skipBlanks r with
      | ']' :: r => some (.array [], r)
      | r => (readElements fuel r).map fun (vs, r) => (.array vs, r)
    | '\x7b' :: r =>
      match skipBlanks r with
      | '\x7d' :: r => some (.object [], r)
      | r => (readMembers fuel r).map fun (ms, r) => (.object ms, r)
    | r => readScalar r

/-- At least one element, and the bracket that closes the array. -/
def readElements : Nat → List Char → Option (List Json × List Char)
  | 0, _ => none
  | fuel + 1, cs => do
    let (v, r) ← readValue fuel cs
    match skipBlanks r with
    | ',' :: r =>
      let (vs, r) ← readElements fuel r
      return (v :: vs, r)
    | ']' :: r => return ([v], r)
    | _ => none

/-- At least one member, and the brace that closes the object. -/
def readMembers : Nat → List Char → Option (List (Option String × Json) × List Char)
  | 0, _ => none
  | fuel + 1, cs =>
    match skipBlanks cs with
    | '"' :: r => do
      let (k, r) ← readString r
      match skipBlanks r with
      | ':' :: r =>
        let (v, r) ← readValue fuel r
        match skipBlanks r with
        | ',' :: r =>
          let (ms, r) ← readMembers fuel r
          return ((k, v) :: ms, r)
        | '\x7d' :: r => return ([(k, v)], r)
        | _ => none
      | _ => none
    | _ => none

end

/-- The value that a whole text writes. -/
def read (cs : List Char) : Option Json :=
  match readValue (2 * cs.length + 2) cs with
  | some (v, r) => if skipBlanks r = [] then some v else none
  | none => none

/-- The value that a string writes. -/
def ofText? (s : String) : Option Json := read s.toList

end IndexQuery.Json
