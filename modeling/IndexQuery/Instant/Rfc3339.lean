import IndexQuery.Instant.Basic
import IndexQuery.Text.Digits

/-!
# Timestamps in text

Instants are written as RFC 3339 says, with as many groups of three fraction digits as are needed
and a sign before a year that four digits cannot hold.  Reading accepts any zone offset and gives
the seconds since 1970; the first fault from the left is reported.
-/

namespace IndexQuery.Rfc3339

open Text

/-! ## Writing -/

/-- The year in four digits, or with a sign and at least four. -/
def yearText (year : Int) : List Char :=
  if 0 ≤ year ∧ year ≤ 9999 then padded 4 year.toNat
  else (if year < 0 then '-' else '+') :: padded 4 year.natAbs

/-- The fraction of a second: none, or three, six or nine digits. -/
def fractionText (nanos : Nat) : List Char :=
  if nanos = 0 then []
  else if nanos % 1000000 = 0 then '.' :: padded 3 (nanos / 1000000)
  else if nanos % 1000 = 0 then '.' :: padded 6 (nanos / 1000)
  else '.' :: padded 9 nanos

/-- The instant in universal time, with the text that marks the zone. -/
def write (zone : List Char) (t : Instant) : List Char :=
  yearText t.date.year ++ '-' :: padded 2 t.date.month ++ '-' :: padded 2 t.date.day ++
    'T' :: padded 2 t.clock.hour ++ ':' :: padded 2 t.clock.minute ++
    ':' :: padded 2 t.clock.second ++ fractionText t.subsecond ++ zone

/-! ## Reading -/

/-- Why a text is no timestamp. -/
inductive Fault where
  /-- The text ends too early. -/
  | tooShort
  /-- A character stands where it may not. -/
  | invalid
  /-- The text has the right form but names no date, time or offset. -/
  | outOfRange
  /-- Something follows the offset. -/
  | tooLong
  deriving DecidableEq, Repr

/-- The wording of a fault. -/
def Fault.message : Fault → String
  | .tooShort => "premature end of input"
  | .invalid => "input contains invalid characters"
  | .outOfRange => "input is out of range"
  | .tooLong => "trailing input"

/-- One of the characters that `p` allows. -/
def takeChar (p : Char → Bool) : List Char → Except Fault (List Char)
  | [] => .error .tooShort
  | c :: r => if p c then .ok r else .error .invalid

/-- Exactly `count` digits. -/
def takeNumber (count : Nat) (cs : List Char) : Except Fault (Nat × List Char) :=
  let ds := cs.take count
  if ds.length = count ∧ ds.all Char.isDigit then .ok (digitsValue ds, cs.drop count)
  else .error .invalid

/-- Whether fewer than two bytes are left. -/
def endsWithinPair : List Char → Bool
  | [] => true
  | [c] => c.utf8Size < 2
  | _ => false

/-- The date of a timestamp. -/
def takeDate (cs : List Char) : Except Fault (Date × List Char) := do
  let (year, cs) ← takeNumber 4 cs
  let cs ← takeChar (· == '-') cs
  let (month, cs) ← takeNumber 2 cs
  let cs ← takeChar (· == '-') cs
  let (day, cs) ← takeNumber 2 cs
  let date : Date := ⟨year, month, day⟩
  if date.isValid then .ok (date, cs) else .error .outOfRange

/-- The fraction of a second, which has at least one digit; its value is not needed. -/
def skipFraction : List Char → Except Fault (List Char)
  | '.' :: r =>
    match r with
    | [] => .error .tooShort
    | c :: _ => if c.isDigit then .ok (dropDigits r) else .error .invalid
  | cs => .ok cs

/-- The time of day with its fraction; a sixtieth second counts as the one before it. -/
def takeClock (cs : List Char) : Except Fault (Clock × List Char) := do
  let (hour, cs) ← takeNumber 2 cs
  let cs ← takeChar (· == ':') cs
  let (minute, cs) ← takeNumber 2 cs
  let cs ← takeChar (· == ':') cs
  let (second, cs) ← takeNumber 2 cs
  let cs ← skipFraction cs
  if hour < 24 ∧ minute < 60 ∧ second ≤ 60 then .ok (⟨hour, minute, min second 59⟩, cs)
  else .error .outOfRange

/-- The hours and minutes of a zone offset, in seconds. -/
def takeOffset (cs : List Char) : Except Fault (Nat × List Char) := do
  if endsWithinPair cs then .error .tooShort
  let (hours, cs) ← takeNumber 2 cs
  let cs ← takeChar (· == ':') cs
  if endsWithinPair cs then .error .tooShort
  let (minutes, cs) ← takeNumber 2 cs
  if minutes < 60 then .ok (3600 * hours + 60 * minutes, cs) else .error .outOfRange

/-- The zone of a timestamp, in seconds east of universal time. -/
def takeZone : List Char → Except Fault (Int × List Char)
  | [] => .error .tooShort
  | c :: r =>
    if c = 'Z' ∨ c = 'z' then .ok (0, r)
    else if c = '+' then (takeOffset r).map fun (s, r) => ((s : Int), r)
    else if c = '-' ∨ c = '\u2212' then (takeOffset r).map fun (s, r) => (-(s : Int), r)
    else .error .invalid

/-- The number of bytes that a text takes in UTF-8. -/
def byteLength : List Char → Nat
  | [] => 0
  | c :: r => c.utf8Size + byteLength r

/-- The seconds since 1970 that a whole text names. -/
def read (cs : List Char) : Except Fault Int := do
  if byteLength cs < 19 then .error .tooShort
  let (date, cs) ← takeDate cs
  let cs ← takeChar (fun c => c == 'T' || c == 't' || c == ' ') cs
  let (clock, cs) ← takeClock cs
  let (offset, cs) ← takeZone cs
  if cs ≠ [] then .error .tooLong
  if 86400 ≤ offset.natAbs then .error .outOfRange
  return 86400 * date.dayNumber + 3600 * clock.hour + 60 * clock.minute + clock.second - offset

end IndexQuery.Rfc3339
