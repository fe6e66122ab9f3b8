import IndexQuery.Instant.Calendar

/-!
# Instants

A point in time as seconds since 1970-01-01T00:00:00Z and nanoseconds.  A leap second is the
second before it with a billion nanoseconds or more, and only the last second of a minute can
have one.
-/

namespace IndexQuery

/-- The number of nanoseconds in a second. -/
def nanosPerSecond : Nat := 1000000000

/-- A point in time. -/
structure Instant where
  /-- Whole seconds since 1970. -/
  seconds : Int64
  /-- Nanoseconds within the second, from a billion on within the leap second that follows. -/
  nanos : Nat
  nanos_lt : nanos < 2 * nanosPerSecond
  leap : nanosPerSecond ≤ nanos → seconds.toInt % 60 = 59
  deriving DecidableEq, Repr

/-- A time of day in whole seconds. -/
structure Clock where
  hour : Nat
  minute : Nat
  second : Nat
  deriving DecidableEq, Repr

namespace Instant

/-- The instant with the given parts, if there is one. -/
def ofParts? (seconds : Int) (nanos : Nat) : Option Instant :=
  let s := Int64.ofInt seconds
  if h : nanos < 2 * nanosPerSecond ∧ (nanosPerSecond ≤ nanos → s.toInt % 60 = 59) then
    if s.toInt = seconds then some ⟨s, nanos, h.1, h.2⟩ else none
  else none

/-- Whether the instant lies in a leap second. -/
def isLeap (t : Instant) : Bool := nanosPerSecond ≤ t.nanos

/-- The day that the instant falls on. -/
def date (t : Instant) : Date := .ofDayNumber (t.seconds.toInt / 86400)

/-- The time of day, a leap second being the sixtieth of its minute. -/
def clock (t : Instant) : Clock :=
  let s := (t.seconds.toInt % 86400).toNat
  ⟨s / 3600, s / 60 % 60, s % 60 + (if t.isLeap then 1 else 0)⟩

/-- The part of the second that has passed, in nanoseconds. -/
def subsecond (t : Instant) : Nat := t.nanos % nanosPerSecond

end Instant

end IndexQuery
