/-!
# Timestamps

A timestamp is a day of the Gregorian calendar, continued to both sides, and a time of that day.
A second that is inserted after the last one of a minute is kept as a nanosecond count of
`10 ^ 9` and more.
-/

namespace UnionScript

/-- A day and a time of it. -/
structure Timestamp where
  year : Int
  month : Nat
  day : Nat
  hour : Nat
  minute : Nat
  second : Nat
  nanosecond : Nat
deriving DecidableEq, Repr

namespace Timestamp

/-- A number in at least the given number of digits. -/
def padded (width n : Nat) : String :=
  let digits := Nat.toDigits 10 n
  String.ofList (List.replicate (width - digits.length) '0' ++ digits)

/-- A year in four digits; with its sign when it is negative or needs more digits. -/
def yearText (year : Int) : String :=
  if year < 0 then "-" ++ padded 4 year.natAbs
  else if 9999 < year then "+" ++ padded 4 year.natAbs
  else padded 4 year.natAbs

/-- The second as it is shown: an inserted one is the sixtieth. -/
def shownSecond (t : Timestamp) : Nat :=
  if Nat.pow 10 9 ≤ t.nanosecond then t.second + 1 else t.second

/-- The text of the day. -/
def dateText (t : Timestamp) : String :=
  yearText t.year ++ "-" ++ padded 2 t.month ++ "-" ++ padded 2 t.day

/-- The text of the time in whole seconds. -/
def timeText (t : Timestamp) : String :=
  padded 2 t.hour ++ ":" ++ padded 2 t.minute ++ ":" ++ padded 2 t.shownSecond

/-- The start of the year 2001. -/
def epoch : Timestamp := ⟨2001, 1, 1, 0, 0, 0, 0⟩

end Timestamp

end UnionScript
