import UnionScript.Decimal.Signed
import UnionScript.Text.Blank
import UnionScript.Timestamp

/-!
# Combined text of day and time

Day and time are joined by a `T`.  A fraction of a second is written in three, six or nine digits,
whichever is enough, and not at all when it is zero.  On reading, numbers may be shorter than they
are written and blanks may stand before any number and before a separator; a year of more than four
digits has a sign.
-/

namespace UnionScript.Timestamp

/-- The fraction of a second. -/
def fractionText (nanosecond : Nat) : String :=
  let n := nanosecond % Nat.pow 10 9
  if n = 0 then ""
  else if n % Nat.pow 10 6 = 0 then "." ++ padded 3 (n / Nat.pow 10 6)
  else if n % Nat.pow 10 3 = 0 then "." ++ padded 6 (n / Nat.pow 10 3)
  else "." ++ padded 9 n

/-- The combined text of day and time. -/
def isoText (t : Timestamp) : String :=
  t.dateText ++ "T" ++ t.timeText ++ fractionText t.nanosecond

/-- The number that decimal digits denote. -/
def digitsValue (cs : List Char) : Nat :=
  cs.foldl (fun n c => 10 * n + (Decimal.digitValue? c).getD 0) 0

/-- The digits at the start of a text, at most `most` of them, and what follows. -/
def splitDigits (most : Nat) (cs : List Char) : List Char × List Char :=
  let digits := (cs.take most).takeWhile Char.isDigit
  (digits, cs.drop digits.length)

/-- Reads a number of at least one and at most `most` digits. -/
def readNumber? (most : Nat) (cs : List Char) : Option (Nat × List Char) :=
  let (digits, rest) := splitDigits most (Text.trimStart cs)
  if digits.isEmpty then none else some (digitsValue digits, rest)

/-- Reads a year: four digits at most, or a sign and any number of digits. -/
def readYear? (cs : List Char) : Option (Int × List Char) :=
  match Text.trimStart cs with
  | '-' :: rest => signed? rest |>.map (fun r => (-(r.1 : Int), r.2))
  | '+' :: rest => signed? rest |>.map (fun r => ((r.1 : Int), r.2))
  | cs => readNumber? 4 cs |>.map (fun r => ((r.1 : Int), r.2))
where
  /-- The digits after a sign, which follows no blank. -/
  signed? (cs : List Char) : Option (Nat × List Char) :=
    let (digits, rest) := splitDigits cs.length cs
    if digits.isEmpty then none else some (digitsValue digits, rest)

/-- Reads a separator, after blanks. -/
def readMark? (mark : Char) (cs : List Char) : Option (List Char) :=
  match Text.trimStart cs with
  | c :: rest => if c = mark then some rest else none
  | [] => none

/-- Reads the fraction of a second in nanoseconds; digits beyond the ninth are dropped. -/
def readFraction? : List Char → Option (Nat × List Char)
  | '.' :: rest =>
    let (digits, rest) := splitDigits 9 rest
    if digits.isEmpty then none
    else some (digitsValue digits * Nat.pow 10 (9 - digits.length), rest.dropWhile Char.isDigit)
  | cs => some (0, cs)

/-- Every fourth year is a leap year, except for full centuries that are not divisible by 400. -/
def isLeapYear (year : Int) : Bool :=
  year % 4 == 0 && (year % 100 != 0 || year % 400 == 0)

/-- The number of days of a month. -/
def daysInMonth (year : Int) (month : Nat) : Nat :=
  if month = 2 then if isLeapYear year then 29 else 28
  else if month ∈ [4, 6, 9, 11] then 30
  else 31

/-- The numbers are those of a day and a time; the sixtieth second of a minute is an inserted one. -/
def ofParts? (year : Int) (month day hour minute second nanosecond : Nat) : Option Timestamp :=
  if -262143 ≤ year ∧ year ≤ 262142 ∧ 1 ≤ month ∧ month ≤ 12 ∧ 1 ≤ day ∧
      day ≤ daysInMonth year month ∧ hour < 24 ∧ minute < 60 ∧ second ≤ 60 then
    if second = 60 then some ⟨year, month, day, hour, minute, 59, Nat.pow 10 9 + nanosecond⟩
    else some ⟨year, month, day, hour, minute, second, nanosecond⟩
  else none

/-- Reads the combined text of day and time. -/
def ofIso? (cs : List Char) : Option Timestamp := do
  let (year, cs) ← readYear? cs
  let cs ← readMark? '-' cs
  let (month, cs) ← readNumber? 2 cs
  let cs ← readMark? '-' cs
  let (day, cs) ← readNumber? 2 cs
  let cs ← readMark? 'T' cs
  let (hour, cs) ← readNumber? 2 cs
  let cs ← readMark? ':' cs
  let (minute, cs) ← readNumber? 2 cs
  let cs ← readMark? ':' cs
  let (second, cs) ← readNumber? 2 cs
  let (nanosecond, cs) ← readFraction? cs
  if (Text.trimStart cs).isEmpty then ofParts? year month day hour minute second nanosecond
  else none

end UnionScript.Timestamp
