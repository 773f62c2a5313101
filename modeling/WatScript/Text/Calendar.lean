/-!
# Calendar

Instants are milliseconds since the start of 1970, in universal time. The civil date follows from the
number of days in cycles of 400 years that start in March, so that a leap day ends its year.
-/

namespace WatScript.Calendar

structure Civil where
  year : Int
  month : Nat
  day : Nat
  hour : Nat
  minute : Nat
  second : Nat
  millisecond : Nat
  deriving DecidableEq, Repr, Inhabited

def millisecondsPerDay : Int := 86400000

def daysPerCycle : Int := 146097

/-- The days from the first of March of the year zero to the start of 1970. -/
def epochDays : Int := 719468

def ofInstant (ms : Int) : Civil :=
  let days := ms.fdiv millisecondsPerDay + epochDays
  let time := (ms.fmod millisecondsPerDay).toNat
  let cycle := days.fdiv daysPerCycle
  let dayOfCycle := (days.fmod daysPerCycle).toNat
  let yearOfCycle :=
    (dayOfCycle - dayOfCycle / 1460 + dayOfCycle / 36524 - dayOfCycle / 146096) / 365
  let dayOfYear := dayOfCycle - (365 * yearOfCycle + yearOfCycle / 4 - yearOfCycle / 100)
  let monthFromMarch := (5 * dayOfYear + 2) / 153
  let month := if monthFromMarch < 10 then monthFromMarch + 3 else monthFromMarch - 9
  let year := (yearOfCycle : Int) + cycle * 400 + (if month ≤ 2 then 1 else 0)
  { year, month
    day := dayOfYear - (153 * monthFromMarch + 2) / 5 + 1
    hour := time / 3600000
    minute := time / 60000 % 60
    second := time / 1000 % 60
    millisecond := time % 1000 }

def padded (width n : Nat) : String :=
  let digits := toString n
  "".pushn '0' (width - digits.length) ++ digits

def yearText (year : Int) : String := (if year < 0 then "-" else "") ++ padded 4 year.natAbs

def clock (c : Civil) : String :=
  padded 2 c.hour ++ ":" ++ padded 2 c.minute ++ ":" ++ padded 2 c.second

def full (ms : Int) : String :=
  let c := ofInstant ms
  yearText c.year ++ "-" ++ padded 2 c.month ++ "-" ++ padded 2 c.day ++ "T" ++ clock c ++ "+0000"

def short (ms : Int) : String :=
  let c := ofInstant ms
  padded 2 c.month ++ "-" ++ padded 2 c.day ++ "|" ++ clock c ++ "." ++ padded 3 c.millisecond

end WatScript.Calendar
