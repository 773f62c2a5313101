/-!
# Dates and times in a document

A date and a time of day are written with two digits each but for the year, so their parts stand in
fixed columns. Each part has its range; the day is looked at last, as its range depends on the month.
-/

namespace WatScript.Toml

inductive MomentPart where
  | month
  | day
  | hour
  | minute
  | second
  | zoneHour
  | zoneMinute
  deriving DecidableEq, Repr, Inhabited

def MomentPart.name : MomentPart → String
  | month => "month"
  | day => "day"
  | hour => "hour"
  | minute => "minute"
  | second => "second"
  | zoneHour => "time zone offset hour"
  | zoneMinute => "time zone offset minute"

namespace Moment

def number (cs : List Char) (column width : Nat) : Nat :=
  ((cs.drop column).take width).foldl (fun n c => 10 * n + (c.toNat - 48)) 0

def isLeap (year : Nat) : Bool := year % 4 == 0 && (year % 100 != 0 || year % 400 == 0)

def daysOf (year month : Nat) : Nat :=
  if month == 2 then (if isLeap year then 29 else 28)
  else if [4, 6, 9, 11].contains month then 30
  else 31

def firstFailure : List (Bool × MomentPart) → Option MomentPart
  | [] => none
  | (ok, part) :: rest => if ok then firstFailure rest else some part

def monthCheck (cs : List Char) : List (Bool × MomentPart) :=
  let month := number cs 5 2
  [(1 ≤ month && month ≤ 12, .month)]

def dayCheck (cs : List Char) : List (Bool × MomentPart) :=
  let day := number cs 8 2
  [(1 ≤ day && day ≤ daysOf (number cs 0 4) (number cs 5 2), .day)]

def clockChecks (cs : List Char) : List (Bool × MomentPart) :=
  [(number cs 0 2 < 24, .hour), (number cs 3 2 < 60, .minute), (number cs 6 2 < 60, .second)]

/-- The checks of a time zone, which is a `Z` or a distance at the end. -/
def zoneChecks (cs : List Char) : List (Bool × MomentPart) :=
  if cs.getLast? == some 'Z' then []
  else
    let zone := cs.drop (cs.length - 5)
    [(number zone 3 2 ≤ 60, .zoneMinute), (number zone 0 2 ≤ 24, .zoneHour)]

/-- The part of a date, a time of day or both that is out of range. -/
def fault? (cs : List Char) : Option MomentPart :=
  firstFailure <|
    if !cs.contains ':' then monthCheck cs ++ dayCheck cs
    else if !cs.contains '-' then clockChecks cs
    else
      monthCheck cs ++ clockChecks (cs.drop 11) ++ zoneChecks (cs.drop 11) ++ dayCheck cs

end Moment

end WatScript.Toml
