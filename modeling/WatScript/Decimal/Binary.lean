/-!
# Binary numbers in decimal

Finite binary numbers of double precision, as exact values: a mantissa below two to the power of 53
times a power of two. `Binary64.ofRatio` rounds a quotient to the nearest one; `fixed` writes a number
with a fixed number of places, `scientific` and `general` with the fewest digits that read back.
-/

namespace WatScript

/-- A finite binary number of double precision: `mantissa * 2 ^ exponent`, possibly negative. -/
structure Binary64 where
  negative : Bool
  mantissa : Nat
  exponent : Int
  deriving DecidableEq, Repr, Inhabited

/-- The quotient rounded to the nearest integer, a tie to the even one. -/
def roundQuotient (num den : Nat) : Nat :=
  let q := num / den
  let twice := 2 * (num % den)
  if twice < den then q else if den < twice then q + 1 else if q % 2 == 0 then q else q + 1

namespace Binary64

def zero : Binary64 := ⟨false, 0, 0⟩

def isPositive (x : Binary64) : Bool := !x.negative && x.mantissa != 0

def scale (base num den : Nat) (e : Int) : Nat × Nat :=
  if 0 ≤ e then (num * Nat.pow base e.toNat, den) else (num, den * Nat.pow base (-e).toNat)

def ratio (x : Binary64) : Nat × Nat := scale 2 x.mantissa 1 x.exponent

def minExponent : Int := -1074

def maxExponent : Int := 971

/-- The binary number nearest to a quotient, a tie to the even mantissa; none if it is too large. -/
def ofRatio (negative : Bool) (num den : Nat) : Option Binary64 :=
  if num == 0 then some ⟨negative, 0, 0⟩
  else
    let guess : Int := (num.log2 : Int) - (den.log2 : Int) - 52
    let (n, d) := scale 2 num den (-guess)
    let e := max minExponent (if n < d * Nat.pow 2 52 then guess - 1 else guess)
    let (n, d) := scale 2 num den (-e)
    let m := roundQuotient n d
    let (m, e) := if m == Nat.pow 2 53 then (Nat.pow 2 52, e + 1) else (m, e)
    if maxExponent < e then none else some ⟨negative, m, e⟩

/-- Decimal exponents outside these bounds give zero or no number at all. -/
def decimalBound : Int := 400

def ofDecimal (negative : Bool) (digits : Nat) (e : Int) : Option Binary64 :=
  let magnitude := e + ((Nat.toDigits 10 digits).length : Int)
  if digits == 0 then some ⟨negative, 0, 0⟩
  else if decimalBound < magnitude then none
  else if magnitude < -decimalBound then some ⟨negative, 0, 0⟩
  else
    let (n, d) := scale 10 digits 1 e
    ofRatio negative n d

def sign (x : Binary64) : String := if x.negative then "-" else ""

/-- The number with a fixed number of places, a tie to the even digit. -/
def fixed (places : Nat) (x : Binary64) : String :=
  let (n, d) := x.ratio
  let scaled := roundQuotient (n * Nat.pow 10 places) d
  let cs := Nat.toDigits 10 scaled
  let cs := List.replicate (places + 1 - cs.length) '0' ++ cs
  let whole := cs.take (cs.length - places)
  let fraction := cs.drop (cs.length - places)
  x.sign ++ String.ofList whole ++ (if places == 0 then "" else "." ++ String.ofList fraction)

/-! ## Fewest digits -/

/-- The decimal exponent of the leading digit of a quotient that is not zero. -/
def leadingExponent (num den : Nat) : Int :=
  if den ≤ num then ((Nat.toDigits 10 (num / den)).length : Int) - 1
  else
    let j := ((List.range 400).find? fun j => den ≤ num * Nat.pow 10 j).getD 400
    Int.negOfNat j

/-- Of the two neighbours of a number on the grid of `10 ^ e`, the nearer one that reads back. -/
def neighbour? (x : Binary64) (e : Int) : Option Nat :=
  let (n, d) := x.ratio
  let (n, d) := scale 10 n d (-e)
  let lower := n / d
  let readsBack (c : Nat) : Bool := ofDecimal x.negative c e == some x
  let nearest := roundQuotient n d
  let other := if nearest == lower then lower + 1 else lower
  if readsBack nearest then some nearest else if readsBack other then some other else none

/-- The shortest digits that read back, with the decimal exponent of the last one. -/
def shortest (x : Binary64) : Nat × Int :=
  let (n, d) := x.ratio
  let lead := leadingExponent n d
  ((List.range 17).findSome? fun (i : Nat) =>
    let e := lead - (i : Int)
    (x.neighbour? e).map fun c => (c, e)).getD (0, 0)

def exponentText (e : Int) : String :=
  let digits := toString e.natAbs
  (if e < 0 then "e-" else "e+") ++ (if digits.length < 2 then "0" ++ digits else digits)

def stripZeros (cs : List Char) : List Char :=
  match (cs.reverse.dropWhile (· == '0')).reverse with
  | [] => ['0']
  | kept => kept

/-- The shortest digits of a number that is not zero, without zeros at the end, and the decimal exponent
of the first one. -/
def leadingDigits (x : Binary64) : List Char × Int :=
  let (c, e) := x.shortest
  let cs := Nat.toDigits 10 c
  (stripZeros cs, e + (cs.length : Int) - 1)

/-- The number with one digit before the point and the fewest digits that read back. -/
def scientific (x : Binary64) : String :=
  if x.mantissa == 0 then x.sign ++ "0e+00"
  else
    let (cs, lead) := x.leadingDigits
    match cs with
    | [] => ""
    | [d] => x.sign ++ String.ofList [d] ++ exponentText lead
    | d :: rest => x.sign ++ String.ofList (d :: '.' :: rest) ++ exponentText lead

/-- Digits with the point placed by the decimal exponent of the first one. -/
def placePoint (cs : List Char) (lead : Int) : List Char :=
  if lead < 0 then '0' :: '.' :: List.replicate ((-lead).toNat - 1) '0' ++ cs
  else
    let places := lead.toNat + 1
    let whole := cs.take places ++ List.replicate (places - cs.length) '0'
    match cs.drop places with
    | [] => whole
    | fraction => whole ++ '.' :: fraction

/-- The number with the fewest digits that read back: with a point in its place unless the first digit
stands further than four places behind the point or more than six before it. -/
def general (x : Binary64) : String :=
  if x.mantissa == 0 then x.sign ++ "0"
  else
    let (cs, lead) := x.leadingDigits
    if lead < -4 || 6 ≤ lead then x.scientific else x.sign ++ String.ofList (placePoint cs lead)

end Binary64

end WatScript
