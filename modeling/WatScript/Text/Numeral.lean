/-!
# Numerals

Integers read digit by digit within a bound. Reading stops at the first character that is no digit of
the base, and at the first digit that takes the value over the bound, whichever comes first. A numeral
may name its base: `0x`, `0o` and `0b` in front, or a `0` in front for octal; only such free numerals
may separate digits by underscores.
-/

namespace WatScript

inductive NumeralFault where
  | invalid
  | outOfRange
  deriving DecidableEq, Repr, Inhabited

def NumeralFault.message : NumeralFault → String
  | invalid => "invalid syntax"
  | outOfRange => "value out of range"

namespace Numeral

def digitValue? (c : Char) : Option Nat :=
  if '0' ≤ c && c ≤ '9' then some (c.toNat - 48)
  else if 'a' ≤ c && c ≤ 'z' then some (c.toNat - 87)
  else if 'A' ≤ c && c ≤ 'Z' then some (c.toNat - 55)
  else none

/-- Reads digits after a value; underscores are passed over if `free`. -/
def readDigits (base bound : Nat) (free : Bool) : Nat → List Char → Except NumeralFault Nat
  | n, [] => .ok n
  | n, c :: rest =>
    if free && c == '_' then readDigits base bound free n rest
    else
      match digitValue? c with
      | none => .error .invalid
      | some d =>
        if base ≤ d then .error .invalid
        else if bound < n * base + d then .error .outOfRange
        else readDigits base bound free (n * base + d) rest

@[inline] def unsigned (base bits : Nat) (cs : List Char) : Except NumeralFault Nat :=
  if cs.isEmpty then .error .invalid else readDigits base (Nat.pow 2 bits - 1) false 0 cs

/-- The base that a free numeral names, and the digits after its base mark. -/
def baseOf (cs : List Char) : Nat × List Char :=
  match cs with
  | '0' :: mark :: c :: rest =>
    if mark == 'b' || mark == 'B' then (2, c :: rest)
    else if mark == 'o' || mark == 'O' then (8, c :: rest)
    else if mark == 'x' || mark == 'X' then (16, c :: rest)
    else (8, mark :: c :: rest)
  | '0' :: rest => (8, rest)
  | _ => (10, cs)

inductive Neighbour where
  | start
  | digit
  | underscore
  | other
  deriving DecidableEq, Repr, Inhabited

/-- Every underscore stands between digits; the base mark counts as a digit. -/
def underscoresFrom (hex : Bool) : Neighbour → List Char → Bool
  | last, [] => last != .underscore
  | last, c :: rest =>
    if ('0' ≤ c && c ≤ '9') || (hex && (('a' ≤ c && c ≤ 'f') || ('A' ≤ c && c ≤ 'F'))) then
      underscoresFrom hex .digit rest
    else if c == '_' then
      if last == .digit then underscoresFrom hex .underscore rest else false
    else if last == .underscore then false
    else underscoresFrom hex .other rest

def underscoresOk (cs : List Char) : Bool :=
  match cs with
  | '0' :: mark :: rest =>
    if ['b', 'B', 'o', 'O', 'x', 'X'].contains mark then
      underscoresFrom (mark == 'x' || mark == 'X') .digit rest
    else underscoresFrom false .start cs
  | _ => underscoresFrom false .start cs

def freeUnsigned (bits : Nat) (cs : List Char) : Except NumeralFault Nat :=
  if cs.isEmpty then .error .invalid
  else do
    let (base, digits) := baseOf cs
    let n ← readDigits base (Nat.pow 2 bits - 1) true 0 digits
    if cs.contains '_' && !underscoresOk cs then throw .invalid
    return n

/-- Reads an optional sign, then a magnitude, within the range of a signed integer of `bits` bits. -/
@[inline] def withSign (bits : Nat) (magnitude : List Char → Except NumeralFault Nat) (cs : List Char) :
    Except NumeralFault Int := do
  match cs with
  | [] => throw .invalid
  | '-' :: rest =>
    let n ← magnitude rest
    if Nat.pow 2 (bits - 1) < n then throw .outOfRange else return -(n : Int)
  | '+' :: rest =>
    let n ← magnitude rest
    if Nat.pow 2 (bits - 1) ≤ n then throw .outOfRange else return (n : Int)
  | _ =>
    let n ← magnitude cs
    if Nat.pow 2 (bits - 1) ≤ n then throw .outOfRange else return (n : Int)

@[inline] def decimal (bits : Nat) (cs : List Char) : Except NumeralFault Int :=
  withSign bits (unsigned 10 bits) cs

def free (bits : Nat) (cs : List Char) : Except NumeralFault Int :=
  withSign bits (freeUnsigned bits) cs

def int32? (cs : List Char) : Option Int32 := ((decimal 32 cs).toOption).map Int32.ofInt

def int64? (cs : List Char) : Option Int := (decimal 64 cs).toOption

end Numeral

end WatScript
