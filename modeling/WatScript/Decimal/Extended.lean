import WatScript.Decimal.Read

/-!
# Numbers with infinities

A binary number of double precision, an infinity, or no number at all. All of them can be written and
read; a finite one may also be read from hexadecimal digits with a power of two.
-/

namespace WatScript

/-- A binary number of double precision that need not be finite. -/
inductive Extended64 where
  | finite (x : Binary64)
  | infinite (negative : Bool)
  | notANumber
  deriving DecidableEq, Repr, Inhabited

namespace Extended64

def isPositive : Extended64 → Bool
  | finite x => x.isPositive
  | infinite negative => !negative
  | notANumber => false

def scientific : Extended64 → String
  | finite x => x.scientific
  | infinite negative => if negative then "-Inf" else "+Inf"
  | notANumber => "NaN"

/-! ## Reading -/

def hexValue (cs : List Char) : Nat :=
  cs.foldl (fun n c => 16 * n + (Numeral.digitValue? c).getD 0) 0

def isHexDigit (c : Char) : Bool :=
  match Numeral.digitValue? c with
  | some d => d < 16
  | none => false

/-- Binary exponents outside these bounds give zero or no number at all. -/
def binaryBound : Int := 2000

def ofPower (negative : Bool) (digits : Nat) (e : Int) : Option Binary64 :=
  let magnitude := e + (digits.log2 : Int)
  if digits == 0 || magnitude < -binaryBound then some ⟨negative, 0, 0⟩
  else if binaryBound < magnitude then none
  else
    let (n, d) := Binary64.scale 2 digits 1 e
    Binary64.ofRatio negative n d

/-- Reads hexadecimal digits with at most one point among them and a power of two, which must be
there. -/
def ofHex (negative : Bool) (cs : List Char) : Except NumeralFault Binary64 :=
  let (whole, rest) := cs.span isHexDigit
  let (places, rest) := match rest with
    | '.' :: more => more.span isHexDigit
    | _ => ([], rest)
  match rest with
  | [] => .error .invalid
  | _ =>
    match Binary64.exponent? 'p' rest with
    | none => .error .invalid
    | some e =>
      if whole.isEmpty && places.isEmpty then .error .invalid
      else
        match ofPower negative (hexValue (whole ++ places)) (e - 4 * places.length) with
        | none => .error .outOfRange
        | some x => .ok x

def ofMagnitude (negative : Bool) (cs : List Char) : Except NumeralFault Extended64 :=
  if ["inf".toList, "infinity".toList].contains (cs.map Char.toLower) then .ok (infinite negative)
  else if cs.contains '_' && !Numeral.underscoresOk cs then .error .invalid
  else
    match cs.filter (· != '_') with
    | '0' :: mark :: c :: rest =>
      if mark == 'x' || mark == 'X' then (ofHex negative (c :: rest)).map finite
      else (Binary64.ofUnsigned negative ('0' :: mark :: c :: rest)).map finite
    | cs => (Binary64.ofUnsigned negative cs).map finite

/-- Reads a number; only an infinity and a finite number may have a sign. -/
def read (s : String) : Except NumeralFault Extended64 :=
  match s.toList with
  | '-' :: rest => ofMagnitude true rest
  | '+' :: rest => ofMagnitude false rest
  | cs => if cs.map Char.toLower == "nan".toList then .ok notANumber else ofMagnitude false cs

end Extended64

end WatScript
