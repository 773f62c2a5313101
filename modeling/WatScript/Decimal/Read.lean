import WatScript.Decimal.Binary
import WatScript.Text.Numeral

/-!
# Reading decimal fractions

A sign, digits with at most one point among them, and an exponent. Single underscores may stand between
digits.
-/

namespace WatScript

namespace Binary64

def digitsValue (cs : List Char) : Nat := cs.foldl (fun n c => 10 * n + (c.toNat - 48)) 0

/-- Reads an exponent: nothing, or its `mark` in any case, a sign and digits. -/
def exponent? (mark : Char) (cs : List Char) : Option Int :=
  match cs with
  | [] => some 0
  | c :: rest =>
    if c.toLower != mark then none
    else
      let (negative, digits) := match rest with
        | '-' :: ds => (true, ds)
        | '+' :: ds => (false, ds)
        | ds => (false, ds)
      if digits.isEmpty || !digits.all Char.isDigit then none
      else some (if negative then Int.negOfNat (digitsValue digits) else digitsValue digits)

def ofUnsigned (negative : Bool) (cs : List Char) : Except NumeralFault Binary64 :=
  let (whole, rest) := cs.span Char.isDigit
  let (places, rest) := match rest with
    | '.' :: more => more.span Char.isDigit
    | _ => ([], rest)
  match exponent? 'e' rest with
  | none => .error .invalid
  | some e =>
    if whole.isEmpty && places.isEmpty then .error .invalid
    else
      match ofDecimal negative (digitsValue (whole ++ places)) (e - places.length) with
      | none => .error .outOfRange
      | some x => .ok x

/-- Reads a fraction without a sign in which underscores may separate digits. -/
def ofMagnitude (negative : Bool) (cs : List Char) : Except NumeralFault Binary64 :=
  if cs.contains '_' && !Numeral.underscoresOk cs then .error .invalid
  else ofUnsigned negative (cs.filter (· != '_'))

def read (s : String) : Except NumeralFault Binary64 :=
  match s.toList with
  | '-' :: rest => ofMagnitude true rest
  | '+' :: rest => ofMagnitude false rest
  | cs => ofMagnitude false cs

end Binary64

end WatScript
