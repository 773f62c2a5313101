import WatScript.Fault.Generating
import WatScript.Text.Numeral

/-!
# Number literals

A literal is `true`, `false`, or begins with a decimal digit: decimal up to the largest signed value,
hexadecimal after `0x` and binary after `0b` up to 32 bits, read in two's complement. Underscores may
stand anywhere but at the front and at the end.
-/

namespace WatScript

def isNumeric (w : String) : Bool :=
  w == "true" || w == "false" || (w.toList.head?.any fun c => '0' ≤ c && c ≤ '9')

/-- Digits in front of which the base has been taken off, within the bound of that base. -/
def parseDigits (cs : List Char) : Except NumeralFault Nat :=
  match cs with
  | '0' :: 'x' :: rest | '0' :: 'X' :: rest => Numeral.unsigned 16 32 rest
  | '0' :: 'b' :: rest | '0' :: 'B' :: rest => Numeral.unsigned 2 32 rest
  | _ => Numeral.unsigned 10 31 cs

def parseNumber (w : String) : Except GenFault Int32 :=
  if w == "true" then .ok 1
  else if w == "false" then .ok 0
  else if !isNumeric w || w.toList.getLast? == some '_' then .error .invalidNumber
  else
    match parseDigits (w.toList.filter (· != '_')) with
    | .ok n => .ok (Int32.ofInt n)
    | .error _ => .error .invalidNumber

end WatScript
