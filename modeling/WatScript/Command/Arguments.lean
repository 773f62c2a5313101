import WatScript.Engine.Basic
import WatScript.Text.Blank
import WatScript.Text.Numeral
import WatScript.Text.Quoted

/-!
# Entry arguments

The arguments of a program on a command line: numerals separated by commas, one for each parameter of
the entry function at most. A blank text has none.
-/

namespace WatScript

inductive ArgumentFault where
  | tooMany
  /-- The numeral at a position, counted from zero, can not be read. -/
  | unreadable (position : Nat) (numeral : Text) (why : NumeralFault)
  deriving DecidableEq, Repr, Inhabited

def ArgumentFault.message : ArgumentFault → String
  | tooMany => "at most " ++ toString Engine.entryParams.length ++ " arguments"
  | unreadable i numeral why =>
    "argument " ++ toString (i + 1) ++ ": strconv.ParseInt: parsing " ++ Text.quote numeral ++ ": " ++
      why.message

def readArgumentsFrom (i : Nat) : List Text → Except ArgumentFault (List Int32)
  | [] => .ok []
  | t :: rest =>
    let numeral : Text := Text.trimBoth Text.isBlankGlyph t
    match Numeral.free 32 numeral.toChars with
    | .error why => .error (.unreadable i numeral why)
    | .ok v => do
      let args ← readArgumentsFrom (i + 1) rest
      return Int32.ofInt v :: args

def readArguments (t : Text) : Except ArgumentFault (List Int32) :=
  if t.all Text.isBlankGlyph then .ok []
  else
    let parts := Text.split (· == .char ',') t
    if Engine.entryParams.length < parts.length then .error .tooMany
    else readArgumentsFrom 0 parts

end WatScript
