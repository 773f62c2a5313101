import WatScript.Text.Glyph
import WatScript.Text.Printable

/-!
# Quoted text

Text and single characters in quotes, the way messages and outlines show them: printable characters
stand as they are, the quote in use and the backslash are escaped, the usual control characters have
letters, other characters below U+0020 and U+007F are `\xNN`, and everything else that is not
printable is `\uNNNN` or `\UNNNNNNNN`. A stray byte is `\xNN`.
-/

namespace WatScript.Text

def hexDigit (n : Nat) : Char :=
  if n < 10 then Char.ofNat (48 + n) else Char.ofNat (87 + n)

def hexDigits : Nat → Nat → List Char
  | 0, _ => []
  | width + 1, n => hexDigits width (n / 16) ++ [hexDigit (n % 16)]

/-- The letter that stands for a control character after a backslash. -/
def controlLetter? (c : Char) : Option Char :=
  match c.toNat with
  | 7 => some 'a'
  | 8 => some 'b'
  | 9 => some 't'
  | 10 => some 'n'
  | 11 => some 'v'
  | 12 => some 'f'
  | 13 => some 'r'
  | _ => none

def escapeChar (quote c : Char) : List Char :=
  if c = quote || c = '\\' then ['\\', c]
  else if isPrintable c then [c]
  else match controlLetter? c with
    | some letter => ['\\', letter]
    | none =>
      if c.toNat < 0x20 || c.toNat = 0x7F then '\\' :: 'x' :: hexDigits 2 c.toNat
      else if c.toNat < 0x10000 then '\\' :: 'u' :: hexDigits 4 c.toNat
      else '\\' :: 'U' :: hexDigits 8 c.toNat

def escapeGlyph (quote : Char) : Glyph → List Char
  | .char c => escapeChar quote c
  | .stray b => '\\' :: 'x' :: hexDigits 2 b.toNat

def quote (t : Text) : String :=
  String.ofList ('"' :: t.flatMap (escapeGlyph '"') ++ ['"'])

def quoteString (s : String) : String :=
  String.ofList ('"' :: s.toList.flatMap (escapeChar '"') ++ ['"'])

def quoteChar (c : Char) : String :=
  String.ofList ('\'' :: escapeChar '\'' c ++ ['\''])

/-- The character with code `n`; a code that no character has gives the replacement character. -/
def charOfCode (n : Int) : Char :=
  if n < 0 then Glyph.replacement
  else if n.toNat.isValidChar then Char.ofNat n.toNat else Glyph.replacement

end WatScript.Text
