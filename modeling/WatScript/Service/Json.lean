import WatScript.Text.Quoted

/-!
# JSON

Reading the first value of a text, whatever follows it, and writing records. Written strings also escape
the characters that have a meaning in markup.
-/

namespace WatScript

inductive JsonValue where
  | null
  | bool (b : Bool)
  | number (text : String)
  | string (s : String)
  | array (items : List JsonValue)
  | object (fields : List (String × JsonValue))
  deriving Repr, Inhabited

namespace JsonValue

/-! ## Reading -/

def isGap (c : Char) : Bool := c == ' ' || c == '\t' || c == '\n' || c == '\r'

def skipGap (cs : List Char) : List Char := cs.dropWhile isGap

def hexValue? (c : Char) : Option Nat :=
  if '0' ≤ c && c ≤ '9' then some (c.toNat - 48)
  else if 'a' ≤ c && c ≤ 'f' then some (c.toNat - 87)
  else if 'A' ≤ c && c ≤ 'F' then some (c.toNat - 55)
  else none

def hex4? (a b c d : Char) : Option Nat := do
  return (((← hexValue? a) * 16 + (← hexValue? b)) * 16 + (← hexValue? c)) * 16 + (← hexValue? d)

def isLowSurrogate (n : Nat) : Bool := 0xDC00 ≤ n && n < 0xE000

def isHighSurrogate (n : Nat) : Bool := 0xD800 ≤ n && n < 0xDC00

def ofSurrogates (high low : Nat) : Char :=
  Char.ofNat (0x10000 + (high - 0xD800) * 0x400 + (low - 0xDC00))

def escaped? : Char → Option Char
  | '"' => some '"'
  | '\\' => some '\\'
  | '/' => some '/'
  | 'b' => some '\x08'
  | 'f' => some '\x0c'
  | 'n' => some '\n'
  | 'r' => some '\r'
  | 't' => some '\t'
  | _ => none

/-- A character behind a pending first half of a pair of surrogates: the half stands alone. -/
def settle (pending : Option Nat) (cs : List Char) : List Char :=
  match pending with
  | none => cs
  | some _ => Glyph.replacement :: cs

/-- Reads a string behind its opening quote. `pending` is a first half of a pair of surrogates right
before; a half that stands alone is replaced. -/
def readString (pending : Option Nat) : List Char → Option (List Char × List Char)
  | [] => none
  | '"' :: rest => some (settle pending [], rest)
  | '\\' :: 'u' :: a :: b :: c :: d :: rest => do
    let n ← hex4? a b c d
    match pending with
    | some high =>
      if isLowSurrogate n then
        let (cs, rest) ← readString none rest
        return (ofSurrogates high n :: cs, rest)
      else if isHighSurrogate n then
        let (cs, rest) ← readString (some n) rest
        return (Glyph.replacement :: cs, rest)
      else
        let (cs, rest) ← readString none rest
        return (Glyph.replacement :: Text.charOfCode n :: cs, rest)
    | none =>
      if isHighSurrogate n then readString (some n) rest
      else
        let (cs, rest) ← readString none rest
        return (Text.charOfCode n :: cs, rest)
  | '\\' :: e :: rest => do
    let c ← escaped? e
    let (cs, rest) ← readString none rest
    return (settle pending (c :: cs), rest)
  | c :: rest =>
    if c.toNat < 0x20 || c == '\\' then none
    else do
      let (cs, rest) ← readString none rest
      return (settle pending (c :: cs), rest)

def readDigits? (cs : List Char) : Option (List Char × List Char) :=
  match cs.span Char.isDigit with
  | ([], _) => none
  | found => some found

def readExponent (cs : List Char) : Option (List Char × List Char) :=
  match cs with
  | e :: rest =>
    if e == 'e' || e == 'E' then
      match rest with
      | s :: more =>
        if s == '+' || s == '-' then do
          let (ds, rest) ← readDigits? more
          return (e :: s :: ds, rest)
        else do
          let (ds, rest) ← readDigits? rest
          return (e :: ds, rest)
      | [] => none
    else some ([], cs)
  | [] => some ([], [])

def readFraction (cs : List Char) : Option (List Char × List Char) :=
  match cs with
  | '.' :: rest => do
    let (ds, rest) ← readDigits? rest
    return ('.' :: ds, rest)
  | _ => some ([], cs)

def readMagnitude (cs : List Char) : Option (List Char × List Char) := do
  let (whole, rest) ← match cs with
    | '0' :: rest => some (['0'], rest)
    | cs => readDigits? cs
  let (fraction, rest) ← readFraction rest
  let (exponent, rest) ← readExponent rest
  return (whole ++ fraction ++ exponent, rest)

def readNumber (cs : List Char) : Option (List Char × List Char) :=
  match cs with
  | '-' :: rest => do
    let (ds, rest) ← readMagnitude rest
    return ('-' :: ds, rest)
  | cs => readMagnitude cs

def maxNesting : Nat := 10000

mutual

/-- Reads a value with `room` for so many levels of nesting; `fuel` bounds the recursion. -/
def readValue : Nat → Nat → List Char → Option (JsonValue × List Char)
  | 0, _, _ => none
  | fuel + 1, room, cs =>
    match skipGap cs with
    | 'n' :: 'u' :: 'l' :: 'l' :: rest => some (.null, rest)
    | 't' :: 'r' :: 'u' :: 'e' :: rest => some (.bool true, rest)
    | 'f' :: 'a' :: 'l' :: 's' :: 'e' :: rest => some (.bool false, rest)
    | '"' :: rest => do
      let (s, rest) ← readString none rest
      return (.string (String.ofList s), rest)
    | '[' :: rest =>
      match room, skipGap rest with
      | 0, _ => none
      | _ + 1, ']' :: rest => some (.array [], rest)
      | room + 1, rest => do
        let (items, rest) ← readItems fuel room rest
        return (.array items, rest)
    | '\x7b' :: rest =>
      match room, skipGap rest with
      | 0, _ => none
      | _ + 1, '\x7d' :: rest => some (.object [], rest)
      | room + 1, rest => do
        let (fields, rest) ← readFields fuel room rest
        return (.object fields, rest)
    | rest => do
      let (text, rest) ← readNumber rest
      return (.number (String.ofList text), rest)

def readItems : Nat → Nat → List Char → Option (List JsonValue × List Char)
  | 0, _, _ => none
  | fuel + 1, room, cs => do
    let (item, rest) ← readValue fuel room cs
    match skipGap rest with
    | ']' :: rest => return ([item], rest)
    | ',' :: rest =>
      let (items, rest) ← readItems fuel room rest
      return (item :: items, rest)
    | _ => none

def readFields : Nat → Nat → List Char → Option (List (String × JsonValue) × List Char)
  | 0, _, _ => none
  | fuel + 1, room, cs =>
    match skipGap cs with
    | '"' :: rest => do
      let (name, rest) ← readString none rest
      match skipGap rest with
      | ':' :: rest =>
        let (value, rest) ← readValue fuel room rest
        match skipGap rest with
        | '\x7d' :: rest => return ([(String.ofList name, value)], rest)
        | ',' :: rest =>
          let (fields, rest) ← readFields fuel room rest
          return ((String.ofList name, value) :: fields, rest)
        | _ => none
      | _ => none
    | _ => none

end

def read? (cs : List Char) : Option (JsonValue × List Char) :=
  readValue (2 * cs.length + 2) maxNesting cs

/-! ## Writing -/

def escapeJsonChar (c : Char) : List Char :=
  match c with
  | '"' => ['\\', '"']
  | '\\' => ['\\', '\\']
  | '\n' => ['\\', 'n']
  | '\r' => ['\\', 'r']
  | '\t' => ['\\', 't']
  | '\x08' => ['\\', 'b']
  | '\x0c' => ['\\', 'f']
  | c =>
    let n := c.toNat
    if n < 0x20 || c == '<' || c == '>' || c == '&' || n == 0x2028 || n == 0x2029 then
      '\\' :: 'u' :: Text.hexDigits 4 n
    else [c]

def stringText (s : String) : String :=
  String.ofList ('"' :: s.toList.flatMap escapeJsonChar ++ ['"'])

def arrayText (items : List String) : String := "[" ++ ",".intercalate items ++ "]"

def objectText (fields : List (String × String)) : String :=
  "\x7b" ++ ",".intercalate (fields.map fun (k, v) => stringText k ++ ":" ++ v) ++ "\x7d"

end JsonValue

end WatScript
