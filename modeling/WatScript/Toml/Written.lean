import WatScript.Toml.Reader

/-!
# TOML as written

The grammar of documents. A document is read as a list of table headers and of pairs of a key and a
value, which hold their texts as written: what escapes stand for, and whether keys and headers get along
with each other, is not decided here.

Pairs behind a header need no line ends between them. A number starts with a zero only if it is a zero,
so what follows a zero is taken for the next key.
-/

namespace WatScript.Toml

inductive TextForm where
  | basic
  /-- In three double quotes, with escapes, on several lines. -/
  | longBasic
  | literal
  /-- In three single quotes, without escapes, on several lines. -/
  | longLiteral
  deriving DecidableEq, Repr, Inhabited

structure WrittenKey where
  isQuoted : Bool
  body : List Char
  line : Nat
  deriving DecidableEq, Repr, Inhabited

mutual

/-- A value as written. Numbers are without their underscores. -/
inductive WrittenValue where
  | moment (s : String)
  | real (s : String)
  | integer (s : String)
  | text (form : TextForm) (body : List Char) (line : Nat)
  | boolean (b : Bool)
  | array (items : List WrittenValue)
  | table (line : Nat) (pairs : List WrittenPair)

inductive WrittenPair where
  | mk (key : WrittenKey) (value : WrittenValue) (line : Nat)

end

instance : Inhabited WrittenValue := ⟨.boolean false⟩

inductive WrittenItem where
  /-- A table header: the text in its brackets, which are doubled for an array of tables, the keys in
  that text, and its line. -/
  | header (isArray : Bool) (name : String) (path : List WrittenKey) (line : Nat)
  | pair (p : WrittenPair)

open Reader

/-! ## Blanks -/

def isGap (c : Char) : Bool := c == ' ' || c == '\t'

/-- Characters that may stand in a comment: all but control characters, and the tab. -/
def isCommentChar (c : Char) : Bool := 0x20 ≤ c.toNat || c == '\t'

def gap : Reader Unit := recognized (skip (span isGap))

def gaps : Reader Unit := recognized (skip (span fun c => isGap c || isLineEnd c))

def lineEnds : Reader (List Char) := recognized (span1 isLineEnd)

def comment : Reader Unit := recognized do
  mark '#'
  skip (span isCommentChar)

/-! ## Texts -/

def hexDigit : Reader Char :=
  recognized (one fun c => c.isDigit || ('a' ≤ c && c ≤ 'f') || ('A' ≤ c && c ≤ 'F'))

def hexDigits : Nat → Reader (List Char)
  | 0 => give []
  | n + 1 => do return (← hexDigit) :: (← hexDigits n)

def escapeMark : Reader Unit := recognized (mark '\\')

def escape : Reader (List Char) := recognized <| text do
  escapeMark
  firstOf [
    (fun c => [c]) <$> one fun c => "btnfr\"/\\".contains c,
    do mark 'u'; hexDigits 4,
    do mark 'U'; hexDigits 8]

def plainChar : Reader (List Char) :=
  recognized ((fun c => [c]) <$> one fun c => 0x20 ≤ c.toNat && c != '"' && c != '\\')

def basicChar : Reader (List Char) := recognized (orElse plainChar escape)

def basicText : Reader (List Char) := recognized do
  mark '"'
  let parts ← many basicChar
  mark '"'
  return parts.flatten

/-- A backslash at the end of a line, which takes away the blanks in front of what follows. -/
def continuation : Reader (List Char) := do
  escapeMark
  skip lineEnds
  gaps
  return []

def longBasicText : Reader (List Char) := recognized do
  word "\"\"\""
  let parts ← recognized (many (firstOf [basicChar, lineEnds, continuation]))
  word "\"\"\""
  return parts.flatten

def literalText : Reader (List Char) := recognized do
  mark '\''
  let body ← recognized (span fun c => isCommentChar c && c != '\'')
  mark '\''
  return body

def longLiteralText : Reader (List Char) := recognized do
  word "'''"
  let parts ← recognized (many do
    absent (word "'''")
    orElse ((fun c => [c]) <$> recognized (one isCommentChar)) lineEnds)
  word "'''"
  return parts.flatten

def textOf (form : TextForm) (r : Reader (List Char)) : Reader WrittenValue := do
  let body ← r
  return .text form body (← here).line

def anyText : Reader WrittenValue := recognized (firstOf [
  textOf .longLiteral longLiteralText, textOf .literal literalText,
  textOf .longBasic longBasicText, textOf .basic basicText])

/-! ## Numbers -/

def digit : Reader Unit := recognized (skip (one Char.isDigit))

def nextDigit : Reader Unit := orElse digit do
  mark '_'
  digit

def digits : Reader Unit := do
  digit
  skip (many nextDigit)

def sign : Reader Unit := pass (one fun c => c == '-' || c == '+')

def whole : Reader Unit := recognized do
  sign
  recognized (orElse
    (do
      skip (one fun c => c.isDigit && c != '0')
      skip (many1 nextDigit))
    digit)

def places : Reader Unit := recognized do
  mark '.'
  digits

def exponent : Reader Unit := recognized do
  skip (one fun c => c == 'e' || c == 'E')
  sign
  digits

/-- A fraction: a whole number with places, an exponent or both. -/
def fraction : Reader Unit := recognized do
  whole
  orElse
    (do
      places
      pass exponent)
    (do
      pass places
      exponent)

def numberText (r : Reader Unit) : Reader String :=
  (fun cs => String.ofList (cs.filter (· != '_'))) <$> text r

/-! ## Moments -/

def twoDigits : Reader Unit := recognized do
  digit
  digit

def date : Reader Unit := recognized do
  recognized do
    twoDigits
    twoDigits
  mark '-'
  twoDigits
  mark '-'
  twoDigits

def timeOfDay : Reader Unit := recognized do
  twoDigits
  mark ':'
  twoDigits
  mark ':'
  twoDigits
  pass (recognized do
    mark '.'
    skip (many1 digit))

def zone : Reader Unit := recognized (orElse
  (mark 'Z')
  (recognized do
    skip (one fun c => c == '-' || c == '+')
    twoDigits
    mark ':'
    twoDigits))

/-- A date, a date with a time and its zone, or a time of day. -/
def moment : Reader Unit := recognized (orElse
  (do
    date
    pass do
      mark 'T'
      recognized do
        timeOfDay
        zone)
  timeOfDay)

/-! ## Keys -/

def isKeyChar (c : Char) : Bool := c.isAlphanum || c == '-' || c == '_'

def key : Reader WrittenKey := recognized (orElse
  (do
    let line := (← here).line
    return ⟨false, ← recognized (span1 isKeyChar), line⟩)
  (do
    let line := (← here).line
    return ⟨true, ← basicText, line⟩))

/-! ## Values -/

def pairOf (value : Reader WrittenValue) : Reader WrittenPair := recognized do
  let k ← key
  gap
  mark '='
  gap
  let v ← value
  return ⟨k, v, (← here).line⟩

def truth : Reader Bool := recognized (orElse
  (do word "true"; return true)
  (do word "false"; return false))

def comma : Reader Unit := recognized (mark ',')

def itemsOf (value : Reader WrittenValue) : Reader (List WrittenValue) := recognized do
  let first ← value
  let others ← many do
    gaps
    pass comment
    gaps
    comma
    gaps
    pass comment
    gaps
    value
  gaps
  pass comma
  gaps
  pass comment
  return first :: others

def arrayOf (value : Reader WrittenValue) : Reader WrittenValue := recognized do
  mark '['
  gaps
  let items ← optional (itemsOf value)
  gaps
  mark ']'
  return .array (items.getD [])

def bracesOf (value : Reader WrittenValue) : Reader WrittenValue := recognized do
  let line := (← here).line
  mark '{'
  gap
  let pairs ← recognized (many do
    let p ← pairOf value
    pass (recognized do
      gap
      mark ','
      gap)
    return p)
  gap
  mark '}'
  return .table line pairs

def valueTo : Nat → Reader WrittenValue
  | 0 => fail
  | depth + 1 => recognized (firstOf [
      (fun cs => .moment (String.ofList cs)) <$> text moment,
      .real <$> numberText fraction,
      .integer <$> numberText whole,
      anyText,
      .boolean <$> truth,
      arrayOf (valueTo depth),
      bracesOf (valueTo depth)])

/-- A value. Every array and every table in it takes a character. -/
def value : Reader WrittenValue := fun p => valueTo (p.rest.length + 1) p

def pair : Reader WrittenPair := pairOf value

/-! ## Documents -/

def path : Reader (List WrittenKey) := recognized do
  let first ← recognized key
  let others ← many do
    recognized do
      gap
      mark '.'
      gap
    recognized key
  return first :: others

def headerIn (isArray : Bool) (opener closer : String) : Reader WrittenItem := recognized do
  word opener
  gap
  let start ← here
  let keys ← path
  let stop ← here
  gap
  word closer
  let name := start.rest.take (stop.offset - start.offset)
  return .header isArray (String.ofList name) keys (← here).line

def header : Reader WrittenItem :=
  recognized (orElse (headerIn false "[" "]") (headerIn true "[[" "]]"))

def lineRest : Reader Unit := do
  gap
  pass comment

/-- A header with the pairs that follow it, or a pair, or nothing. -/
def passage : Reader (List WrittenItem) := recognized (firstOf [
  (do
    gap
    let h ← header
    lineRest
    let pairs ← many do
      gaps
      let p ← pair
      lineRest
      return WrittenItem.pair p
    return h :: pairs),
  (do
    gap
    let p ← pair
    lineRest
    return [.pair p]),
  (do
    lineRest
    return [])])

def document : Reader (List WrittenItem) := do
  let first ← passage
  let others ← many do
    skip lineEnds
    passage
  pass lineEnds
  absent (one fun _ => true)
  return first ++ others.flatten

/-- Reads a document as written, or gives the line that can not be read. -/
def readWritten (cs : List Char) : Except Nat (List WrittenItem) := document.run cs

end WatScript.Toml
