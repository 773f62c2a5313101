import WatScript.Decimal.Binary
import WatScript.Log.Level
import WatScript.Text.Calendar
import WatScript.Text.Quoted

/-!
# Log lines

A record is a message at a level with a context of keys and values. It is written as one line: for a
terminal with the message first, or as pairs only. A value that could be taken for something else is
quoted. A key that is no string is written as the value of the key `LOG_ERROR`.
-/

namespace WatScript

inductive LogValue where
  | absent
  | bool (b : Bool)
  | int (n : Int)
  | float (x : Binary64)
  | string (t : Text)
  | time (ms : Int)
  | shown (text : String)
  | level (l : LogLevel)
  | pairs (entries : List (String × LogValue))
  deriving Repr, Inhabited

def errorKey : Text := .ofString "LOG_ERROR"

def needsQuoting (t : Text) : Bool :=
  t.isEmpty || t.toChars.any fun c => c ≤ ' ' || c == '=' || c == '"'

def escapeText (t : Text) : Text := if needsQuoting t then .ofString (Text.quote t) else t

def LogValue.plain : LogValue → String
  | .absent => "<nil>"
  | .bool b => toString b
  | .int n => toString n
  | .float x => x.general
  | .string t => t.toString
  | .shown s => s
  | .time ms => Calendar.full ms
  | .level l => (l.name.toOption).getD ""
  | .pairs _ => "map[]"

def LogValue.text (forTerminal : Bool) : LogValue → Except LogFault Text
  | .absent => .ok (.ofString "nil")
  | .bool b => .ok (.ofString (toString b))
  | .int n => .ok (.ofString (toString n))
  | .float x => .ok (.ofString (x.fixed 3))
  | .string t => .ok (escapeText t)
  | .shown s => .ok (escapeText (.ofString s))
  | .time ms => .ok (.ofString (if forTerminal then Calendar.short ms else Calendar.full ms))
  | .level l => l.name.map fun s => escapeText (.ofString s)
  | .pairs entries => .ok (escapeText (.ofString
      ("map[" ++ " ".intercalate (entries.map fun (k, v) => k ++ ":" ++ v.plain) ++ "]")))

def paint : Option String → Text → Text
  | none, t => t
  | some code, t => .ofString ("\x1b[" ++ code ++ "m") ++ t ++ .ofString "\x1b[0m"

def pairText (colour : Option String) (forTerminal : Bool) (k v : LogValue) :
    Except LogFault Text := do
  let value ← v.text forTerminal
  match k with
  | .string key => return paint colour key ++ .char '=' :: value
  | k => return paint colour errorKey ++ .char '=' :: (← k.text forTerminal)

/-- The keys and values of a context of `length` values, with a blank between pairs. -/
def pairTexts (colour : Option String) (forTerminal : Bool) (length : Nat) :
    List LogValue → Except LogFault (List Text)
  | [] => .ok []
  | [_] => .error (.oddContext length)
  | k :: v :: rest => do
    let pair ← pairText colour forTerminal k v
    return pair :: (← pairTexts colour forTerminal length rest)

def contextLine (colour : Option String) (forTerminal : Bool) (context : List LogValue) :
    Except LogFault Text := do
  let pairs ← pairTexts colour forTerminal context.length context
  return [Glyph.char ' '].intercalate pairs ++ [.char '\n']

structure LogRecord where
  time : Int
  level : LogLevel
  message : String
  context : List LogValue
  caller : Option String
  deriving Repr, Inhabited

inductive LogFormat where
  /-- For people; `coloured` by level, with the caller if `origins`. -/
  | terminal (coloured origins : Bool)
  | pairs
  deriving DecidableEq, Repr, Inhabited

def messageWidth : Nat := 40

namespace LogRecord

def callerText (r : LogRecord) : String := r.caller.getD "%!v(NOFUNC)"

def terminalLine (r : LogRecord) (coloured origins : Bool) : Except LogFault Text := do
  let level ← r.level.aligned
  let colour := if coloured then some r.level.colour else none
  let origin := if origins then "|" ++ r.callerText else ""
  let gap := if r.context.isEmpty then 0 else messageWidth - r.message.utf8ByteSize
  let line ← contextLine colour true r.context
  return paint colour (.ofString level) ++ .ofString (" [" ++ Calendar.short r.time ++ origin ++ "] " ++
    r.message ++ " " ++ "".pushn ' ' gap) ++ line

def pairsLine (r : LogRecord) : Except LogFault Text :=
  contextLine none false ([.string (.ofString "t"), .time r.time, .string (.ofString "lvl"),
    .level r.level, .string (.ofString "msg"), .string (.ofString r.message),
    .string (.ofString "caller"), .string (.ofString r.callerText)] ++ r.context)

def line (r : LogRecord) : LogFormat → Except LogFault Text
  | .terminal coloured origins => r.terminalLine coloured origins
  | .pairs => r.pairsLine

end LogRecord

end WatScript
