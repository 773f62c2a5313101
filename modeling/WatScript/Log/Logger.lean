import WatScript.Log.Format

/-!
# Loggers

Loggers form a tree. A child puts its own context in front of every record and, until it gets a handler
of its own, passes records on to whatever handler its parent has at that time. Handlers filter records
and pass them on; sinks write them.
-/

namespace WatScript

inductive LogHandler where
  | discard
  | sink (name : String) (format : LogFormat)
  | upTo (level : LogLevel) (next : LogHandler)
  | startingWith (start : String) (next : LogHandler)
  | all (handlers : List LogHandler)
  /-- Passes on to the handler that a logger has at that time. -/
  | ofLogger (index : Nat)
  deriving Inhabited

structure Logger where
  context : List LogValue
  handler : LogHandler
  deriving Inhabited

def oddMark : List LogValue :=
  [.absent, .string errorKey,
    .string (.ofString "Normalized odd number of arguments by adding nil")]

/-- The context that arguments stand for: a single table stands for its entries, and an odd number of
values is filled up and marked. -/
def normalizeContext (args : List LogValue) : List LogValue :=
  let values := match args with
    | [.pairs entries] => entries.flatMap fun (k, v) => [.string (.ofString k), v]
    | args => args
  if values.length % 2 == 0 then values else values ++ oddMark

abbrev Loggers := List Logger

namespace Loggers

def start : Loggers := [⟨[], .discard⟩]

def get (ls : Loggers) (i : Nat) : Logger := ls.getD i ⟨[], .discard⟩

/-- Adds a child of a logger; its number is the number of loggers before. -/
def addChild (ls : Loggers) (parent : Nat) (args : List LogValue) : Loggers :=
  ls ++ [⟨(ls.get parent).context ++ normalizeContext args, .ofLogger parent⟩]

def setHandler (ls : Loggers) (i : Nat) (h : LogHandler) : Loggers :=
  ls.modify i fun l => { l with handler := h }

mutual

/-- What a handler writes for a record, following at most `hops` loggers. -/
def handle (ls : Loggers) (hops : Nat) (r : LogRecord) : LogHandler → Except LogFault Text
  | .discard => .ok []
  | .sink name format => do
    return .ofString (name ++ ": ") ++ (← r.line format)
  | .upTo level next => if r.level.code ≤ level.code then handle ls hops r next else .ok []
  | .startingWith start next => if start.isPrefixOf r.message then handle ls hops r next else .ok []
  | .all handlers => handleAll ls hops r handlers
  | .ofLogger i =>
    match hops with
    | 0 => .ok []
    | hops + 1 => handle ls hops r (ls.get i).handler
termination_by h => (hops, sizeOf h)

def handleAll (ls : Loggers) (hops : Nat) (r : LogRecord) : List LogHandler → Except LogFault Text
  | [] => .ok []
  | h :: rest => do
    let first ← handle ls hops r h
    return first ++ (← handleAll ls hops r rest)
termination_by hs => (hops, sizeOf hs)

end

/-- The record that a logger makes: its own context stands in front of the arguments. -/
def record (ls : Loggers) (i : Nat) (level : LogLevel) (time : Int) (message : String)
    (args : List LogValue) : LogRecord :=
  ⟨time, level, message, (ls.get i).context ++ normalizeContext args, none⟩

def log (ls : Loggers) (i : Nat) (level : LogLevel) (time : Int) (message : String)
    (args : List LogValue) : Except LogFault Text :=
  handle ls ls.length (ls.record i level time message args) (ls.get i).handler

end Loggers

end WatScript
