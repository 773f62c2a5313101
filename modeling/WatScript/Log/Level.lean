/-!
# Log levels

Levels are numbered from the most to the least urgent. A number outside the list has no name; asking
for it is a fault.
-/

namespace WatScript

inductive LogFault where
  | badLevel
  | oddContext (length : Nat)
  deriving DecidableEq, Repr, Inhabited

def LogFault.message : LogFault → String
  | badLevel => "bad level"
  | oddContext n =>
    "runtime error: index out of range [" ++ toString n ++ "] with length " ++ toString n

structure LogLevel where
  code : Int
  deriving DecidableEq, Repr, Inhabited

namespace LogLevel

def crit : LogLevel := ⟨0⟩

def error : LogLevel := ⟨1⟩

def warn : LogLevel := ⟨2⟩

def info : LogLevel := ⟨3⟩

def debug : LogLevel := ⟨4⟩

def trace : LogLevel := ⟨5⟩

def aligned (l : LogLevel) : Except LogFault String :=
  match l.code with
  | 0 => .ok "CRIT "
  | 1 => .ok "ERROR"
  | 2 => .ok "WARN "
  | 3 => .ok "INFO "
  | 4 => .ok "DEBUG"
  | 5 => .ok "TRACE"
  | _ => .error .badLevel

def name (l : LogLevel) : Except LogFault String :=
  match l.code with
  | 0 => .ok "crit"
  | 1 => .ok "eror"
  | 2 => .ok "warn"
  | 3 => .ok "info"
  | 4 => .ok "dbug"
  | 5 => .ok "trce"
  | _ => .error .badLevel

def find? : String → Option LogLevel
  | "trace" | "trce" => some trace
  | "debug" | "dbug" => some debug
  | "info" => some info
  | "warn" => some warn
  | "error" | "eror" => some error
  | "crit" => some crit
  | _ => none

def fallback : LogLevel := debug

def unknownName (name : String) : String := "unknown level: " ++ name

def colour (l : LogLevel) : String :=
  match l.code with
  | 0 => "35"
  | 1 => "31"
  | 2 => "33"
  | 3 => "32"
  | 4 => "36"
  | _ => "34"

end LogLevel

end WatScript
