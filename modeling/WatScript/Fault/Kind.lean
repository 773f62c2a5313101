/-!
# Kinds of failure

Every failure of the pipeline belongs to a kind, so that a caller can tell a malformed program from a
fault of the compiler without looking at the message. A `Diagnostic` is a failure as a caller sees it:
a kind and a text, possibly with context in front.
-/

namespace WatScript

inductive Kind where
  | unknown
  /-- Unterminated quotations and block comments, unknown symbols. -/
  | lexical
  | structural
  | grammar
  | operator
  | shape
  | generate
  | runtime
  | internal
  | unlisted (code : Nat)
  deriving DecidableEq, Repr, Inhabited

namespace Kind

def ofCode : Nat → Kind
  | 0 => unknown
  | 1 => lexical
  | 2 => structural
  | 3 => grammar
  | 4 => operator
  | 5 => shape
  | 6 => generate
  | 7 => runtime
  | 8 => internal
  | n => unlisted n

def name : Kind → String
  | unknown => "unknown"
  | lexical => "lexical"
  | structural => "structural"
  | grammar => "grammar"
  | operator => "operator"
  | shape => "shape"
  | generate => "generate"
  | runtime => "runtime"
  | internal => "internal"
  | unlisted _ => "kind(?)"

def isInternal (k : Kind) : Bool := k == internal

/-- The failure was caused by the program being compiled or run. -/
def isUser : Kind → Bool
  | unknown | internal => false
  | _ => true

end Kind

/-- A failure as reported to a caller. -/
structure Diagnostic where
  kind : Kind
  text : String
  deriving DecidableEq, Repr, Inhabited

namespace Diagnostic

def plain (text : String) : Diagnostic := ⟨.unknown, text⟩

def wrap (context : String) (d : Diagnostic) : Diagnostic :=
  { d with text := context ++ ": " ++ d.text }

end Diagnostic

end WatScript
