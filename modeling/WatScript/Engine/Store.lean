import WatScript.Digest
import WatScript.Fault.Kind

/-!
# Stores and text caches

A table keeps the latest text under a digest. A store is a table that outlives engines and can be
closed; reads and writes of a closed store fail.
-/

namespace WatScript

abbrev TextTable := List (Digest × String)

def TextTable.put (t : TextTable) (k : Digest) (text : String) : TextTable :=
  (k, text) :: t.filter (·.1 != k)

def TextTable.get? (t : TextTable) (k : Digest) : Option String := t.lookup k

structure Store where
  texts : TextTable
  isClosed : Bool
  deriving DecidableEq, Repr, Inhabited

namespace Store

def empty : Store := ⟨[], false⟩

def get? (s : Store) (k : Digest) : Option String := if s.isClosed then none else s.texts.get? k

def put (s : Store) (k : Digest) (text : String) : Store :=
  if s.isClosed then s else { s with texts := s.texts.put k text }

def closedTwice : Diagnostic := .plain "leveldb: closed"

def close (s : Store) : Store × Option Diagnostic :=
  ({ s with isClosed := true }, if s.isClosed then some closedTwice else none)

def reopen (s : Store) : Store := { s with isClosed := false }

end Store

end WatScript
