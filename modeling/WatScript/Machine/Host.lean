import WatScript.Fault.Kind

/-!
# Hosts

A host is a function outside the module. It finds the calls and the log of the run that calls it, and so
may answer one call in the light of all that came before: a host that counts, or that reads from an input,
is a function of that history. Besides results or a failure its reply gives the log as the host leaves it,
and may cancel the run.
-/

namespace WatScript

structure HostCall where
  name : String
  args : List Int32
  deriving DecidableEq, Repr, Inhabited

def HostCall.text (c : HostCall) : String :=
  c.name ++ "(" ++ ",".intercalate (c.args.map fun v => toString v.toInt) ++ ")"

/-- What happened in a run so far: the calls of hosts and the log, newest first. -/
structure History where
  calls : List HostCall
  logs : List Int32

structure Reply where
  results : Except Diagnostic (List Int32)
  /-- The log of the run after the call, newest first. -/
  logs : List Int32
  cancels : Bool

abbrev Host := History → List Int32 → Reply

/-- The reply of a host that leaves the log as it is. -/
def History.reply (history : History) (results : Except Diagnostic (List Int32)) : Reply :=
  ⟨results, history.logs, false⟩

/-- A host that looks at nothing but its arguments. -/
def Host.ofFunction (f : List Int32 → Except Diagnostic (List Int32)) : Host :=
  fun history args => history.reply (f args)

end WatScript
