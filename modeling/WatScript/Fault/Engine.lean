import WatScript.Fault.Generating
import WatScript.Fault.Reading
import WatScript.Fault.Running
import WatScript.Wat.Verify

/-!
# Failures of an engine

What can go wrong from a source text to a value.
-/

namespace WatScript

inductive EngineFault where
  | reading (f : ReadFault)
  | generating (f : GenFault)
  | rejected (f : VerifyFault)
  | unknownHost (name : String)
  /-- More arguments than the entry function has parameters. -/
  | tooManyArguments
  | running (t : Trap)
  deriving DecidableEq, Repr, Inhabited

namespace EngineFault

def diagnostic : EngineFault → Diagnostic
  | reading f => f.diagnostic
  | generating f => f.diagnostic
  | rejected f => ⟨.internal, "engine: generated code failed verification: " ++ f.message⟩
  | unknownHost name => ⟨.generate, "engine: call to unknown host function: " ++ name⟩
  | tooManyArguments => ⟨.runtime, "engine: too many arguments"⟩
  | running t => t.diagnostic

end EngineFault

end WatScript
