import WatScript.Fault.Kind

/-!
# Failures of a run

Running a body ends early with a trap. A trap is raised by an instruction, by the bounds of the run
(its step limit, its cancellation), or by a host.
-/

namespace WatScript

inductive Trap where
  | stepLimit
  | divisionByZero
  | overflow
  | unreachable
  | stackUnderflow
  | unknownLabel
  | unknownFunction
  | unknownLocal
  | unknownInstruction
  /-- Frames do not match, or an immediate can not be read. -/
  | malformed
  | argumentCount
  /-- A host returned another number of results than its import declares. -/
  | hostResults
  | outOfMemory
  | invalidAddress
  | canceled
  | host (d : Diagnostic)
  deriving DecidableEq, Repr, Inhabited

namespace Trap

def message : Trap → String
  | stepLimit => "vm: step limit exceeded"
  | divisionByZero => "vm: integer divide by zero"
  | overflow => "vm: integer overflow"
  | unreachable => "vm: unreachable executed"
  | stackUnderflow => "vm: stack underflow"
  | unknownLabel => "vm: unknown label"
  | unknownFunction => "vm: unknown function"
  | unknownLocal => "vm: unknown local"
  | unknownInstruction => "vm: unknown instruction"
  | malformed => "vm: malformed function body"
  | argumentCount => "vm: argument count mismatch"
  | hostResults => "vm: host function result count mismatch"
  | outOfMemory => "vm: out of memory"
  | invalidAddress => "vm: invalid memory address"
  | canceled => "context canceled"
  | host d => d.text

def kind : Trap → Kind
  | canceled => .unknown
  | host d => d.kind
  | _ => .runtime

def diagnostic (t : Trap) : Diagnostic := ⟨t.kind, t.message⟩

end Trap

end WatScript
