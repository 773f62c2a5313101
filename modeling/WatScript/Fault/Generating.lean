import WatScript.Fault.Kind

/-!
# Failures of code generation

A tree that was read without failure may still have no instructions.
-/

namespace WatScript

inductive GenFault where
  /-- A word that starts with a digit but is no 32 bit literal. -/
  | invalidNumber
  /-- An operator without instructions, or without a left operand where it needs one. -/
  | invalidOperation
  /-- The target of an assignment is neither a local nor a memory cell. -/
  | invalidTarget
  /-- A construct that can be read but has no instructions. -/
  | unsupported
  | outsideLoop
  /-- A place that needs exactly one value does not hold one, or a body leaves a value behind. -/
  | notOneValue
  | unexpectedTree
  deriving DecidableEq, Repr, Inhabited

namespace GenFault

def kind : GenFault → Kind
  | notOneValue => .shape
  | unexpectedTree => .internal
  | _ => .generate

def message : GenFault → String
  | invalidNumber => "codegen: invalid number literal"
  | invalidOperation => "codegen: operator can not be lowered"
  | invalidTarget => "codegen: invalid assignment target"
  | unsupported => "codegen: construct not supported"
  | outsideLoop => "codegen: break or continue outside loop"
  | notOneValue => "codegen: expression does not reduce to one value"
  | unexpectedTree => "codegen: unexpected node configuration"

def diagnostic (f : GenFault) : Diagnostic := ⟨f.kind, f.message⟩

end GenFault

end WatScript
