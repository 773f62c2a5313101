import WatScript.Text.Numeral
import WatScript.Text.Quoted
import WatScript.Wat.Op

/-!
# Structural verification

A function body is checked for structural faults:

* every block, loop and if is closed by an end;
* an else stands at most once, directly inside an if;
* a branch names a frame in scope, by label or by distance;
* immediates are well formed.

All faults are reported, in the order of the instructions, and the frames left open at the end from
the innermost outwards.
-/

namespace WatScript

inductive VerifyProblem where
  | elseOutsideIf
  | duplicateElse
  | unbalancedEnd
  | notClosed (op : Op) (label : Text)
  | unknownLabel (label : Text)
  | invalidConstant (imm : Text)
  | missingName (op : Op)
  deriving DecidableEq, Repr, Inhabited

namespace VerifyProblem

def phrase : VerifyProblem → String
  | elseOutsideIf => "else outside if"
  | duplicateElse => "duplicate else"
  | unbalancedEnd => "unbalanced end"
  | notClosed op label => op.name ++ " " ++ label.toString ++ " not closed"
  | unknownLabel label => "branch to unknown label " ++ Text.quote label
  | invalidConstant imm => "invalid i32 constant " ++ Text.quote imm
  | missingName op => op.name ++ " needs a $name operand"

def isNesting : VerifyProblem → Bool
  | elseOutsideIf | duplicateElse | unbalancedEnd | notClosed .. => true
  | _ => false

end VerifyProblem

/-- A fault and the instruction it was found at; the end of the body counts as one. -/
structure VerifyFault where
  offset : Nat
  problem : VerifyProblem
  deriving DecidableEq, Repr, Inhabited

def VerifyFault.message (f : VerifyFault) : String :=
  "verify error at offset " ++ toString f.offset ++ ": " ++ f.problem.phrase

structure VerifyFrame where
  op : Op
  label : Text
  hasElse : Bool
  deriving DecidableEq, Repr, Inhabited

/-- A branch target in scope: a distance up to the function body, or the label of an open frame. -/
def labelInScope (frames : List VerifyFrame) (label : Text) : Bool :=
  match Numeral.int64? label.toChars with
  | some n => 0 ≤ n && n ≤ (frames.length : Int)
  | none => !label.isEmpty && frames.any (·.label == label)

def isName : Text → Bool
  | .char '$' :: _ :: _ => true
  | _ => false

/-- What one instruction does to the open frames, innermost first, and the fault it shows. -/
def verifyInstr (frames : List VerifyFrame) (i : Instr) :
    List VerifyFrame × Option VerifyProblem :=
  match i.op with
  | .block | .loop | .ifThen => (⟨i.op, i.imm, false⟩ :: frames, none)
  | .elseArm =>
    match frames with
    | f :: outer =>
      -- a second `else` is a fault and leaves the frame as it is
      if f.op == .ifThen then
        ({ f with hasElse := true } :: outer, if f.hasElse then some .duplicateElse else none)
      else (frames, some .elseOutsideIf)
    | [] => (frames, some .elseOutsideIf)
  | .endFrame =>
    match frames with
    | _ :: outer => (outer, none)
    | [] => (frames, some .unbalancedEnd)
  | .br | .brIf =>
    (frames, if labelInScope frames i.imm then none else some (.unknownLabel i.imm))
  | .const =>
    (frames, if (Numeral.int32? i.imm.toChars).isSome then none else some (.invalidConstant i.imm))
  | .localGet | .localSet | .localTee | .call =>
    (frames, if isName i.imm then none else some (.missingName i.op))
  | _ => (frames, none)

def verifyFrom : Nat → List VerifyFrame → List Instr → List VerifyFault
  | offset, frames, [] => frames.map fun f => ⟨offset, .notClosed f.op f.label⟩
  | offset, frames, i :: rest =>
    let (frames, problem) := verifyInstr frames i
    (problem.map (VerifyFault.mk offset)).toList ++ verifyFrom (offset + 1) frames rest

def verify (code : List Instr) : List VerifyFault := verifyFrom 0 [] code

end WatScript
