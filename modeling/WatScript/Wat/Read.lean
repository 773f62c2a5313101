import WatScript.Text.Blank
import WatScript.Text.Quoted
import WatScript.Wat.Op

/-!
# Reading instruction text

One instruction per line: a mnemonic and, for operations that take one, an immediate. Blank lines and
comments after `;;` are ignored.
-/

namespace WatScript

inductive LineProblem where
  | unknownInstruction
  | tooManyOperands
  | unexpectedOperand
  deriving DecidableEq, Repr, Inhabited

def LineProblem.phrase : LineProblem → String
  | unknownInstruction => "unknown instruction"
  | tooManyOperands => "too many operands"
  | unexpectedOperand => "unexpected operand"

/-- A line that can not be read, counted from one, without its comment. -/
structure WatFault where
  line : Nat
  text : Text
  problem : LineProblem
  deriving DecidableEq, Repr, Inhabited

def WatFault.message (f : WatFault) : String :=
  "wat: line " ++ toString f.line ++ ": " ++ f.problem.phrase ++ ": " ++ Text.quote f.text

def cutComment : Text → Text
  | .char ';' :: .char ';' :: _ => []
  | g :: rest => g :: cutComment rest
  | [] => []

theorem cutComment_append {front : Text} (h : ∀ g ∈ front, g ≠ .char ';') (rest : Text) :
    cutComment (front ++ rest) = front ++ cutComment rest := by
  induction front with
  | nil => rfl
  | cons g front ih =>
    obtain ⟨hg, h⟩ := List.forall_mem_cons.1 h
    rw [List.cons_append, cutComment, ih h]
    · rfl
    · intro _ hsemi _
      exact hg hsemi

/-- The instruction with a mnemonic and operands, or what is wrong with them. -/
def readFields (mnemonic : Text) (operands : List Text) : Except LineProblem Instr :=
  match Op.find? mnemonic.toString with
  | none => .error .unknownInstruction
  | some op =>
    match operands with
    | [] => .ok (.plain op)
    | [imm] => if op.takesImmediate then .ok ⟨op, imm⟩ else .error .unexpectedOperand
    | _ => .error .tooManyOperands

def readLines : Nat → List Text → Except WatFault (List Instr)
  | _, [] => .ok []
  | n, line :: rest =>
    let line := cutComment line
    match Text.fields line with
    | [] => readLines (n + 1) rest
    | mnemonic :: operands =>
      match readFields mnemonic operands with
      | .error problem => .error ⟨n, line, problem⟩
      | .ok i => do
        let is ← readLines (n + 1) rest
        return i :: is

def readCode (text : Text) : Except WatFault (List Instr) :=
  readLines 1 (Text.split (· == .char '\n') text)

end WatScript
