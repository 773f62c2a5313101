import WatScript.Wat.Op

/-!
# Instruction text

Instructions are written one per line, with the content of frames indented. An `end` without a frame
stays at the margin, and an `else` stands one step to the left of the arms.
-/

namespace WatScript

def instrLine (indent : Nat) (i : Instr) : Text :=
  List.replicate (2 * indent) (.char ' ') ++ i.text ++ [.char '\n']

def formatLines : Nat → List Instr → List Text
  | _, [] => []
  | level, i :: rest =>
    match i.op with
    | .endFrame => instrLine (level - 1) i :: formatLines (level - 1) rest
    | .elseArm => instrLine (level - 1) i :: formatLines level rest
    | _ =>
      instrLine level i :: formatLines (if i.op.opensFrame then level + 1 else level) rest

def formatCode (code : List Instr) : Text := (formatLines 0 code).flatten

end WatScript
