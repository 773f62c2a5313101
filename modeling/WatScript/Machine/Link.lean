import WatScript.Fault.Running
import WatScript.Wat.Op

/-!
# Linking

Before a body runs, every block, loop and if is matched with its end, and every if with its else. An
else is matched with the end it shares with its if.
-/

namespace WatScript

structure Span where
  stop : Nat
  alt : Option Nat
  deriving DecidableEq, Repr, Inhabited

structure OpenFrame where
  start : Nat
  op : Op
  alt : Option Nat
  deriving DecidableEq, Repr, Inhabited

/-- The spans of a body from position `pc` on, each with the position it belongs to. Open frames are
listed innermost first. -/
def spansFrom : Nat → List OpenFrame → List Instr → Except Trap (List (Nat × Span))
  | _, [], [] => .ok []
  | _, _ :: _, [] => .error .malformed
  | pc, frames, i :: rest =>
    match i.op with
    | .block | .loop | .ifThen => spansFrom (pc + 1) (⟨pc, i.op, none⟩ :: frames) rest
    | .elseArm =>
      match frames with
      | ⟨start, .ifThen, none⟩ :: outer =>
        spansFrom (pc + 1) (⟨start, .ifThen, some pc⟩ :: outer) rest
      | _ => .error .malformed
    | .endFrame =>
      match frames with
      | [] => .error .malformed
      | f :: outer => do
        let spans ← spansFrom (pc + 1) outer rest
        let elseSpan := (f.alt.map fun e => (e, (⟨pc, none⟩ : Span))).toList
        return (f.start, ⟨pc, f.alt⟩) :: elseSpan ++ spans
    | _ => spansFrom (pc + 1) frames rest

abbrev Links := Array (Option Span)

def link (code : List Instr) : Except Trap Links := do
  let spans ← spansFrom 0 [] code
  return spans.foldl (fun links (pc, span) => links.setIfInBounds pc (some span))
    (Array.replicate code.length none)

def Links.at? (links : Links) (pc : Nat) : Option Span := (links[pc]?).join

end WatScript
