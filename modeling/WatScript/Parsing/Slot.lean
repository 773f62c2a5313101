import WatScript.Lexing.Basic

/-!
# Argument slots

An argument run is grouped and cut at its commas into one unread item per slot. Every comma closes the
slot before it, empty or not; what follows the last comma is a slot only if it is not empty. So nothing
has no slots, `,` and `a,` have one, and `a,,b` has three.
-/

namespace WatScript

/-- Cuts a tokenized run at commas; `held` is the open slot, last atom first. -/
def slotsFrom (lv : Level) : List Atom → List Atom → List Atom
  | [], [] => []
  | held, [] => [.item lv held.reverse false []]
  | held, .unknown l c :: rest =>
    if c == ',' then .item lv held.reverse false [] :: slotsFrom lv [] rest
    else slotsFrom lv (.unknown l c :: held) rest
  | held, a :: rest => slotsFrom lv (a :: held) rest

def slots (lv : Level) (run : List Atom) : List Atom := slotsFrom lv [] run

/-- Moves an argument run to a level, groups it and cuts it into slots. -/
def splitArgs (lv : Level) (run : List Atom) : Except ReadFault (List Atom) := do
  let atoms ← group lv (relevel lv run)
  return slots lv atoms

end WatScript
