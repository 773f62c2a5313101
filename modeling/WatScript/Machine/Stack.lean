import WatScript.Fault.Running

/-!
# Value stack

The stack of a run. Popping leaves the popped cell where it is, above the top; a branch sets the height
of the stack back to what it was when its frame was entered, even if the stack is lower by then, and so
uncovers cells that were popped. The stack is therefore kept with the cells above it, as a sequence of
cells with a point in it: `live` below the point, `stale` above.
-/

namespace WatScript

/-- The values on the stack, top first, and the cells above the top, nearest first. -/
structure Stack where
  live : List Int32
  stale : List Int32
  deriving DecidableEq, Repr, Inhabited

namespace Stack

def height (s : Stack) : Nat := s.live.length

def cells (s : Stack) : List Int32 := s.live.reverse ++ s.stale

def push (s : Stack) (v : Int32) : Stack := ⟨v :: s.live, s.stale.tail⟩

def pop (s : Stack) : Except Trap (Int32 × Stack) :=
  match s.live with
  | [] => .error .stackUnderflow
  | v :: live => .ok (v, ⟨live, v :: s.stale⟩)

def pop2 (s : Stack) : Except Trap (Int32 × Int32 × Stack) := do
  let (b, s) ← s.pop
  let (a, s) ← s.pop
  return (a, b, s)

def popMany (s : Stack) (n : Nat) : Except Trap (List Int32 × Stack) :=
  if s.height < n then .error .stackUnderflow
  else
    let args := (s.live.take n).reverse
    .ok (args, ⟨s.live.drop n, args ++ s.stale⟩)

def pushAll (s : Stack) (vs : List Int32) : Stack := vs.foldl push s

def lower : Nat → Stack → Stack
  | n + 1, ⟨v :: live, stale⟩ => lower n ⟨live, v :: stale⟩
  | _, s => s

def raise : Nat → Stack → Stack
  | n + 1, ⟨live, v :: stale⟩ => raise n ⟨v :: live, stale⟩
  | _, s => s

def setHeight (s : Stack) (h : Nat) : Stack :=
  if h ≤ s.height then lower (s.height - h) s else raise (h - s.height) s

end Stack

end WatScript
