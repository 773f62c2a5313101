import WatScript.Atom.Basic
import WatScript.Fault.Reading
import WatScript.Lexicon.Operator

/-!
# Operator splits

A run is split once, at its loosest binding operator, into an operation on two items that hold what
stands on either side. Operators directly after another operator are passed over, since they have no
left operand. Among equal priorities a left-associative operator wins over an earlier one and any other
leaves the earlier one in place, so `a-b-c` groups as `(a-b)-c` and `a**b**c` as `a**(b**c)`.
-/

namespace WatScript

/-- A candidate for the split: its position and its entry in the operator table. -/
structure SplitPoint where
  at_ : Nat
  op : Operator
  deriving DecidableEq, Repr, Inhabited

def SplitPoint.better (best : Option SplitPoint) (next : SplitPoint) : SplitPoint :=
  match best with
  | none => next
  | some b =>
    if next.op.priority < b.op.priority then next
    else if next.op.priority == b.op.priority && next.op.assoc == .left then next
    else b

/-- Looks for the split from position `i` on. `afterOperator` says that the atom before is an
operator. -/
def splitPointFrom :
    Nat → Bool → Option SplitPoint → List Atom → Except ReadFault (Option SplitPoint)
  | _, _, best, [] => .ok best
  | i, afterOperator, best, .operator _ lexeme :: rest =>
    if afterOperator then splitPointFrom (i + 1) true best rest
    else
      match Operator.find? lexeme with
      | none => .error .unknownOperator
      | some op => splitPointFrom (i + 1) true (some (SplitPoint.better best ⟨i, op⟩)) rest
  | i, _, best, _ :: rest => splitPointFrom (i + 1) false best rest

def splitPoint? (run : List Atom) : Except ReadFault (Option SplitPoint) :=
  splitPointFrom 0 false none run

/-- An operator applied to what stands on its two sides, both unread. -/
def operation (lv : Level) (op : Atom) (left right : List Atom) : Atom :=
  .call lv op [] false true [.item lv left false [], .item lv right false []]

/-- Performs one operator split. A run without a candidate stays as it is. -/
def reduce (lv : Level) (run : List Atom) : Except ReadFault (List Atom) := do
  match ← splitPoint? run with
  | none => return run
  | some p =>
    match run.drop p.at_ with
    | op :: right => return [operation lv op (run.take p.at_) right]
    | [] => return run

end WatScript
