/-!
# Runs of characters

A class of characters is given by its runs in increasing order: for each the number of other characters
before it and its size, one after the other in one list.
-/

namespace WatScript.Text

def inRuns : List Nat → Nat → Bool
  | skipped :: size :: rest, n =>
    if n < skipped + size then skipped ≤ n else inRuns rest (n - (skipped + size))
  | _, _ => false

def runsAt? {α : Type} (classes : List (α × List Nat)) (n : Nat) : Option α :=
  (classes.find? fun (_, runs) => inRuns runs n).map (·.1)

end WatScript.Text
