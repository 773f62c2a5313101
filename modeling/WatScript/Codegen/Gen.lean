import WatScript.Fault.Generating
import WatScript.Wat.Op

/-!
# Emission

Generating code emits instructions in order and may fail on the way; what was emitted before the
failure stays. `Gen` keeps both: the instructions and how generation ended.
-/

namespace WatScript

/-- Instructions that were emitted, and the result or the failure after them. -/
structure Gen (α : Type) where
  code : List Instr
  result : Except GenFault α

namespace Gen

def pure {α : Type} (a : α) : Gen α := ⟨[], .ok a⟩

/-- Emits what `m` emits and, unless that failed, what follows. -/
def bind {α β : Type} (m : Gen α) (f : α → Gen β) : Gen β :=
  match m.result with
  | .ok a => ⟨m.code ++ (f a).code, (f a).result⟩
  | .error e => ⟨m.code, .error e⟩

instance : Monad Gen where
  pure := Gen.pure
  bind := Gen.bind

def emit (i : Instr) : Gen Unit := ⟨[i], .ok ()⟩

def op (o : Op) : Gen Unit := emit (.plain o)

def fail {α : Type} (e : GenFault) : Gen α := ⟨[], .error e⟩

def require (c : Bool) (e : GenFault) : Gen Unit := if c then pure () else fail e

def lift {α : Type} (r : Except GenFault α) : Gen α := ⟨[], r⟩

def toExcept {α : Type} (g : Gen α) : Except GenFault (List Instr) :=
  match g.result with
  | .ok _ => .ok g.code
  | .error e => .error e

end Gen

end WatScript
