import WatScript.Machine.Run
import WatScript.Parsing.Resolve

/-!
# Engine settings
-/

namespace WatScript

structure Config where
  maxDepth : Int64
  stepLimit : Nat
  memoryPages : Int
  cacheSize : Int
  cacheBytes : Int
  cacheDir : String
  verify : Bool
  deriving DecidableEq, Repr, Inhabited

namespace Config

def standard : Config := ⟨defaultLimit, defaultStepLimit, 1, 128, 33554432, "", true⟩

def zero : Config := ⟨0, 0, 0, 0, 0, "", false⟩

/-- The settings an engine uses: sizes that are not positive become the standard ones. -/
def effective (c : Config) : Config :=
  { c with
    cacheSize := if c.cacheSize ≤ 0 then standard.cacheSize else c.cacheSize
    cacheBytes := if c.cacheBytes ≤ 0 then standard.cacheBytes else c.cacheBytes
    memoryPages := if c.memoryPages ≤ 0 then standard.memoryPages else c.memoryPages }

end Config

end WatScript
