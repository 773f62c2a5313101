import WatScript.Service.Handler

/-!
# Settings

What a command line works with: the settings of the engine and those of the service, and their written
form.
-/

namespace WatScript

structure Settings where
  engine : Config
  service : ServiceSettings
  deriving DecidableEq, Repr, Inhabited

namespace Settings

def standard : Settings := ⟨.standard, .standard⟩

def line (key value : String) : String := key ++ " = " ++ value ++ "\n"

def truth (b : Bool) : String := if b then "true" else "false"

def texts (xs : List String) : String := "[" ++ ", ".intercalate (xs.map Text.quoteString) ++ "]"

def engineText (c : Config) : String :=
  "[Engine]\n" ++ line "MaxDepth" (toString c.maxDepth.toInt) ++ line "StepLimit" (toString c.stepLimit) ++
    line "MemoryPages" (toString c.memoryPages) ++ line "CacheSize" (toString c.cacheSize) ++
    line "CacheBytes" (toString c.cacheBytes) ++ line "CacheDir" (Text.quoteString c.cacheDir) ++
    line "Verify" (truth c.verify)

def serviceText (s : ServiceSettings) : String :=
  "[HTTP]\n" ++ line "Addr" (Text.quoteString s.addr) ++ line "Rate" s.rate.scientific ++
    line "Burst" (toString s.burst) ++ line "Origins" (texts s.origins) ++
    line "MaxSource" (toString s.maxSource)

def text (s : Settings) : String := engineText s.engine ++ "\n" ++ serviceText s.service

end Settings

end WatScript
