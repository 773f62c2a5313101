import WatScript.Text.Blank
import WatScript.Text.Quoted
import WatScript.Wat.Format

/-!
# Modules

A module with one exported function around a body: imported hosts, linear memory, parameters, an
optional result and locals. All values are 32 bit integers.
-/

namespace WatScript

structure Import where
  module : String
  name : String
  params : Int
  results : Int
  deriving DecidableEq, Repr, Inhabited

structure Module where
  func : String
  params : List String
  result : Bool
  locals : List String
  imports : List Import
  pages : Int
  body : List Instr
  deriving DecidableEq, Repr, Inhabited

namespace Module

/-- A body as it is usually tried: function `main` with parameters `a` and `b`, a result and one page
of memory. -/
def trial (body : List Instr) : Module := ⟨"main", ["a", "b"], true, [], [], 1, body⟩

def findImport? (m : Module) (name : String) : Option Import := m.imports.find? (·.name == name)

/-- A list of value types after a keyword, nothing for an empty list. -/
def typeList (keyword : String) (n : Int) : String :=
  if n ≤ 0 then ""
  else " (" ++ keyword ++ String.join (List.replicate n.toNat " i32") ++ ")"

def importLine (i : Import) : String :=
  "  (import " ++ Text.quoteString i.module ++ " " ++ Text.quoteString i.name ++ " (func " ++
    (Instr.ident i.name).toString ++ typeList "param" i.params ++ typeList "result" i.results ++ "))\n"

def bodyLines (body : List Instr) : List String :=
  let lines := Text.split (· == .char '\n') (Text.trimEnd (· == .char '\n') (formatCode body))
  (lines.filter (!·.isEmpty)).map fun line => "    " ++ Text.toString line ++ "\n"

def text (m : Module) : String :=
  "(module\n" ++ String.join (m.imports.map importLine) ++
    (if 0 < m.pages then "  (memory (export \"memory\") " ++ toString m.pages ++ ")\n" else "") ++
    "  (func " ++ (Instr.ident m.func).toString ++ " (export " ++ Text.quoteString m.func ++ ")" ++
    String.join (m.params.map fun p => " (param " ++ (Instr.ident p).toString ++ " i32)") ++
    (if m.result then " (result i32)" else "") ++ "\n" ++
    String.join (m.locals.map fun l => "    (local " ++ (Instr.ident l).toString ++ " i32)\n") ++
    String.join (bodyLines m.body) ++ "  )\n)\n"

end Module

end WatScript
