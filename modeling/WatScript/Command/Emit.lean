import WatScript.Atom.Listing
import WatScript.Atom.Outline
import WatScript.Command.Table
import WatScript.Engine.Basic

/-!
# Output stages

What compiling a source text can show: its tokens, its tree as an outline or as a listing, its
instructions, or a whole module.
-/

namespace WatScript

inductive Stage where
  | wat
  | module
  | tokens
  | outline
  /-- The listing of the tree, under the name it was asked for. -/
  | listing (name : String)
  deriving DecidableEq, Repr, Inhabited

namespace Stage

/-- The stage with a name; every name that no other stage has asks for the listing. -/
def ofName : String → Stage
  | "wat" => wat
  | "module" => module
  | "tokens" => tokens
  | "ast" => outline
  | name => listing name

def name : Stage → String
  | wat => "wat"
  | module => "module"
  | tokens => "tokens"
  | outline => "ast"
  | listing name => name

def isListed (name : String) : Bool := ["wat", "module", "tokens", "ast", "spew"].contains name

def extension : Stage → String
  | wat | module => "wat"
  | stage => stage.name ++ ".txt"

end Stage

def tokenTable (atoms : List Atom) : String :=
  tableText ["#", "KIND", "DEPTH", "LOOP", "TEXT"] (atoms.mapIdx fun i a =>
    [toString i, a.kindName, toString a.level.depth.toInt, toString a.level.loops.toInt, a.canon])

namespace Engine

def emit (e : Engine) (stage : Stage) (source : Text) : Engine × Except EngineFault String :=
  let ofProgram (shown : Engine → Program → Except EngineFault String) :
      Engine × Except EngineFault String :=
    match e.compile false source with
    | (e, .error f) => (e, .error f)
    | (e, .ok p) => (e, shown e p)
  match stage with
  | .tokens => (e, ((scan .top source).mapError .reading).map tokenTable)
  | .wat => e.wat source
  | .module => ofProgram fun e p => (e.module p).map Module.text
  | .outline => ofProgram fun _ p => .ok (outlineRun p.atoms)
  | .listing _ => ofProgram fun _ p => .ok (listRun p.atoms)

end Engine

end WatScript
