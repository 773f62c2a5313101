import WatScript.Codegen.Lower
import WatScript.Codegen.Symbols
import WatScript.Digest
import WatScript.Engine.Config
import WatScript.Fault.Engine
import WatScript.Text.Normal
import WatScript.Wat.Format
import WatScript.Wat.Module

/-!
# Compiled programs

A program is a source text in composed normal form with everything that compiling it found out. Its key
is the digest of the text together with the settings that decide what it compiles to.
-/

namespace WatScript

structure Program where
  source : Text
  key : Digest
  isExpr : Bool
  atoms : List Atom
  code : List Instr
  wat : String
  symbols : Symbols
  /-- The code leaves a value for the entry function to return. -/
  yields : Bool
  /-- The host that the last statement calls; its results decide what the program yields. -/
  tailCall : Option String
  deriving Inhabited

namespace Program

/-- What the last expression of a program leaves: surely a value, or the results of a host. -/
def tailOfExpr : Atom → Bool × Option String
  | .chain .. => (false, none)
  | .call _ (.operator _ lexeme) .. => (!Operator.isAssignment lexeme, none)
  | .call _ (.word _ w) .. => (false, some w)
  | _ => (true, none)

/-- What a program leaves, from its last statement that is no comment. -/
def tailOf (stmts : List Atom) : Bool × Option String :=
  match stmts.reverse.find? (!·.isComment) with
  | some (.controlStmt _ head _ _ exprs) => (head == "return" && !exprs.isEmpty, none)
  | some (.exprStmt _ _ _ [e]) => tailOfExpr e
  | _ => (false, none)

def fingerprint (maxDepth : Int64) (isExpr : Bool) (source : Text) : Text :=
  Text.ofString ((if isExpr then "e" else "s") ++ toString maxDepth.toInt ++ ":") ++ source

def keyOf (maxDepth : Int64) (isExpr : Bool) (source : Text) : Digest :=
  .ofBytes (fingerprint maxDepth isExpr source).encode

def read (maxDepth : Int64) (isExpr : Bool) (source : Text) : Except ReadFault (List Atom) :=
  if isExpr then parseExpr maxDepth source else parseStmts maxDepth source

def generate (isExpr : Bool) (atoms : List Atom) : Except GenFault (List Instr) :=
  if isExpr then generateExpr atoms else generateStmts atoms

def build (config : Config) (isExpr : Bool) (source : Text) : Except EngineFault Program := do
  let atoms ← (read config.maxDepth isExpr source).mapError .reading
  let code ← (generate isExpr atoms).mapError .generating
  if config.verify then
    match verify code with
    | f :: _ => throw (.rejected f)
    | [] => pure ()
  let (yields, tailCall) := if isExpr then (true, none) else tailOf atoms
  return {
    source, isExpr, atoms, code, yields, tailCall
    key := keyOf config.maxDepth isExpr source
    wat := (formatCode code).toString
    symbols := Symbols.ofRun atoms }

end Program

end WatScript
