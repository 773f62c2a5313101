import WatScript.Codegen.Lower

/-!
# Generators

A generator collects the instructions of one call after another. It counts the bodies of `if` and
`while` around the statement at hand, because a bare expression may stand alone outside of them only;
the count goes down again however a body ends. A failing call leaves what it emitted before it failed,
and later calls go on from there.
-/

namespace WatScript

/-- The instructions collected so far, and the bodies of `if` and `while` that enclose the statement
being lowered. -/
structure Generator where
  code : List Instr
  bodies : Int
  deriving DecidableEq, Repr, Inhabited

/-- Work with a generator that may fail. What it did to the generator before it failed stays. -/
abbrev Lowering := ExceptT GenFault (StateM Generator)

namespace Lowering

def collect (g : Gen Unit) : Lowering Unit := do
  modify fun gen => { gen with code := gen.code ++ g.code }
  MonadExcept.ofExcept g.result

def fail (e : GenFault) : Lowering Unit := throw e

def require (c : Bool) (e : GenFault) : Lowering Unit := if c then pure () else fail e

def requireNoBody : Lowering Unit := do
  require (!decide (0 < (← get).bodies)) .notOneValue

/-- Does `m` in one body more, and leaves that body however `m` ends. -/
def inBody (m : Lowering Unit) : Lowering Unit := do
  modify fun gen => { gen with bodies := gen.bodies + 1 }
  tryFinally m (modify fun gen => { gen with bodies := gen.bodies - 1 })

mutual

def stmt (a : Atom) : Lowering Unit := do
  require a.isReady .unexpectedTree
  match a with
  | .comment .. => pure ()
  | .exprStmt _ _ _ exprs => exprStmt exprs
  | .controlStmt lv head _ _ exprs => collect (genControl lv.loops head exprs)
  | _ => fail .unexpectedTree

def exprStmt : List Atom → Lowering Unit
  | [] => pure ()
  | [a] =>
    match a with
    | .chain _ clauses => do
      require a.isReady .unexpectedTree
      match a.chainHead?.getD "" with
      | "if" => arms true clauses
      | "while" =>
        match clauses with
        | [clause] => whileClause clause
        | _ => fail .unsupported
      | "for" | "loop" => fail .unsupported
      | _ => fail .unexpectedTree
    | .call _ (.operator _ lexeme) _ _ _ args =>
      if Operator.isAssignment lexeme then collect (genAssign lexeme args)
      else do
        requireNoBody
        collect (genExpr a)
    | .call .. => collect (genExpr a)
    | _ => do
      requireNoBody
      collect (genExpr a)
  | exprs => require (declared? exprs).isSome .notOneValue

/-- Lowers the arms of an `if` chain; each condition opens a frame that is closed after all arms. -/
def arms (isFirst : Bool) : List Atom → Lowering Unit
  | [] => pure ()
  | .clause _ name cond body :: rest => do
    if !isFirst then collect (Gen.op .elseArm)
    if name == "if" || name == "elif" then
      collect (genCondition cond)
      collect (Gen.op .ifThen)
      blockBody body
      arms false rest
      collect (Gen.op .endFrame)
    else if name == "else" then
      blockBody body
      arms false rest
    else fail .unexpectedTree
  | _ :: _ => fail .unexpectedTree

def whileClause : Atom → Lowering Unit
  | .clause lv _ cond body => do
    require cond.isSome .unexpectedTree
    collect (Gen.emit ⟨.loop, Instr.loopLabel lv.loops⟩)
    collect (Gen.emit ⟨.block, Instr.blockLabel lv.loops⟩)
    collect (genCondition cond)
    collect (Gen.op .eqz)
    collect (Gen.emit ⟨.brIf, Instr.blockLabel lv.loops⟩)
    blockBody body
    collect (Gen.emit ⟨.br, Instr.loopLabel lv.loops⟩)
    collect (Gen.op .endFrame)
    collect (Gen.op .endFrame)
  | _ => fail .unexpectedTree

def blockBody : Atom → Lowering Unit
  | .block _ _ _ body => inBody (stmts body)
  | _ => fail .unexpectedTree

def stmts : List Atom → Lowering Unit
  | [] => pure ()
  | a :: rest => do
    stmt a
    stmts rest

end

end Lowering

namespace Generator

def empty : Generator := ⟨[], 0⟩

/-- The generator after some work, and the failure the work ended with. -/
def perform (gen : Generator) (work : Lowering Unit) : Generator × Option GenFault :=
  match work.run gen with
  | (.ok _, gen) => (gen, none)
  | (.error e, gen) => (gen, some e)

def stmts (gen : Generator) (atoms : List Atom) : Generator × Option GenFault :=
  gen.perform (Lowering.stmts atoms)

def expr (gen : Generator) (a : Atom) : Generator × Option GenFault :=
  gen.perform (Lowering.collect (genExpr a))

def exprs (gen : Generator) : List Atom → Generator × Option GenFault
  | [] => (gen, none)
  | a :: rest =>
    match gen.expr a with
    | (gen, some e) => (gen, some e)
    | (gen, none) => gen.exprs rest

end Generator

end WatScript
