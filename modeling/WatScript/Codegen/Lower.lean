import WatScript.Codegen.Gen
import WatScript.Codegen.Symbols
import WatScript.Lexicon.Operator

/-!
# Code generation

Resolved trees are lowered to a flat function body. A loop opens two frames named after the loop depth
`n` of its clause,

    loop $Ln
      block $Bn
        condition, i32.eqz, br_if $Bn
        body
        br $Ln
      end
    end

so that `break` branches to the block and `continue` to the loop. Both stand one loop level deeper than
the clause, hence the `n - 1` in their labels.

Frames carry no values. Inside the body of an `if` or a `while` only calls, assignments, control
statements and further chains may stand alone; a bare expression would leave its value behind.
-/

namespace WatScript

def binaryOp? : String → Option BinOp
  | "+" => some .add
  | "-" => some .sub
  | "*" => some .mul
  | "/" => some .div
  | "%" => some .rem
  | "&&" => some .and
  | "||" => some .or
  | "!" => some .xor
  | "==" => some .eq
  | "!=" => some .ne
  | "<" => some .lt
  | ">" => some .gt
  | "<=" => some .le
  | ">=" => some .ge
  | _ => none

/-- The implicit left operand of an operator that may stand without one: `-x` is `0 - x` and `!x` is
`1` exclusive-or `x`. -/
def implicitLeft? : String → Option Int32
  | "-" => some 0
  | "!" => some 1
  | _ => none

def declared? : List Atom → Option String
  | [.word _ "let", .word _ name] => if isNameable name then some name else none
  | [.word _ "let", .word _ "mut", .word _ name] => if isNameable name then some name else none
  | _ => none

def Atom.isItem : Atom → Bool
  | .item .. => true
  | _ => false

def Atom.isReady (a : Atom) : Bool := a.isResolved? != some false

def genWord (w : String) : Gen Unit :=
  if isNumeric w then do Gen.emit (.const (← Gen.lift (parseNumber w)))
  else if w == Keyword.memory then Gen.fail .unsupported
  else if isReserved w then Gen.fail .notOneValue
  else Gen.emit (.localGet w)

mutual

def genExpr (a : Atom) : Gen Unit := do
  Gen.require a.isReady .unexpectedTree
  match a with
  | .word _ w => genWord w
  | .paren _ _ _ contents | .item _ _ _ contents => genSingle contents
  | .call _ callee _ _ _ args =>
    match callee with
    | .operator _ lexeme => genOperation lexeme args
    | .word _ name => do
      Gen.require (isNameable name) .unsupported
      genEach args
      Gen.emit (.call name)
    | _ => Gen.fail .unsupported
  | .access _ callee _ resolved index => do
    genCell callee resolved index
    Gen.op .load
  | .literal .. | .list .. | .block .. | .clause .. | .chain .. => Gen.fail .unsupported
  | .operator .. | .unknown .. | .comment .. => Gen.fail .notOneValue
  | .exprStmt .. | .controlStmt .. => Gen.fail .unexpectedTree

def genSingle : List Atom → Gen Unit
  | [a] => genExpr a
  | _ => Gen.fail .notOneValue

def genEach : List Atom → Gen Unit
  | [] => pure ()
  | a :: rest => do
    genExpr a
    genEach rest

def genOperation (lexeme : String) : List Atom → Gen Unit
  | [left, right] => do
    Gen.require (left.isItem && right.isItem) .unexpectedTree
    Gen.require (!Operator.isAssignment lexeme) .notOneValue
    match binaryOp? lexeme with
    | none => Gen.fail .invalidOperation
    | some op => do
      -- an operator without a left operand has an empty item there
      if left.isEmptyItem? == some true then
        match implicitLeft? lexeme with
        | some v => Gen.emit (.const v)
        | none => Gen.fail .invalidOperation
      else genExpr left
      genExpr right
      Gen.op (.binary op)
  | _ => Gen.fail .unexpectedTree

/-- Lowers the address of a memory cell, a subscript of the memory word with one index. -/
def genCell (callee : Atom) (resolved : Bool) (index : List Atom) : Gen Unit := do
  Gen.require resolved .unexpectedTree
  match callee with
  | .word _ w => do
    Gen.require (w == Keyword.memory) .unsupported
    match index with
    | [a] => genExpr a
    | _ => Gen.fail .notOneValue
  | _ => Gen.fail .unsupported

end

def genSetLocal (name : String) (op : Option BinOp) (right : Atom) : Gen Unit := do
  if op.isSome then Gen.emit (.localGet name)
  genExpr right
  if let some o := op then Gen.op (.binary o)
  Gen.emit (.localSet name)

/-- Lowers `cell = right`, or `cell = cell op right`, for the cell with the given address. -/
def genStore (address : Gen Unit) (op : Option BinOp) (right : Atom) : Gen Unit := do
  address
  -- the address is computed a second time, to load from
  if op.isSome then
    address
    Gen.op .load
  genExpr right
  if let some o := op then Gen.op (.binary o)
  Gen.op .store

/-- Lowers an assignment to a target that was read as `contents`. `op` is the arithmetic operator of
a compound assignment. -/
def genAssignTo (contents : List Atom) (op : Option BinOp) (right : Atom) : Gen Unit :=
  match declared? contents with
  | some name => if op.isSome then Gen.fail .invalidTarget else genSetLocal name none right
  | none =>
    match contents with
    | [.word _ name] =>
      if isNameable name then genSetLocal name op right else Gen.fail .invalidTarget
    | [.access _ callee _ resolved index] =>
      match callee with
      | .access .. => Gen.fail .invalidTarget
      | _ => genStore (genCell callee resolved index) op right
    | _ => Gen.fail .invalidTarget

def genAssign (lexeme : String) : List Atom → Gen Unit
  | [.item _ _ resolved contents, .item rl rraw rr rcontents] => do
    Gen.require resolved .unexpectedTree
    let right : Atom := .item rl rraw rr rcontents
    match Operator.compoundBase? lexeme with
    | none => genAssignTo contents none right
    | some base =>
      match binaryOp? base with
      | none => Gen.fail .invalidOperation
      | some op => genAssignTo contents (some op) right
  | _ => Gen.fail .unexpectedTree

def genControl (loops : Int64) (head : String) (exprs : List Atom) : Gen Unit :=
  match head with
  | "return" => do
    match exprs with
    | [] => pure ()
    | [e] => genExpr e
    | _ => Gen.fail .notOneValue
    Gen.op .ret
  | "break" => genJump Instr.blockLabel
  | "continue" => genJump Instr.loopLabel
  | "assert" => do
    genSingle exprs
    Gen.op .eqz
    Gen.op .ifThen
    Gen.op .unreachable
    Gen.op .endFrame
  | _ => Gen.fail .unexpectedTree
where
  genJump (label : Int64 → Text) : Gen Unit := do
    Gen.require exprs.isEmpty .notOneValue
    Gen.require (1 ≤ loops) .outsideLoop
    Gen.emit ⟨.br, label (loops - 1)⟩
    Gen.op .unreachable

mutual

/-- Lowers a statement. `inBody` says that it stands in the body of an `if` or a `while`. -/
def genStmt (inBody : Bool) (a : Atom) : Gen Unit := do
  Gen.require a.isReady .unexpectedTree
  match a with
  | .comment .. => pure ()
  | .exprStmt _ _ _ exprs => genExprStmt inBody exprs
  | .controlStmt lv head _ _ exprs => genControl lv.loops head exprs
  | _ => Gen.fail .unexpectedTree

def genExprStmt (inBody : Bool) : List Atom → Gen Unit
  | [] => pure ()
  | [a] =>
    match a with
    | .chain _ clauses => do
      Gen.require a.isReady .unexpectedTree
      match a.chainHead?.getD "" with
      | "if" => genArms true clauses
      | "while" =>
        match clauses with
        | [clause] => genWhile clause
        | _ => Gen.fail .unsupported
      | "for" | "loop" => Gen.fail .unsupported
      | _ => Gen.fail .unexpectedTree
    | .call _ (.operator _ lexeme) _ _ _ args =>
      if Operator.isAssignment lexeme then genAssign lexeme args
      else do
        Gen.require (!inBody) .notOneValue
        genExpr a
    | .call .. => genExpr a
    | _ => do
      Gen.require (!inBody) .notOneValue
      genExpr a
  -- a declaration without a value needs no code: locals start at zero
  | exprs => Gen.require (declared? exprs).isSome .notOneValue

/-- Lowers the arms of an `if` chain; each condition opens a frame that is closed after all arms. -/
def genArms (isFirst : Bool) : List Atom → Gen Unit
  | [] => pure ()
  | .clause _ name cond body :: rest => do
    if !isFirst then Gen.op .elseArm
    if name == "if" || name == "elif" then
      genCondition cond
      Gen.op .ifThen
      genBody body
      genArms false rest
      Gen.op .endFrame
    else if name == "else" then
      genBody body
      genArms false rest
    else Gen.fail .unexpectedTree
  | _ :: _ => Gen.fail .unexpectedTree

def genWhile : Atom → Gen Unit
  | .clause lv _ cond body => do
    Gen.require cond.isSome .unexpectedTree
    Gen.emit ⟨.loop, Instr.loopLabel lv.loops⟩
    Gen.emit ⟨.block, Instr.blockLabel lv.loops⟩
    genCondition cond
    Gen.op .eqz
    Gen.emit ⟨.brIf, Instr.blockLabel lv.loops⟩
    genBody body
    Gen.emit ⟨.br, Instr.loopLabel lv.loops⟩
    Gen.op .endFrame
    Gen.op .endFrame
  | _ => Gen.fail .unexpectedTree

def genCondition : Option Atom → Gen Unit
  | some a => genExpr a
  | none => Gen.fail .unexpectedTree

def genBody : Atom → Gen Unit
  | .block _ _ _ stmts => genStmts true stmts
  | _ => Gen.fail .unexpectedTree

def genStmts (inBody : Bool) : List Atom → Gen Unit
  | [] => pure ()
  | a :: rest => do
    genStmt inBody a
    genStmts inBody rest

end

def generateStmts (stmts : List Atom) : Except GenFault (List Instr) :=
  (genStmts false stmts).toExcept

def generateExpr (exprs : List Atom) : Except GenFault (List Instr) :=
  (genSingle exprs).toExcept

end WatScript
