import WatScript.Parsing.Application
import WatScript.Parsing.Operation
import WatScript.Parsing.Phrase
import WatScript.Parsing.Slot
import WatScript.Parsing.Statement

/-!
# Resolution

Parsing is lazy: reading one run recognizes its outermost structure only, and every bracket in it keeps
its content unread until it is resolved. Resolving reads the content one level deeper by the same rules:

* a block is read as statements (the body of a loop one loop level deeper);
* parentheses are read as expressions;
* an item is read as expressions at its own level;
* argument runs and lists are cut into slots, and each slot is resolved.

`parseExpr` and `parseStmts` read a whole source text. A nesting limit bounds both the depth of a run
and how many runs are being read inside each other; a limit of zero or less is no limit.

The recursion is on a budget that `weight` computes from the atom at hand: every step lowers the weight
of what is left to read, so the budget is never used up.
-/

namespace WatScript

/-- How many runs may be read inside each other for one unit of depth. Operands are read at the level
of their operator, so a row of operators without left operands nests without becoming deeper. -/
def nestingFactor : Int64 := 4

/-- A run may be opened at this depth while `nest` others are being read. The product wraps around, so
a limit of 2^61 or more may allow no run at all. -/
def mayOpen (limit : Int64) (nest : Nat) (lv : Level) : Bool :=
  limit ≤ 0 || (lv.depth ≤ limit && Int64.ofNat nest < limit * nestingFactor)

def dropComments (run : List Atom) : Except ReadFault (List Atom) :=
  let isSeparatorAtom : Atom → Bool
    | .unknown _ c => isSeparator c
    | _ => false
  if run.any isSeparatorAtom then .error .unexpectedSeparator
  else .ok (run.filter (!·.isComment))

/-- The outermost structure of a tokenized run: chains, calls, then one operator split. -/
def structureRun (lv : Level) (run : List Atom) : Except ReadFault (List Atom) := do
  let atoms ← dropComments run
  let atoms ← groupSyntax lv atoms
  reduce lv (groupCalls atoms)

def bodyLevel (lv : Level) (clauseName : String) : Level :=
  if Keyword.isLoop clauseName then lv.enterLoop else lv.enter

mutual

def readRun : Nat → Int64 → Nat → Level → List Atom → Except ReadFault (List Atom)
  | 0, _, _, _, _ => .error .nestingTooDeep
  | fuel + 1, limit, nest, lv, raw => do
    if !mayOpen limit nest lv then throw .nestingTooDeep
    let atoms ← group lv (relevel lv raw)
    let atoms ← structureRun lv atoms
    atoms.mapM (resolveExpr fuel limit (nest + 1))

def readStatements : Nat → Int64 → Nat → Level → List Atom → Except ReadFault (List Atom)
  | 0, _, _, _, _ => .error .nestingTooDeep
  | fuel + 1, limit, nest, lv, raw => do
    if !mayOpen limit nest lv then throw .nestingTooDeep
    let atoms ← group lv (relevel lv raw)
    (splitStatements lv atoms).mapM (resolveStmt fuel limit (nest + 1))

/-- Resolves an expression and everything below it. A statement is no expression. -/
def resolveExpr : Nat → Int64 → Nat → Atom → Except ReadFault Atom
  | 0, _, _, _ => .error .nestingTooDeep
  | fuel + 1, limit, nest, a =>
    match a with
    | .unknown .. | .literal .. | .comment .. | .word .. | .operator .. => .ok a
    | .block lv raw resolved _ =>
      if resolved then .ok a
      else return .block lv [] true (← readStatements fuel limit nest lv.enter raw)
    | .paren lv raw resolved _ =>
      if resolved then .ok a
      else return .paren lv [] true (← readRun fuel limit nest lv.enter raw)
    | .list lv raw resolved _ =>
      if resolved then .ok a
      else do
        let items ← splitArgs lv.enter raw
        return .list lv [] true (← items.mapM (resolveExpr fuel limit nest))
    | .item lv raw resolved _ =>
      if resolved then .ok a
      else return .item lv [] true (← readRun fuel limit nest lv.bare raw)
    | .call lv callee raw resolved _ args =>
      if resolved then .ok a
      else do
        let callee' ← resolveExpr fuel limit nest callee
        -- the operands of an operator have been cut by the operator split
        let items ← if callee.isOperator then pure args else splitArgs lv.enter raw
        return .call lv callee' [] true true (← items.mapM (resolveExpr fuel limit nest))
    | .access lv callee raw resolved _ =>
      if resolved then .ok a
      else do
        let callee' ← resolveExpr fuel limit nest callee
        let items ← splitArgs lv.enter raw
        return .access lv callee' [] true (← items.mapM (resolveExpr fuel limit nest))
    | .clause lv name cond body => do
      let cond' ← cond.mapM (resolveExpr fuel limit nest)
      match body with
      | .block bl raw false _ =>
        let stmts ← readStatements fuel limit nest (bodyLevel lv name) raw
        return .clause lv name cond' (.block bl [] true stmts)
      | _ => return .clause lv name cond' body
    | .chain lv clauses => return .chain lv (← clauses.mapM (resolveExpr fuel limit nest))
    | .exprStmt .. | .controlStmt .. => .error .unexpectedNode

/-- Resolves a statement and everything below it. A comment is both, any other expression is no
statement. -/
def resolveStmt : Nat → Int64 → Nat → Atom → Except ReadFault Atom
  | 0, _, _, _ => .error .nestingTooDeep
  | fuel + 1, limit, nest, a =>
    match a with
    | .comment .. => .ok a
    | .exprStmt lv raw resolved _ =>
      if resolved then .ok a
      else do
        let atoms ← structureRun lv.bare raw
        return .exprStmt lv [] true (← atoms.mapM (resolveExpr fuel limit nest))
    | .controlStmt lv head raw resolved _ =>
      if resolved then .ok a
      else do
        let atoms ← structureRun lv.bare raw
        return .controlStmt lv head [] true (← atoms.mapM (resolveExpr fuel limit nest))
    | _ => .error .unexpectedNode

end

mutual

/-- The weight of an atom. Passes never raise the weight of a run, and whatever resolving an atom
reads next weighs less than the atom. An operator weighs nothing once it is applied, which pays for the
two items it is applied to. -/
def Atom.weight : Atom → Nat
  | .unknown .. | .literal .. | .comment .. | .word .. | .operator .. => 10
  | .block _ raw _ _ | .paren _ raw _ _ | .item _ raw _ _ => 3 + weights raw
  | .list _ raw _ _ => 4 + weights raw
  | .call _ callee raw _ _ args =>
    3 + (if callee.isOperator then 0 else callee.weight) + weights raw + weights args
  | .access _ callee raw _ _ => 3 + callee.weight + weights raw
  | .clause _ _ cond body => 1 + weightOption cond + body.weight
  | .chain _ clauses => 1 + weights clauses
  | .exprStmt _ raw _ _ | .controlStmt _ _ raw _ _ => 1 + weights raw

def weightOption : Option Atom → Nat
  | none => 0
  | some a => a.weight

def weights : List Atom → Nat
  | [] => 0
  | a :: rest => a.weight + weights rest

end

@[simp] theorem weights_nil : weights [] = 0 := rfl

@[simp] theorem weights_cons (a : Atom) (rest : List Atom) :
    weights (a :: rest) = a.weight + weights rest := rfl

theorem Atom.weight_pos (a : Atom) : 0 < a.weight := by
  cases a <;> (rw [weight]; omega)

def defaultLimit : Int64 := 256

/-- Resolves an atom and everything below it. Resolving a resolved atom changes nothing. -/
def Atom.resolve (limit : Int64) (a : Atom) : Except ReadFault Atom :=
  match a with
  | .exprStmt .. | .controlStmt .. => resolveStmt (a.weight + 4) limit 0 a
  | _ => resolveExpr (a.weight + 4) limit 0 a

def parseExpr (limit : Int64) (text : Text) : Except ReadFault (List Atom) :=
  let raw := explode .top text
  readRun (weights raw + 4) limit 0 .top raw

def parseStmts (limit : Int64) (text : Text) : Except ReadFault (List Atom) :=
  let raw := explode .top text
  readStatements (weights raw + 4) limit 0 .top raw

end WatScript
