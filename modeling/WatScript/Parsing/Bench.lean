import WatScript.Atom.Tag
import WatScript.Parsing.Outcome

/-!
# Passes one by one

A bench holds a run and applies single passes to it, which shows what each of them does. A pass that
fails leaves the run as it was, apart from what it did to the atoms before it could fail.

Once the run has been cut into statements, the statements are shown and resolved, and the other passes
still work on the run; cutting again replaces the statements. The run and the statements hold the same
atoms, which are therefore tagged. Resolving the statements changes atoms of the run, and moving the
atoms of the run to another level changes atoms of the statements.
-/

namespace WatScript

inductive Pass where
  | rest
  | literals
  | brackets
  | tokenize
  | group
  | phrases
  | calls
  | reduce
  | args
  | statements
  | resolve
  | enter
  | enterLoop
  deriving DecidableEq, Repr, Inhabited

/-- A run under work, the statements cut from it, the current level, the nesting limit and the next
tag. -/
structure Bench where
  run : List Atom
  statements : Option (List Atom)
  lv : Level
  limit : Int64
  next : Nat
  deriving Repr, Inhabited

mutual

/-- Enters what became of an atom and of the atoms it came from. -/
def Outcome.enterInto (t : TagTable) : Outcome → TagTable
  | .mk now run parts => enterOutcomes (enterOutcomes (t.insert now) run) parts

def enterOutcomes (t : TagTable) : List Outcome → TagTable
  | [] => t
  | o :: os => enterOutcomes (o.enterInto t) os

end

namespace Bench

def start (lv : Level) (limit : Int64) (text : Text) (further : List Atom) : Bench :=
  ⟨explode lv text ++ further, none, lv, limit, 1⟩

def shown (b : Bench) : List Atom := b.statements.getD b.run

def replace (b : Bench) : Except ReadFault (List Atom) → Bench × Option ReadFault
  | .ok run => ({ b with run }, none)
  | .error f => (b, some f)

/-- Cuts the run into statements, and tags the atoms that both hold. -/
def cutStatements (b : Bench) : Bench :=
  let (run, next) := tagAll b.next b.run
  let (statements, next) := tagAll next (splitStatements b.lv run)
  { b with run, statements := some statements, next }

/-- Moves the run to the current level, and with it the atoms that the statements share with it. -/
def moveRun (b : Bench) : Bench :=
  let run := relevel b.lv b.run
  let moved := run.foldl TagTable.insert (.empty b.next)
  { b with run, statements := b.statements.map (graftAll moved) }

/-- Resolves statements, and carries what became of their atoms over to the run. -/
def resolveStatements (b : Bench) (statements : List Atom) : Bench × Option ReadFault :=
  let (outcomes, f) := visitAll (fun a => track (a.weight + 4) b.limit 0 a) statements
  let (statements, next) := tagAll b.next (outcomes.map Outcome.now)
  let touched := enterOutcomes (.empty next) outcomes
  let present := enterAll (.empty next) statements
  let run := graftAll present (graftAll touched b.run)
  ({ b with run, statements := some statements, next }, f)

def apply (b : Bench) : Pass → Bench × Option ReadFault
  | .rest => (b, none)
  | .literals => b.replace (extractLiterals b.lv b.run)
  | .brackets => b.replace (groupBrackets b.lv b.run)
  | .tokenize => b.replace (WatScript.tokenize b.lv b.run)
  | .group => b.replace (WatScript.group b.lv b.run)
  | .phrases => b.replace (groupSyntax b.lv b.run)
  | .calls => ({ b with run := groupCalls b.run }, none)
  | .reduce => b.replace (WatScript.reduce b.lv b.run)
  | .args =>
    let b := b.moveRun
    b.replace (splitArgs b.lv b.run)
  | .statements => (b.cutStatements, none)
  | .enter => ({ b with lv := b.lv.enter }, none)
  | .enterLoop => ({ b with lv := b.lv.enterLoop }, none)
  | .resolve =>
    match b.statements with
    | some statements => b.resolveStatements statements
    | none =>
      let (run, f) := attemptAll b.limit b.run
      ({ b with run }, f)

end Bench

end WatScript
