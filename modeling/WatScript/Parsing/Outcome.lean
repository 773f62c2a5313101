import WatScript.Parsing.Resolve

/-!
# What a failed resolution leaves

Resolution works on the atoms of a run where they stand. When it fails, the work done before the
failure stays: runs that were opened have moved to the level they are read at, atoms of a run that were
resolved stay resolved, and a call keeps the slots its arguments were cut into. Reading can then go on
from what is left.

`Outcome` says what became of an atom. The passes build fresh atoms out of the atoms of a run; the
`restore` functions carry the outcomes of the fresh atoms back to the atoms they were built from, pass
by pass, so that a run can be shown as reading left it. `Atom.attempt` is the result: the atom as it
stands after an attempt to resolve it.
-/

namespace WatScript

/-- What became of an atom: the atom now, the atoms of its unread run, and the atoms it was put
together from (the callee and the operands of an operation, the condition and the block of a clause,
the clauses of a chain). The last two are kept even if the atom no longer holds them. -/
inductive Outcome where
  | mk (now : Atom) (run parts : List Outcome)
  deriving Repr, Inhabited

namespace Outcome

def now : Outcome → Atom
  | mk a _ _ => a

def run : Outcome → List Outcome
  | mk _ run _ => run

def parts : Outcome → List Outcome
  | mk _ _ parts => parts

end Outcome

mutual

def Outcome.untouched (a : Atom) : Outcome :=
  match a with
  | .block _ raw _ _ | .paren _ raw _ _ | .list _ raw _ _ | .item _ raw _ _ =>
    .mk a (untouchedRun raw) []
  | .exprStmt _ raw _ _ | .controlStmt _ _ raw _ _ => .mk a (untouchedRun raw) []
  | .call _ callee raw _ _ args =>
    .mk a (untouchedRun raw) (.untouched callee :: untouchedRun args)
  | .access _ callee raw _ _ => .mk a (untouchedRun raw) [.untouched callee]
  | .clause _ _ cond body => .mk a [] (untouchedOption cond ++ [.untouched body])
  | .chain _ clauses => .mk a [] (untouchedRun clauses)
  | .unknown .. | .literal .. | .comment .. | .word .. | .operator .. => .mk a [] []

def untouchedOption : Option Atom → List Outcome
  | none => []
  | some a => [.untouched a]

def untouchedRun : List Atom → List Outcome
  | [] => []
  | a :: rest => .untouched a :: untouchedRun rest

end

@[simp] theorem now_untouched (a : Atom) : (Outcome.untouched a).now = a := by
  cases a <;> rw [Outcome.untouched] <;> rfl

@[simp] theorem map_now_untouchedRun (run : List Atom) : (untouchedRun run).map Outcome.now = run := by
  induction run with
  | nil => rfl
  | cons a run ih => simp [untouchedRun, ih]

@[simp] theorem length_untouchedRun (run : List Atom) : (untouchedRun run).length = run.length := by
  induction run with
  | nil => rfl
  | cons a run ih => simp [untouchedRun, ih]

@[simp] theorem run_untouched (a : Atom) : (Outcome.untouched a).run = untouchedRun a.raw := by
  cases a <;> rw [Outcome.untouched] <;> rfl

/-! ## Back through the lexing passes -/

/-- The outcomes of the atoms that pieces were cut from, given those of the atoms they contribute. -/
def restorePieces : List Piece → List Outcome → List Outcome
  | [], _ => []
  | .dropped a :: pieces, os => .untouched a :: restorePieces pieces os
  | .kept _ :: pieces, o :: os => o :: restorePieces pieces os
  | .made stretch _ :: pieces, _ :: os => untouchedRun stretch ++ restorePieces pieces os
  | .wrapped opener closer _ :: pieces, o :: os =>
    .untouched opener :: o.run ++ .untouched closer :: restorePieces pieces os
  | piece :: pieces, [] => untouchedRun piece.stretch ++ restorePieces pieces []

/-- The cuts of all lexing passes over a run, first pass first. -/
def cutPasses (lv : Level) (run : List Atom) : Except ReadFault (List (List Piece)) := do
  let literals ← cutLiterals lv run
  let braces ← cutBrackets .brace lv (atomsOf literals)
  let squares ← cutBrackets .square lv (atomsOf braces)
  let rounds ← cutBrackets .round lv (atomsOf squares)
  let words ← cutWords lv (atomsOf rounds)
  return [literals, braces, squares, rounds, words]

def tokensOf (cuts : List (List Piece)) : List Atom := (cuts.getLast?.map atomsOf).getD []

def restoreCuts (cuts : List (List Piece)) (os : List Outcome) : List Outcome :=
  cuts.foldr restorePieces os

/-! ## Back through the structure of a run -/

structure Structured where
  tokens : List Atom
  phrases : List Phrase
  applications : List Application
  isSplit : Bool
  atoms : List Atom
  deriving Repr, Inhabited

def structured (lv : Level) (tokens : List Atom) : Except ReadFault Structured := do
  let kept ← dropComments tokens
  let ps ← phrases lv kept
  let apps := applications (ps.map (Phrase.toAtom lv))
  let merged := apps.map Application.atom
  let point ← splitPoint? merged
  return ⟨tokens, ps, apps, point.isSome, ← reduce lv merged⟩

/-- The outcomes of the two sides of an operator and of the operator between them. -/
def restoreSplit (isSplit : Bool) (os : List Outcome) : List Outcome :=
  match isSplit, os with
  | true, [o] =>
    match o.parts with
    | [op, left, right] => left.run ++ op :: right.run
    | _ => os
  | _, _ => os

/-- The outcomes of an applied atom and of its brackets, which are listed last one first. -/
def restoreBrackets : List Atom → Outcome → List Outcome
  | [], o => [o]
  | bracket :: brackets, o =>
    match o.parts with
    | callee :: _ =>
      restoreBrackets brackets callee ++
        [.mk (bracket.withRaw (o.run.map Outcome.now)) o.run []]
    | [] => [o]

def restoreApplications (apps : List Application) (os : List Outcome) : List Outcome :=
  (List.zipWith (fun p o => restoreBrackets p.brackets.reverse o) apps os).flatten

def restoreMember : Member → Outcome → List Outcome
  | .given _, o => [o]
  | .fresh word _, o => .untouched word :: o.parts

def restorePhrase : Phrase → Outcome → List Outcome
  | .atom _, o => [o]
  | .chain clauses, o => (List.zipWith restoreMember clauses o.parts).flatten

/-- The outcomes of a run, given those of its atoms that `isOut` does not pick. -/
def restoreFiltered (isOut : Atom → Bool) : List Atom → List Outcome → List Outcome
  | [], _ => []
  | a :: rest, os =>
    if isOut a then .untouched a :: restoreFiltered isOut rest os
    else match os with
      | o :: os => o :: restoreFiltered isOut rest os
      | [] => .untouched a :: restoreFiltered isOut rest []

/-- The outcomes of the tokens of a run, given those of the atoms in its structure. -/
def Structured.restore (s : Structured) (os : List Outcome) : List Outcome :=
  let merged := restoreApplications s.applications (restoreSplit s.isSplit os)
  let kept := (List.zipWith restorePhrase s.phrases merged).flatten
  restoreFiltered Atom.isComment s.tokens kept

def isComma : Atom → Bool
  | .unknown _ c => c == ','
  | _ => false

/-- The outcomes of a tokenized run, given those of the runs of its statements one after the other.
`isStart` says that a statement begins here, so a control word heads it. -/
def restoreStatementRuns : Bool → List Atom → List Outcome → List Outcome
  | _, [], _ => []
  | isStart, a :: rest, os =>
    match a with
    | .comment .. => .untouched a :: restoreStatementRuns isStart rest os
    | .unknown _ ';' => .untouched a :: restoreStatementRuns true rest os
    | _ =>
      let isHead := match a with
        | .word _ w => isStart && Keyword.isControl w
        | _ => false
      if isHead then .untouched a :: restoreStatementRuns false rest os
      else match os with
        | o :: os => o :: restoreStatementRuns false rest os
        | [] => .untouched a :: restoreStatementRuns false rest []

def restoreStatements (tokens : List Atom) (os : List Outcome) : List Outcome :=
  restoreStatementRuns true tokens (os.flatMap Outcome.run)

/-! ## Tracked resolution -/

def visitAll (visit : Atom → Outcome × Option ReadFault) :
    List Atom → List Outcome × Option ReadFault
  | [] => ([], none)
  | a :: rest =>
    match visit a with
    | (o, some f) => (o :: untouchedRun rest, some f)
    | (o, none) =>
      let (os, f) := visitAll visit rest
      (o :: os, f)

/-- What became of a run and, unless reading it failed, what it was read as. -/
structure RunOutcome where
  left : List Outcome
  result : Except ReadFault (List Atom)

namespace RunOutcome

def nows (r : RunOutcome) : List Atom := r.left.map Outcome.now

def failed (run : List Atom) (f : ReadFault) : RunOutcome := ⟨untouchedRun run, .error f⟩

def visited (restore : List Outcome → List Outcome) :
    List Outcome × Option ReadFault → RunOutcome
  | (os, some f) => ⟨restore os, .error f⟩
  | (os, none) => ⟨restore os, .ok (os.map Outcome.now)⟩

end RunOutcome

def trackTokens (visit : Atom → Outcome × Option ReadFault) (lv : Level) (tokens : List Atom) :
    RunOutcome :=
  match structured lv tokens with
  | .error f => .failed tokens f
  | .ok s => .visited s.restore (visitAll visit s.atoms)

/-- What became of an argument run, and its slots once it has been cut. -/
structure SlotOutcome where
  left : List Outcome
  items : Option (List Outcome)
  fault : Option ReadFault

def trackSlots (visit : Atom → Outcome × Option ReadFault) (lv : Level) (raw : List Atom) :
    SlotOutcome :=
  let raw := relevel lv raw
  match cutPasses lv raw with
  | .error f => ⟨untouchedRun raw, none, some f⟩
  | .ok cuts =>
    let tokens := tokensOf cuts
    let (os, f) := visitAll visit (slots lv tokens)
    ⟨restoreCuts cuts (restoreFiltered isComma tokens (os.flatMap Outcome.run)), some os, f⟩

/-- The outcome of an atom with an unread run: settled with what the run was read as, or still
holding what is left of the run. -/
def settle (r : RunOutcome) (done : List Atom → Atom) (kept : List Atom → Atom) :
    Outcome × Option ReadFault :=
  match r.result with
  | .ok contents => (.mk (done contents) r.left [], none)
  | .error f => (.mk (kept r.nows) r.left [], some f)

mutual

def trackRun : Nat → Int64 → Nat → Level → List Atom → RunOutcome
  | 0, _, _, _, raw => .failed raw .nestingTooDeep
  | fuel + 1, limit, nest, lv, raw =>
    if !mayOpen limit nest lv then .failed raw .nestingTooDeep
    else
      let raw := relevel lv raw
      match cutPasses lv raw with
      | .error f => .failed raw f
      | .ok cuts =>
        let r := trackTokens (track fuel limit (nest + 1)) lv (tokensOf cuts)
        ⟨restoreCuts cuts r.left, r.result⟩

def trackStatements : Nat → Int64 → Nat → Level → List Atom → RunOutcome
  | 0, _, _, _, raw => .failed raw .nestingTooDeep
  | fuel + 1, limit, nest, lv, raw =>
    if !mayOpen limit nest lv then .failed raw .nestingTooDeep
    else
      let raw := relevel lv raw
      match cutPasses lv raw with
      | .error f => .failed raw f
      | .ok cuts =>
        let tokens := tokensOf cuts
        .visited (restoreCuts cuts ∘ restoreStatements tokens)
          (visitAll (track fuel limit (nest + 1)) (splitStatements lv tokens))

def track : Nat → Int64 → Nat → Atom → Outcome × Option ReadFault
  | 0, _, _, a => (.untouched a, some .nestingTooDeep)
  | fuel + 1, limit, nest, a =>
    let visit := track fuel limit nest
    match a with
    | .unknown .. | .literal .. | .comment .. | .word .. | .operator .. => (.untouched a, none)
    | .block lv raw false body =>
      settle (trackStatements fuel limit nest lv.enter raw)
        (.block lv [] true) (.block lv · false body)
    | .paren lv raw false contents =>
      settle (trackRun fuel limit nest lv.enter raw) (.paren lv [] true) (.paren lv · false contents)
    | .item lv raw false contents =>
      settle (trackRun fuel limit nest lv.bare raw) (.item lv [] true) (.item lv · false contents)
    | .list lv raw false contents =>
      let s := trackSlots visit lv.enter raw
      match s.fault with
      | none =>
        (.mk (.list lv [] true ((s.items.getD []).map Outcome.now)) s.left [], none)
      | some f => (.mk (.list lv (s.left.map Outcome.now) false contents) s.left [], some f)
    | .call lv callee raw false split args =>
      match visit callee with
      | (o, some f) =>
        (.mk (.call lv o.now raw false split args) (untouchedRun raw) (o :: untouchedRun args),
          some f)
      | (o, none) =>
        if callee.isOperator then
          let (os, fault) := visitAll visit args
          let nows := os.map Outcome.now
          let now : Atom := match fault with
            | none => .call lv o.now [] true true nows
            | some _ => .call lv o.now raw false split nows
          (.mk now (untouchedRun raw) (o :: os), fault)
        else
          let s := trackSlots visit lv.enter raw
          let left := s.left.map Outcome.now
          let now : Atom := match s.fault, s.items with
            | none, items => .call lv o.now [] true true ((items.getD []).map Outcome.now)
            -- a run that could not be cut has no slots to show
            | some _, none => .call lv o.now left false split args
            | some _, some items => .call lv o.now left false true (items.map Outcome.now)
          (.mk now s.left [o], s.fault)
    | .access lv callee raw false index =>
      match visit callee with
      | (o, some f) => (.mk (.access lv o.now raw false index) (untouchedRun raw) [o], some f)
      | (o, none) =>
        let s := trackSlots visit lv.enter raw
        let now : Atom := match s.fault with
          | none => .access lv o.now [] true ((s.items.getD []).map Outcome.now)
          | some _ => .access lv o.now (s.left.map Outcome.now) false index
        (.mk now s.left [o], s.fault)
    | .clause lv name cond body =>
      let (conds, fault) := visitAll visit cond.toList
      let cond' := (conds.head?.map Outcome.now)
      match fault with
      | some f => (.mk (.clause lv name cond' body) [] (conds ++ [.untouched body]), some f)
      | none =>
        let (b, fault) := match body with
          | .block bl raw false stmts =>
            settle (trackStatements fuel limit nest (bodyLevel lv name) raw)
              (.block bl [] true) (.block bl · false stmts)
          | _ => (.untouched body, none)
        (.mk (.clause lv name cond' b.now) [] (conds ++ [b]), fault)
    | .chain lv clauses =>
      let (os, fault) := visitAll visit clauses
      (.mk (.chain lv (os.map Outcome.now)) [] os, fault)
    | .exprStmt lv raw false exprs =>
      settle (trackTokens visit lv.bare raw) (.exprStmt lv [] true) (.exprStmt lv · false exprs)
    | .controlStmt lv head raw false exprs =>
      settle (trackTokens visit lv.bare raw)
        (.controlStmt lv head [] true) (.controlStmt lv head · false exprs)
    | a => (.untouched a, none)

end

theorem track_zero (limit : Int64) (nest : Nat) (a : Atom) :
    track 0 limit nest a = (.untouched a, some .nestingTooDeep) := by
  rw [track]

theorem trackRun_zero (limit : Int64) (nest : Nat) (lv : Level) (raw : List Atom) :
    trackRun 0 limit nest lv raw = .failed raw .nestingTooDeep := by
  rw [trackRun]

theorem trackStatements_zero (limit : Int64) (nest : Nat) (lv : Level) (raw : List Atom) :
    trackStatements 0 limit nest lv raw = .failed raw .nestingTooDeep := by
  rw [trackStatements]

/-- The atom as an attempt to resolve it leaves it, with the failure if there was one. -/
def Atom.attempt (limit : Int64) (a : Atom) : Atom × Option ReadFault :=
  match a.resolve limit with
  | .ok a' => (a', none)
  | .error f => ((track (a.weight + 4) limit 0 a).1.now, some f)

/-- Resolves atoms in order up to the first failure; later atoms stay as they are. -/
def attemptAll (limit : Int64) : List Atom → List Atom × Option ReadFault
  | [] => ([], none)
  | a :: rest =>
    match a.attempt limit with
    | (a', some f) => (a' :: rest, some f)
    | (a', none) =>
      let (rest', f) := attemptAll limit rest
      (a' :: rest', f)

end WatScript
